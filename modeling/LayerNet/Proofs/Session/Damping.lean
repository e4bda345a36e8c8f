import LayerNet.Proofs.Operation.Samples
import LayerNet.Proofs.Session.Operands
import Mathlib.Data.List.Sort

/-!
# Damping — the way back sums over the channels that read a channel

What a channel is divided by depends on the channels in its window. So the gradient of a channel
needs a sum over the channels in whose windows it is, and the way back sums over its own window
instead. Windows reach equally far to both sides and are cut off at the first and the last channel
only, so one channel is in the window of another exactly when that one is in its own
(`Normalization.mem_window_comm`). Both lists are in order, too, so they are the same
(`Normalization.window_eq_filter`).

The laws of a normalization tell windows, results and gradients channel by channel
(`Normalization.Laws`). In a session the result holds the tensor with all pixels damped, and its
entry gives the operand the gradient back (`Session.normalize_damps`).
-/

namespace LayerNet

namespace Normalization

/-! ## Windows -/

section

variable (n : Normalization) {i j c channels : Nat}

theorem window_eq_range' (i channels : Nat) : n.window i channels
    = List.range' (i - n.size / 2) (min (i + n.size / 2 + 1) channels - (i - n.size / 2)) :=
  List.range'_eq_map_range.symm

variable {n} in
theorem mem_window : c ∈ n.window i channels
    ↔ i ≤ c + n.size / 2 ∧ c ≤ i + n.size / 2 ∧ c < channels := by
  rw [window_eq_range', List.mem_range'_1]
  omega

/-- One channel is in the window of another exactly when that one is in its own. -/
theorem mem_window_comm (left : i < channels) (right : j < channels) :
    j ∈ n.window i channels ↔ i ∈ n.window j channels := by
  rw [mem_window, mem_window]
  omega

/-- A window of even size reaches as far as the one that is larger by one. -/
example : (List.range 4).map (window ⟨2, 1, 1, 1⟩ · 4)
    = [[0, 1], [0, 1, 2], [1, 2, 3], [2, 3]] := by
  decide

/-- The window of a channel lists the channels in whose windows it is. -/
theorem window_eq_filter (inside : i < channels) : n.window i channels
    = (List.range channels).filter fun c => i ∈ n.window c channels := by
  have ordered : (n.window i channels).Pairwise (· < ·) := by
    rw [window_eq_range']
    exact List.pairwise_lt_range'
  refine ordered.eq_of_mem_iff (List.pairwise_lt_range.filter _) fun c => ?_
  rw [List.mem_filter, List.mem_range, decide_eq_true_eq]
  constructor
  · intro member
    have there : c < channels := (mem_window.mp member).2.2
    exact ⟨there, (n.mem_window_comm inside there).mp member⟩
  · rintro ⟨there, member⟩
    exact (n.mem_window_comm inside there).mpr member

end

/-! ## Pixels -/

/-- What a channel of a pixel is divided by, before the power is taken. It reads the channels in the
window of the channel, each once, and no others. -/
def divisor (n : Normalization) (channels : Nat) (pixel : Nat → Float32) (c : Nat) : Float32 :=
  n.k + n.alpha * Buffer.sum ((n.window c channels).map fun i => pixel i * pixel i)

/-- What a channel of a pixel has on the way back from the channels whose divisors read it, each of
them once. -/
def crossTerm (n : Normalization) (channels : Nat) (pixel gradient : Nat → Float32) (i : Nat) :
    Float32 :=
  Buffer.sum (((List.range channels).filter fun c => i ∈ n.window c channels).map fun c =>
    gradient c * pixel c * Float32.pow (n.divisor channels pixel c) (-n.beta - 1))

section

variable (n : Normalization) {c i channels : Nat}

theorem divisor_congr {pixel pixel' : Nat → Float32} (same : ∀ i < channels, pixel i = pixel' i)
    (c : Nat) : n.divisor channels pixel c = n.divisor channels pixel' c := by
  unfold divisor
  refine congrArg (fun terms => n.k + n.alpha * Buffer.sum terms) (List.map_congr_left ?_)
  intro i member
  rw [same i (mem_window.mp member).2.2]

theorem crossTerm_congr {pixel pixel' gradient gradient' : Nat → Float32}
    (same : ∀ i < channels, pixel i = pixel' i)
    (same' : ∀ i < channels, gradient i = gradient' i) (i : Nat) :
    n.crossTerm channels pixel gradient i = n.crossTerm channels pixel' gradient' i := by
  unfold crossTerm
  refine congrArg Buffer.sum (List.map_congr_left fun c member => ?_)
  have inside : c < channels := List.mem_range.mp (List.mem_filter.mp member).1
  rw [same c inside, same' c inside, divisor_congr n same]

variable {pixel : Buffer}

theorem element_denominators (inside : c < pixel.size) :
    (n.denominators pixel).element c = n.divisor pixel.size pixel.element c := by
  unfold denominators divisor windowSum
  rw [Buffer.element_tabulate _ inside, Array.size_map]
  refine congrArg (fun terms => n.k + n.alpha * Buffer.sum terms) (List.map_congr_left ?_)
  exact fun i member => Buffer.element_map _ (mem_window.mp member).2.2

theorem element_forward (inside : c < pixel.size) : (n.forward pixel).element c
    = pixel.element c * Float32.pow (n.divisor pixel.size pixel.element c) (-n.beta) := by
  unfold forward
  rw [Buffer.element_combine _ inside (by rwa [size_denominators]), element_denominators n inside]

/-- The sum over a window that the way back takes is the cross term: the window lists the channels
that read its own. -/
theorem element_backward (gradient : Buffer) (inside : i < pixel.size) :
    (n.backward pixel gradient).element i
      = gradient.element i * Float32.pow (n.divisor pixel.size pixel.element i) (-n.beta)
        - 2 * n.alpha * n.beta * pixel.element i
          * n.crossTerm pixel.size pixel.element gradient.element i := by
  unfold backward crossTerm windowSum
  dsimp only
  -- What is summed over is the channel's own window, which is turned round into its readers.
  rw [Buffer.element_tabulate _ inside, Buffer.size_tabulate, element_denominators n inside,
    ← n.window_eq_filter inside]
  refine congrArg (fun terms => _ - _ * Buffer.sum terms) (List.map_congr_left fun c member => ?_)
  have there : c < pixel.size := (mem_window.mp member).2.2
  rw [Buffer.element_tabulate _ there, element_denominators n there]

end

/-! ## Tensors -/

/-- A tensor with its pixels damped. -/
def damped (n : Normalization) (channels : Nat) (values : Buffer) : Buffer :=
  values.mapRows channels fun _ pixel => (n.forward pixel.toArray).toList

/-- The gradient of a tensor whose pixels were damped. -/
def inputGradient (n : Normalization) (channels : Nat) (values gradient : Buffer) : Buffer :=
  values.mapRows channels fun r pixel =>
    (n.backward pixel.toArray (gradient.row channels r).toArray).toList

end Normalization

/-- The channels of one of the pixels in a buffer. -/
def Buffer.pixel (b : Buffer) (channels r : Nat) : Nat → Float32 :=
  fun c => b.element (r * channels + c)

theorem Buffer.getD_toList (b : Buffer) (i : Nat) : b.toList.getD i 0 = b.element i := by
  simp [Buffer.element]

theorem Buffer.size_row (b : Buffer) (channels r : Nat) :
    (b.row channels r).toArray.size = channels := by
  simp [Buffer.row]

theorem Buffer.element_row (b : Buffer) (r : Nat) {channels c : Nat} (inside : c < channels) :
    Buffer.element (b.row channels r).toArray c = b.pixel channels r c := by
  simp [Buffer.row, Buffer.element, Buffer.pixel, inside]

namespace Normalization

section

variable (n : Normalization) {channels : Nat} {values : Buffer} {r c : Nat}
  (row : r < values.size / channels) (inside : c < channels)
include row inside

theorem element_damped : (n.damped channels values).element (r * channels + c)
    = values.pixel channels r c
      * Float32.pow (n.divisor channels (values.pixel channels r) c) (-n.beta) := by
  have widths (_ : Nat) (pixel : List Float32) (wide : pixel.length = channels) :
      (n.forward pixel.toArray).toList.length = channels := by simpa using wide
  unfold damped
  rw [Buffer.element_mapRows widths values row inside, Buffer.getD_toList,
    element_forward n (by rwa [Buffer.size_row]), Buffer.size_row,
    divisor_congr n fun _ => values.element_row r, values.element_row r inside]

theorem element_inputGradient (gradient : Buffer) :
    (n.inputGradient channels values gradient).element (r * channels + c)
      = gradient.pixel channels r c
          * Float32.pow (n.divisor channels (values.pixel channels r) c) (-n.beta)
        - 2 * n.alpha * n.beta * values.pixel channels r c
          * n.crossTerm channels (values.pixel channels r) (gradient.pixel channels r) c := by
  have widths (r : Nat) (pixel : List Float32) (wide : pixel.length = channels) :
      (n.backward pixel.toArray (gradient.row channels r).toArray).toList.length = channels := by
    simpa using wide
  unfold inputGradient
  rw [Buffer.element_mapRows widths values row inside, Buffer.getD_toList,
    element_backward n _ (by rwa [Buffer.size_row]), Buffer.size_row,
    divisor_congr n fun _ => values.element_row r,
    crossTerm_congr n (fun _ => values.element_row r) fun _ => gradient.element_row r,
    values.element_row r inside, gradient.element_row r inside]

end

/-- The laws of a normalization of so many channels. -/
structure Laws (n : Normalization) (channels : Nat) : Prop where
  /-- The window of a channel is an interval of channels that are there, and it is in it. -/
  interval : ∀ i < channels, ∃ first last, first ≤ i ∧ i < last ∧ last ≤ channels
    ∧ n.window i channels = List.range' first (last - first)
  /-- One channel is in the window of another exactly when that one is in its own. -/
  symmetric : ∀ i < channels, ∀ j < channels,
    j ∈ n.window i channels ↔ i ∈ n.window j channels
  /-- Forward a channel is divided by a power of its divisor. -/
  forward : ∀ x : Buffer, ∀ r < x.size / channels, ∀ c < channels,
    (n.damped channels x).element (r * channels + c) = x.pixel channels r c
      * Float32.pow (n.divisor channels (x.pixel channels r) c) (-n.beta)
  /-- Backward a channel has its own gradient over the same power, less the cross term. -/
  backward : ∀ x gradient : Buffer, ∀ r < x.size / channels, ∀ i < channels,
    (n.inputGradient channels x gradient).element (r * channels + i) = gradient.pixel channels r i
        * Float32.pow (n.divisor channels (x.pixel channels r) i) (-n.beta)
      - 2 * n.alpha * n.beta * x.pixel channels r i
        * n.crossTerm channels (x.pixel channels r) (gradient.pixel channels r) i

theorem laws (n : Normalization) (channels : Nat) : n.Laws channels where
  interval i inside := by
    refine ⟨i - n.size / 2, min (i + n.size / 2 + 1) channels, ?_, ?_, ?_, n.window_eq_range' ..⟩
    all_goals omega
  symmetric _ left _ right := n.mem_window_comm left right
  forward _ _ row _ inside := n.element_damped row inside
  backward _ gradient _ row _ inside := n.element_inputGradient row inside gradient

end Normalization

/-! ## In a session -/

section

variable {x : Content} (wf : x.WellFormed) (n : Normalization) {values : Buffer}
  (size : values.size = x.count)
include wf size

theorem Normalization.size_damped : (n.damped x.shape.width values).size = x.count :=
  Content.size_mapRows wf size fun r pixel wide => by simpa using wide

theorem Normalization.size_inputGradient (gradient : Buffer) :
    (n.inputGradient x.shape.width values gradient).size = x.count :=
  Content.size_mapRows wf size fun r pixel wide => by simpa using wide

end

/-- Settings that are accepted normalize every pixel of a content. -/
theorem Content.normalize_eq (x : Content) {n : Normalization} (window : n.size ≠ 0)
    (offset : ¬ n.k ≤ 0) : x.normalize n = (Computed.single · fun seen =>
        .ok [.whole (n.inputGradient x.shape.width (seen.input 0).values (seen.gradient 0))])
      <$> make (n.damped x.shape.width x.values) x.shape := by
  unfold normalize
  rw [if_neg (not_or.mpr ⟨window, offset⟩)]
  rfl

namespace Session

/-- The way back sums over the right channels. For every size and every number of channels, a window
is an interval around its own channel, one channel is in the window of another exactly when that one
is in its own, and the cross term of a channel is over the channels whose divisors read it. With
settings that are accepted, a normalization runs through where what it makes is finite, and its
result is the tensor damped. Its entry, replayed, adds the gradient with these cross terms to that
of its operand, for the values that there are by then, and nothing to any other tensor. -/
theorem normalize_damps (n : Normalization) : (∀ channels, n.Laws channels)
    ∧ ∀ (m : Machine) (x : TensorId) (a : Buffer) (shape : Shape), m.store.Has x a shape →
      m.session.finalized = false → n.size ≠ 0 → ¬ n.k ≤ 0 →
        Hinges ((n.damped shape.width a).nonFinite? = none) (apply1 (.normalize x n)) m
          (fun m' y => m'.store.Has y (n.damped shape.width a) shape)
        ∧ Repays m (.normalize x n) shape fun values gradient =>
          [n.inputGradient shape.width (values x) gradient] := by
  refine ⟨n.laws, fun m x a shape has recording window offset => ?_⟩
  have valid := has.valid
  have small := has.small
  obtain ⟨c, there, regular, rfl, rfl⟩ := has
  have computes := c.normalize_eq window offset
  have shows : m.store.Shows (Operation.normalize x n).operands [c] := .cons there .nil
  constructor
  · have size := n.size_damped regular.wellFormed rfl
    have made := hinges_one there (.normalize x n) rfl recording (fun _ => rfl) computes valid
      (size.trans regular.values)
    exact made.congr (and_iff_right small).symm
  · have call : (operandsOf m.store (.normalize x n)).compute = c.normalize n :=
      congrArg Operation.compute (operandsOf_one there rfl)
    refine repays_of shows (call.trans computes) ?_
    intro s contents' d' gradient shows counts _
    rcases shows with _ | ⟨here, _ | _⟩
    rcases counts with _ | ⟨count, -⟩
    rw [Store.values_eq here]
    have size := n.size_inputGradient regular.wellFormed count gradient
    exact ⟨rfl, .cons (size.trans count.symm) .nil⟩

/-- The rows of a square, as pixels of two channels in windows of five. -/
theorem normalize_damps_square : Normalization.standard.Laws 2
    ∧ Hinges ((Normalization.standard.damped 2 #[1, 2, 3, 4]).nonFinite? = none)
      (apply1 (.normalize ⟨0⟩ .standard)) ofSquare
      (fun m' y => m'.store.Has y (Normalization.standard.damped 2 #[1, 2, 3, 4]) [2, 2])
    ∧ Repays ofSquare (.normalize ⟨0⟩ .standard) [2, 2] fun values gradient =>
      [Normalization.standard.inputGradient 2 (values ⟨0⟩) gradient] := by
  have square : ofSquare.store.Has ⟨0⟩ #[1, 2, 3, 4] [2, 2] :=
    ⟨_, rfl, ⟨by decide, by decide, rfl, rfl, by decide⟩, rfl, rfl⟩
  have width : Shape.width [2, 2] = 2 := rfl
  obtain ⟨laws, operates⟩ := normalize_damps .standard
  have both := operates ofSquare ⟨0⟩ _ _ square rfl (by decide) (by decide +kernel)
  rw [width] at both
  exact ⟨laws 2, both⟩

end Session

end LayerNet
