import LayerNet.Proofs.Blueprint.Spelling
import LayerNet.Proofs.Blueprint.Token
import LayerNet.Proofs.Decimal.RoundTrip

/-!
# Telling — what a layer writes is a token of its blueprint

A token tells counts that fit a word, steps that are not zero and finite numbers, so the blueprint
of any token has only such settings (`Blueprint.tellable_of_read`). A layer with such settings
writes a token, and the token asks for these settings (`Layer.Tells`). Three things it does not
tell as they were told before: the standard size of a response normalization is left out, an open
axis has its length, and a zero has no sign.
-/

namespace LayerNet

/-! ## What a token can tell -/

/-- A number above zero that fits a word. -/
def IsCount (n : Nat) : Prop := 0 < n ∧ n < Size.limit

instance (n : Nat) : Decidable (IsCount n) := inferInstanceAs (Decidable (_ ∧ _))

namespace Scan

theorem Figures.of_lt {n : Nat} (fits : n < Size.limit) : Figures (toString n).toList n :=
  ⟨Decimal.toString_ne_nil n, fun _ member => Decimal.isDigit_of_mem_toString member,
    Decimal.ofDigits_toString n, fits⟩

theorem Extents.lt {cs : List Char} {p : Nat × Nat} (spelled : Extents cs p) :
    p.1 < Size.limit ∧ p.2 < Size.limit := by
  cases spelled with
  | both figures => exact ⟨figures.fits, figures.fits⟩
  | each figures figures' => exact ⟨figures.fits, figures'.fits⟩

/-- Extents as tokens write them. -/
theorem Extents.of_lt {p : Nat × Nat} (fits : p.1 < Size.limit ∧ p.2 < Size.limit) :
    Extents ((toString p.1).toList ++ 'x' :: (toString p.2).toList) p :=
  .each (.of_lt fits.1) (.of_lt fits.2)

end Scan

open Scan

/-- The numbers of a windowing fit, and its steps are not zero. -/
structure Windowing.Tellable (w : Windowing) : Prop where
  steps : IsCount w.stride.1 ∧ IsCount w.stride.2
  rims : w.padding.1 < Size.limit ∧ w.padding.2 < Size.limit

theorem Scan.Accepted.tellable {cs : List Char} {w : Windowing} (accepted : Accepted cs w) :
    w.Tellable := by
  have one : IsCount 1 := by decide
  have none : 0 < Size.limit ∧ 0 < Size.limit := by decide
  have steps {cs : List Char} {p : Nat × Nat} (spelled : Extents cs p)
      (above : 0 < p.1 ∧ 0 < p.2) : IsCount p.1 ∧ IsCount p.2 :=
    ⟨⟨above.1, spelled.lt.1⟩, ⟨above.2, spelled.lt.2⟩⟩
  rcases accepted with spelled | spelled
  · cases spelled with
    | dense => exact ⟨⟨one, one⟩, none⟩
    | steps spelled above => exact ⟨steps spelled above, none⟩
    | rims spelled => exact ⟨⟨one, one⟩, spelled.lt⟩
    | both spelled above spelled' => exact ⟨steps spelled above, spelled'.lt⟩
  · cases spelled with
    | zero spelled _ => exact ⟨⟨one, one⟩, spelled.lt⟩
    | again spelled above spelled' => exact ⟨steps spelled above, spelled'.lt⟩

/-- A pair of extents as tokens write it. -/
theorem Layer.toList_extentsToken (p : Nat × Nat) (mark : String) :
    (extentsToken p mark).toList = '+' :: (((toString p.1).toList ++ 'x' :: (toString p.2).toList)
      ++ '(' :: (mark.toList ++ [')'])) := by
  show ("+" ++ toString p.1 ++ "x" ++ toString p.2 ++ "(" ++ mark ++ ")").toList = _
  simp only [String.toList_append]
  simp

/-- The settings of a convolution as its token writes them. -/
theorem Windowing.Tellable.windowed {w : Windowing} (tellable : w.Tellable) :
    Windowed ((if w.stride ≠ (1, 1) then Layer.extentsToken w.stride "S" else "").toList
      ++ (if w.padding ≠ (0, 0) then Layer.extentsToken w.padding "P" else "").toList) w := by
  obtain ⟨stride, padding⟩ := w
  have steps : Extents _ stride := .of_lt ⟨tellable.steps.1.2, tellable.steps.2.2⟩
  have rims : Extents _ padding := .of_lt tellable.rims
  have above : 0 < stride.1 ∧ 0 < stride.2 := ⟨tellable.steps.1.1, tellable.steps.2.1⟩
  by_cases unit : stride = (1, 1)
  · by_cases none : padding = (0, 0)
    · subst unit none
      exact .dense
    · rw [if_neg (not_not.mpr unit), if_pos none, Layer.toList_extentsToken, unit]
      exact .rims rims
  · rw [if_pos unit, Layer.toList_extentsToken]
    by_cases none : padding = (0, 0)
    · rw [if_neg (not_not.mpr none), none]
      exact List.append_nil _ ▸ .steps steps above
    · rw [if_pos none, Layer.toList_extentsToken]
      have spelled := Windowed.both steps above rims
      simpa using spelled

namespace Blueprint

/-- The numbers of a blueprint are such that a token can tell them. -/
def Tellable : Blueprint → Prop
  | input dims => ∀ n, some n ∈ dims → IsCount n
  | fullyConnected units => IsCount units
  | convolution filters size windowing => IsCount filters ∧ IsCount size ∧ windowing.Tellable
  | pool _ size => IsCount size
  | recurrent units _ => IsCount units
  | dropout keep => keep.isFinite = true ∧ 0 < keep ∧ keep ≤ 1
  | scale factor => factor.isFinite = true
  | normalization size => ∀ n, size = some n → IsCount n
  | split | concat | activation _ | loss _ => True

theorem Axes.isCount {cs : List Char} {axes : List (Option Nat)} (spelled : Axes cs axes) :
    ∀ n, some n ∈ axes → IsCount n := by
  have one {cs : List Char} {axis : Option Nat} (spelled : Axis cs axis) {n : Nat}
      (same : some n = axis) : IsCount n := by
    cases spelled with
    | unknown => cases same
    | length figures above =>
      cases same
      exact ⟨above, figures.fits⟩
  induction spelled with
  | last axis =>
    intro n member
    exact one axis (List.mem_singleton.mp member)
  | more axis _ ih =>
    intro n member
    rcases List.mem_cons.mp member with same | member
    · exact one axis same
    · exact ih n member

/-- A blueprint that is read has numbers that a token can tell. -/
theorem tellable_of_read {token : String} {b : Blueprint} (read : read? token = some b) :
    b.Tellable := by
  obtain ⟨family, spelled⟩ := read?_eq_some_iff.mp read
  generalize token.toList = cs at spelled
  cases spelled with
  | units figures above => exact ⟨above, figures.fits⟩
  | filters figures above rows _ above' windowed =>
    exact ⟨⟨above, figures.fits⟩, ⟨above', rows.fits⟩, windowed.tellable⟩
  | pooling _ rows _ above => exact ⟨above, rows.fits⟩
  | states _ figures above => exact ⟨above, figures.fits⟩
  | keep _ isFinite within => exact ⟨isFinite, within⟩
  | factor _ isFinite => exact isFinite
  | standard => exact fun n same => nomatch same
  | normalization figures above =>
    rintro n ⟨⟩
    exact ⟨above, figures.fits⟩
  | keyword member =>
    have all : keywords.Forall fun entry => entry.2.Tellable :=
      ⟨trivial, trivial, trivial, trivial, trivial, trivial, trivial, trivial⟩
    exact List.forall_iff_forall_mem.mp all _ member
  | input spelled => exact spelled.isCount

/-! ## What is written is read -/

/-- Axes that are counts, as tokens write them. -/
theorem Axes.of_counts {dims : List Nat} (nonempty : dims ≠ [])
    (counts : ∀ n ∈ dims, IsCount n) :
    Axes ("x".intercalate (dims.map toString)).toList (dims.map some) := by
  have axis {n : Nat} (count : IsCount n) : Axis (toString n).toList (some n) :=
    .length (.of_lt count.2) count.1
  have joined : ("x".intercalate (dims.map toString)).toList
      = Reader.joined 'x' (dims.map fun n => (toString n).toList) := by
    rw [String.toList_intercalate, List.map_map]
    rfl
  rw [joined]
  clear joined
  induction dims with
  | nil => exact absurd rfl nonempty
  | cons n rest ih =>
    have first := axis (counts n List.mem_cons_self)
    cases rest with
    | nil =>
      rw [List.map_singleton, Reader.joined_singleton]
      exact .last first
    | cons m rest =>
      rw [List.map_cons, List.map_cons, Reader.joined_cons_cons]
      exact .more first (ih (List.cons_ne_nil _ _) fun k member =>
        counts k (List.mem_cons_of_mem _ member))

/-- The text of a number as tokens write it, but for a zero, is the plain one. -/
theorem settingText_eq (x : Float32) : settingText x = Decimal.plain x
    ∨ (x == 0) = true ∧ settingText x = Decimal.plain 0 := by
  unfold settingText
  split
  · unfold Decimal.unsignedZero
    split
    next zero => exact .inr ⟨zero, rfl⟩
    next => exact .inl rfl
  · exact .inl rfl

/-- A finite number as tokens write it is read as a number that equals it, and that is written the
same. -/
theorem read?_settingText {x : Float32} (isFinite : x.isFinite = true) :
    ∃ y, Decimal.read? (settingText x).toList = some y ∧ y.isFinite = true ∧ (y == x) = true
      ∧ settingText y = settingText x ∧ (y = x ∨ (x == 0) = true) := by
  rcases settingText_eq x with text | ⟨zero, text⟩
  · have number : x ≠ Float32.nan := by
      rintro rfl
      exact absurd isFinite (by decide +kernel)
    refine ⟨x, ?_, isFinite, Float32.beq_self_iff.mpr number, rfl, .inl rfl⟩
    rw [text]
    exact Decimal.read?_plain isFinite
  · have finite : (0 : Float32).isFinite = true := by decide +kernel
    refine ⟨0, ?_, finite, BEq.symm zero, ?_, .inr zero⟩
    · rw [text]
      exact Decimal.read?_plain finite
    · rw [text]
      rcases settingText_eq 0 with text' | ⟨-, text'⟩ <;> exact text'

end Blueprint

/-! ## What layers write -/

namespace Layer

open Blueprint (Spelled read?)

/-- The layer writes a token that asks for the blueprint. -/
def Tells (s : Store) (layer : Layer) (b : Blueprint) : Prop :=
  ∃ token, layer.token s = .ok token ∧ read? token = some b

variable {s : Store}

theorem Tells.of_spelled {layer : Layer} {b : Blueprint} {token : String}
    {cs : List Char} {family : Blueprint.Family} (spelled : Spelled Accepted family cs b)
    (written : layer.token s = .ok token) (text : token.toList = cs) : layer.Tells s b :=
  ⟨token, written, Blueprint.read?_eq_some_iff.mpr ⟨family, text ▸ spelled⟩⟩

theorem tells_input {shape : Shape} (valid : shape.IsValid) (fits : ∀ n ∈ shape, n < Size.limit) :
    (input shape).Tells s (.input (shape.map some)) := by
  refine .of_spelled (.input (Blueprint.Axes.of_counts valid.1 fun n member => ?_)) rfl rfl
  refine ⟨Nat.pos_of_ne_zero fun zero => valid.2 ?_, fits n member⟩
  rw [← zero]
  exact member

theorem tells_fullyConnected {units : Nat} (count : IsCount units) (inputShape : Shape)
    (weight bias : TensorId) :
    (fullyConnected inputShape [units] weight bias).Tells s (.fullyConnected units) :=
  .of_spelled (.units (.of_lt count.2) count.1) rfl String.toList_append

theorem tells_convolution {filters size channels : Nat} {windowing : Windowing} {kernel : TensorId}
    (count : IsCount filters) (count' : IsCount size) (tellable : windowing.Tellable)
    (inputShape outputShape : Shape) (bias : TensorId)
    (shaped : s.shape? kernel = some [size, size, channels, filters]) :
    (convolution inputShape outputShape windowing kernel bias).Tells s
      (.convolution filters size windowing) := by
  have accepted : Accepted _ windowing := .inl tellable.windowed
  have spelled := Spelled.filters (.of_lt count.2) count.1 (.of_lt count'.2) (.of_lt count'.2)
    count'.1 accepted
  refine .of_spelled spelled (token_convolution windowing inputShape outputShape bias shaped) ?_
  show (toString filters ++ "C" ++ toString size ++ "x" ++ toString size ++ _ ++ _).toList = _
  simp only [String.toList_append]
  simp

theorem tells_pool {size : Nat} (count : IsCount size) (pooling : Pooling)
    (inputShape outputShape : Shape) :
    (pool pooling size inputShape outputShape).Tells s (.pool pooling size) := by
  refine .of_spelled (.pooling pooling (.of_lt count.2) (.of_lt count.2) count.1) rfl ?_
  show (toString size ++ "x" ++ toString size ++ pooling.token).toList = _
  simp only [String.toList_append]
  simp

theorem tells_recurrent {units : Nat} {bias : TensorId} {t : Tensor} (count : IsCount units)
    (summarize : Bool) (inputShape outputShape : Shape) (inputWeight stateWeight : TensorId)
    (found : s.get? bias = some t) (size : t.count = units) :
    (recurrent inputShape outputShape summarize inputWeight stateWeight bias).Tells s
      (.recurrent units summarize) := by
  have written : (recurrent inputShape outputShape summarize inputWeight stateWeight bias).token s
      = .ok (toString units ++ if summarize then "RS" else "R") := by
    rw [token, Store.tensor, found, ← size]
    rfl
  exact .of_spelled (.states summarize (.of_lt count.2) count.1) written String.toList_append

/-- The standard size is not told, and means the same when it is. -/
theorem tells_normalization {settings : Normalization} (count : IsCount settings.size)
    (shape : Shape) : ∃ size, (normalization settings shape).Tells s (.normalization size)
      ∧ size.getD Normalization.standard.size = settings.size := by
  by_cases standard : settings.size = Normalization.standard.size
  · refine ⟨none, ⟨"LRN", ?_, rfl⟩, standard.symm⟩
    rw [token, if_pos standard]
    rfl
  · have written : (normalization settings shape).token s
        = .ok ("LRN" ++ toString settings.size) := by
      rw [token, if_neg standard]
      rfl
    refine ⟨some settings.size, ?_, rfl⟩
    exact .of_spelled (.normalization (.of_lt count.2) count.1) written String.toList_append

theorem tells_dropout {keep : Float32} (isFinite : keep.isFinite = true)
    (within : 0 < keep ∧ keep ≤ 1) (shape : Shape) :
    (dropout keep shape).Tells s (.dropout keep) := by
  obtain ⟨y, read, -, -, -, same⟩ := Blueprint.read?_settingText isFinite
  have nonzero : ¬ (keep == 0) = true := by
    intro zero
    rcases (Float32.beq_iff_ne_nan_and_eq.mp zero).2.2 with rfl | ⟨rfl, -⟩ | ⟨rfl, -⟩
    all_goals exact absurd within.1 (by decide +kernel)
  obtain rfl : y = keep := same.resolve_right nonzero
  exact .of_spelled (.keep read isFinite within) rfl String.toList_append

/-- A factor that is read again equals the factor and is written the same. -/
theorem tells_scale {factor : Float32} (isFinite : factor.isFinite = true) (s : Store)
    (shape : Shape) :
    ∃ factor', (scale factor shape).Tells s (.scale factor') ∧ (factor' == factor) = true
      ∧ settingText factor' = settingText factor := by
  obtain ⟨y, read, finite, equal, text, -⟩ := Blueprint.read?_settingText isFinite
  exact ⟨y, .of_spelled (.factor read finite) rfl String.toList_append, equal, text⟩

theorem tells_keyword {word : String} {b : Blueprint} {layer : Layer}
    (written : layer.token s = .ok word) (member : (word, b) ∈ Blueprint.keywords) :
    layer.Tells s b :=
  .of_spelled (.keyword member) written rfl

end Layer

end LayerNet
