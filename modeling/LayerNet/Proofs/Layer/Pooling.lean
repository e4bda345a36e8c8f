import LayerNet.Layer.Build
import LayerNet.Proofs.Operation.Windows
import LayerNet.Proofs.Session.Chains
import LayerNet.Proofs.Session.Computing

/-!
# Pooling layers — windows in a session

A pooling layer runs two operations, one along the rows and one along the columns, with a tensor in
between. What it gives are the windows of the images, reduced; and seeded and replayed, it hands the
gradient of a result to its window: to the winner alone, or to all in equal shares
(`Layer.pooling_windows`). On the way the gradient is added to zeros twice, which is where zero has
to be neutral: in single precision it is, but for the sign of zero.
-/

namespace LayerNet

namespace Session

variable {m : Machine} {x : TensorId} {a : Buffer} {shape : Shape} {axis members : Nat}
  {b : Shape.Blocks} (has : m.store.Has x a shape) (around : shape.blocks axis = .ok b)
  (some : 0 < members) (even : members ∣ b.length) (pooling : Pooling)
include has around some even

theorem partitions_of_has : Grouping.Partitions ⟨b, members⟩ shape axis :=
  Grouping.partitions (g := ⟨b, members⟩) (Nat.div_mul_cancel even).symm some around has.valid

/-- A pooling along one axis runs through where what it makes is finite. -/
theorem hinges_operation (recording : m.session.finalized = false) :
    Hinges ((Grouping.reduced ⟨b, members⟩ pooling a).nonFinite? = none)
      (apply1 (pooling.operation x axis members)) m fun m' y =>
        m'.store.Has y (Grouping.reduced ⟨b, members⟩ pooling a)
          (shape.set axis (b.length / members)) := by
  have whole : b.length = Grouping.groups ⟨b, members⟩ * members := (Nat.div_mul_cancel even).symm
  have count := Shape.prod_set around (b.length / members)
  have fewer : List.prod (shape.set axis (b.length / members)) < Size.limit := by
    rw [count]
    exact Nat.lt_of_le_of_lt (Grouping.count_le (g := ⟨b, members⟩) whole some around) has.small
  have valid : Shape.IsValid (shape.set axis (b.length / members)) :=
    has.valid.set axis (Grouping.groups_pos (g := ⟨b, members⟩) whole around has.valid).1
  obtain ⟨c, there, -, rfl, rfl⟩ := has
  have unary : (pooling.operation x axis members).operands = [x] := by cases pooling <;> rfl
  have natural : (pooling.operation x axis members).map (fun _ => c)
      = pooling.operation c axis members := by cases pooling <;> rfl
  refine (hinges_one there _ unary recording (fun _ => rfl)
    (natural ▸ Content.operation_eq pooling around some even) valid ?_).congr ?_
  · rw [Grouping.reduced, Buffer.size_tabulate, count]
    rfl
  · exact (and_iff_right fewer).symm

/-- Replayed, it hands the gradients of the results to the members of their groups. -/
theorem distributes_operation : Distributes m (pooling.operation x axis members) x
    (shape.set axis (b.length / members)) (Grouping.shares ⟨b, members⟩ pooling a) := by
  have partitions := partitions_of_has has around some even
  obtain ⟨c, there, regular, rfl, rfl⟩ := has
  have wf := (Content.regular_iff.mp regular).1
  have unary : (pooling.operation x axis members).operands = [x] := by cases pooling <;> rfl
  have natural : (pooling.operation x axis members).map (fun _ => c)
      = pooling.operation c axis members := by cases pooling <;> rfl
  refine distributes_delta there _ unary (Grouping.delta ⟨b, members⟩ pooling c.values)
    (natural ▸ Content.operation_eq pooling around some even) ?_ ?_
  · exact fun gradient _ => partitions.fits_delta some pooling c.values gradient wf.count
  · intro gradient size j inside
    exact partitions.reaching_delta some pooling c.values
      (size.trans (Shape.prod_set around _)) (wf.count ▸ inside)

end Session

namespace Layer

open Session

theorem forwardPooling_eq (x : TensorId) (pooling : Pooling) (size : Nat) (shape : Shape) :
    forwardPooling x pooling size shape = do
      let _ ← batchSize x shape "pool"
      let rows ← apply1 (pooling.operation x 1 size)
      return [← apply1 (pooling.operation rows 2 size)] := by
  cases pooling <;> rfl

/-- A pooling layer is built where its windows cover the image without a rest. -/
theorem of_ofPooling_eq_ok {pooling : Pooling} {size height width channels : Nat} {layer : Layer}
    (built : ofPooling pooling size [height, width, channels] = .ok layer) :
    layer = .pool pooling size [height, width, channels] [height / size, width / size, channels]
      ∧ 0 < size ∧ size ∣ height ∧ size ∣ width := by
  unfold ofPooling at built
  dsimp only at built
  split at built
  · cases built
  next none =>
    cases built
    have divided := List.find?_eq_none.mp none
    have rows := divided height (by simp)
    have columns := divided width (by simp)
    simp only [Bool.or_eq_true, beq_iff_eq, bne_iff_ne, not_or, not_not] at rows columns
    exact ⟨rfl, Nat.pos_of_ne_zero rows.1, Nat.dvd_of_mod_eq_zero rows.2,
      Nat.dvd_of_mod_eq_zero columns.2⟩

section Windows

variable {m : Machine} {x : TensorId} {a : Buffer} {w : Windows} {pooling : Pooling}
  (has : m.store.Has x a w.shape)
include has

variable (pooling) in
/-- The rows of the windows are reduced, and the gradients of the reduced rows handed back. -/
theorem pools_down (recording : m.session.finalized = false) :
    Hinges ((w.reduced pooling a).nonFinite? = none) (apply1 (pooling.operation x 1 w.size)) m
        (fun m' u => m'.store.Has u (w.reduced pooling a) w.between)
      ∧ Distributes m (pooling.operation x 1 w.size) x w.between (w.down.shares pooling a) := by
  have some := Windows.size_pos has.valid
  have around := Windows.around_down has.valid has.small
  have even : w.size ∣ w.down.blocks.length := Nat.dvd_mul_left _ _
  rw [← Windows.set_down has.valid]
  exact ⟨hinges_operation has around some even pooling recording,
    distributes_operation has around some even pooling⟩

/-- The reduced rows are reduced along the columns. -/
theorem pools_across {m₁ : Machine} (recording : m₁.session.finalized = false) {u : TensorId}
    (between : m₁.store.Has u (w.reduced pooling a) w.between) :
    Hinges ((w.pooled pooling a).nonFinite? = none) (apply1 (pooling.operation u 2 w.size)) m₁
        (fun m' y => m'.store.Has y (w.pooled pooling a) w.resultShape)
      ∧ Distributes m₁ (pooling.operation u 2 w.size) u w.resultShape
        (w.across.shares pooling (w.reduced pooling a)) := by
  have some := Windows.size_pos has.valid
  have around := Windows.around_across has.valid has.small
  have even : w.size ∣ w.across.blocks.length := Nat.dvd_mul_left _ _
  rw [← Windows.set_across has.valid]
  exact ⟨hinges_operation between around some even pooling recording,
    distributes_operation between around some even pooling⟩

/-- What a pooling layer gives, and what it takes to run through. -/
theorem hinges_forwardPooling (recording : m.session.finalized = false) :
    Hinges ((w.reduced pooling a).nonFinite? = none ∧ (w.pooled pooling a).nonFinite? = none)
      (forwardPooling x pooling w.size [w.rows * w.size, w.columns * w.size, w.channels]) m
      fun m' ids => ∃ y, ids = [y] ∧ m'.store.Has y (w.pooled pooling a) w.resultShape := by
  rw [forwardPooling_eq]
  refine (hinges_batchSize has "pool").after fun _ m₀ _ same => ?_
  obtain ⟨rfl, -⟩ := same
  refine (pools_down pooling has recording).1.bind fun u m₁ onward between => ?_
  have recording := onward.finalized.trans recording
  exact (pools_across has recording between).1.map fun _ y _ given => ⟨y, rfl, given⟩

/-- A pooling layer that runs through has run its two operations. -/
theorem of_run_forwardPooling {m' : Machine} {ids : List TensorId}
    (run : (forwardPooling x pooling w.size
      [w.rows * w.size, w.columns * w.size, w.channels]).run m = (.ok ids, m')) :
    ∃ u m₁ y, (apply1 (pooling.operation x 1 w.size)).run m = (.ok u, m₁)
      ∧ (apply1 (pooling.operation u 2 w.size)).run m₁ = (.ok y, m') ∧ ids = [y] := by
  rw [forwardPooling_eq] at run
  obtain ⟨n, m₀, counted, rest⟩ := Step.run_bind_eq_ok_iff.mp run
  obtain ⟨-, same, -⟩ := (hinges_batchSize has "pool").given counted
  obtain ⟨u, m₁, first, rest⟩ := Step.run_bind_eq_ok_iff.mp rest
  obtain ⟨y, m₂, second, rest⟩ := Step.run_bind_eq_ok_iff.mp rest
  cases rest
  exact ⟨u, m₁, y, same ▸ first, second, rfl⟩

end Windows

/-- A pooling layer works on square windows. Built for images of any extents, and on a batch of
any size, it gives the windows reduced, each result from the elements of its window and no others,
as the laws of windows tell; the maximum is the value of one of them. It runs through where what it
makes is finite. Seeded and replayed, it adds to the gradients of a window, wherever zero is neutral
for the values that are added: the whole gradient of the result to the winner and nothing to any
other element, if it takes the maximum; if it takes the mean, to each element the gradient times
the share along the columns, times the share along the rows. No other tensor gains anything, and no
content changes, before the entries that there were are replayed; all of them are. -/
theorem pooling_windows {m : Machine} {x : TensorId} {a : Buffer} {pooling : Pooling}
    {size batch height width channels : Nat} {layer : Layer}
    (built : ofPooling pooling size [height, width, channels] = .ok layer) (sound : m.Sound)
    (has : m.store.Has x a [batch, height, width, channels]) :
    ∃ w : Windows, w.size = size ∧ w.shape = [batch, height, width, channels]
      ∧ w.Laws pooling a
      ∧ Hinges ((w.reduced pooling a).nonFinite? = none ∧ (w.pooled pooling a).nonFinite? = none)
        (layer.forward [x]) m
        (fun m' ids => ∃ y, ids = [y] ∧ m'.store.Has y (w.pooled pooling a) w.resultShape)
      ∧ ∀ (ids : List TensorId) (m' : Machine), (layer.forward [x]).run m = (.ok ids, m') →
        ∀ gradient : Buffer, gradient.size = w.resultShape.prod → ∃ s : Store,
          (seeded (layer.forward [x]) [gradient]).run m
              = (replayAll m.session.trace.toList.reverse).run (closing { m' with store := s })
            ∧ ((seeded (layer.forward [x]) [gradient]).run m).1 = .ok ()
            ∧ (∀ id, s.content? id = m'.store.content? id)
            ∧ (∀ id, id ≠ x → m.store.Gains s id fun _ => [])
            ∧ ∀ t t' : Tensor, m.store.get? x = some t → s.get? x = some t' →
              ∀ r < w.resultShape.prod, ∀ p ∈ w.window r, 0 + gradient.element r = gradient.element r →
                match pooling with
                | .max => t.gradientOrZeros.element p + 0 = t.gradientOrZeros.element p →
                  t'.gradientOrZeros.element p
                    = if w.winner a r = p then t.gradientOrZeros.element p + gradient.element r
                      else t.gradientOrZeros.element p
                | .average => 0 + gradient.element r * (1 / Float32.ofNat size)
                    = gradient.element r * (1 / Float32.ofNat size) →
                  t'.gradientOrZeros.element p = t.gradientOrZeros.element p
                    + gradient.element r * (1 / Float32.ofNat size) * (1 / Float32.ofNat size) := by
  obtain ⟨rfl, some, rows, columns⟩ := of_ofPooling_eq_ok built
  have tall : height / size * size = height := Nat.div_mul_cancel rows
  have wide : width / size * size = width := Nat.div_mul_cancel columns
  let w : Windows := ⟨batch, height / size, width / size, channels, size⟩
  have shaped : w.shape = [batch, height, width, channels] := by
    show [batch, height / size * size, width / size * size, channels] = _
    rw [tall, wide]
  have forward : (pool pooling size [height, width, channels]
      [height / size, width / size, channels]).forward [x]
        = forwardPooling x pooling w.size [w.rows * w.size, w.columns * w.size, w.channels] := by
    show forwardPooling x pooling size _ = forwardPooling x pooling size
      [height / size * size, width / size * size, channels]
    rw [tall, wide]
  rw [← shaped] at has
  have valid := has.valid
  have small := has.small
  rw [forward]
  refine ⟨w, rfl, shaped, Windows.laws valid small pooling a,
    hinges_forwardPooling has sound.recording, fun ids m' run gradient sized => ?_⟩
  obtain ⟨u, m₁, y, first, second, rfl⟩ := of_run_forwardPooling has run
  have first' := run_apply_of_apply1 first
  obtain ⟨-, _, -, -, onward⟩ := of_run_apply first'
  obtain ⟨reduces, hands⟩ := pools_down pooling has sound.recording
  obtain ⟨-, between⟩ := reduces.given first
  obtain ⟨-, hands'⟩ := pools_across has (onward.finalized.trans sound.recording) between
  obtain ⟨g, g', s, seeds, handed, contents, gains, replays, succeeds⟩ :=
    seeded_chain sound first' (run_apply_of_apply1 second) hands hands' run sized
  refine ⟨s, replays, succeeds, contents, fun id other => ?_,
    fun t t' before after r result p member neutral => ?_⟩
  · have gained := gains id
    simp only [if_neg other] at gained
    exact gained
  · have count : t.count = w.shape.prod := by
      obtain ⟨c, there, regular, same, -⟩ := has
      rw [Store.content?_of_get? before, Option.some_inj] at there
      subst there
      exact regular.values.trans (congrArg List.prod same)
    have inside := ((Windows.mem_window valid small result).mp member).1
    have gained := gains x t t' before after p (count ▸ inside)
    simp only [if_true] at gained
    cases pooling with
    | max =>
      intro neutral'
      obtain ⟨wins, loses⟩ := Windows.shares_max valid small a result member handed
      split
      next winner =>
        rw [gained, wins winner, seeds r result, neutral, neutral]
        rfl
      next other =>
        rcases loses other with none | zero
        · rw [gained, none]
          rfl
        · rw [gained, zero]
          exact neutral'
    | average =>
      intro neutral'
      rw [gained, Windows.shares_average valid small a result member handed, seeds r result, neutral]
      show _ + (0 + gradient.element r * (1 / Float32.ofNat size)) * _ = _
      rw [neutral']

/-- A machine with one image of two rows and two columns. -/
def ofPixels : Machine :=
  { Machine.fresh with
    store := (Machine.fresh.store.add ⟨[1, 2, 2, 1], [4, 2, 1, 1], #[1, 2, 3, 4]⟩ none).2 }

theorem sound_ofPixels : ofPixels.Sound := by
  have made : Content.make #[1, 2, 3, 4] [1, 2, 2, 1]
      = .ok ⟨[1, 2, 2, 1], [4, 2, 1, 1], #[1, 2, 3, 4]⟩ := by
    have valid : Shape.validate [1, 2, 2, 1] = .ok () :=
      (Shape.validate_eq_ok_iff _).mpr (by decide)
    have finite : Buffer.nonFinite? #[1, 2, 3, 4] = none := by decide +kernel
    unfold Content.make
    rw [valid, finite]
    rfl
  exact (Machine.sound_of_fresh (m := .fresh) Store.wellFormed_empty rfl rfl).create made none

/-- The image is one window. Its maximum is the last element, which gets the whole gradient; of its
mean every element gets a quarter. -/
theorem pooling_windows_square :
    (∃ m' : Machine, (seeded ((pool .max 2 [2, 2, 1] [1, 1, 1]).forward [⟨0⟩]) [#[8]]).run ofPixels
        = (.ok (), m')
      ∧ ∀ p < 4, Routing.fetch (m'.store.gradients [⟨0⟩]) (0, p) = if 3 = p then 8 else 0)
    ∧ ∃ m' : Machine,
      (seeded ((pool .average 2 [2, 2, 1] [1, 1, 1]).forward [⟨0⟩]) [#[8]]).run ofPixels
        = (.ok (), m')
      ∧ ∀ p < 4, Routing.fetch (m'.store.gradients [⟨0⟩]) (0, p) = 2 := by
  have image : ofPixels.store.Has ⟨0⟩ #[1, 2, 3, 4] [1, 2, 2, 1] :=
    ⟨_, rfl, ⟨by decide, by decide, rfl, rfl, by decide⟩, rfl, rfl⟩
  have one {w : Windows} (size : w.size = 2) (shaped : w.shape = [1, 2, 2, 1]) :
      w = ⟨1, 1, 1, 1, 2⟩ := by
    obtain ⟨batch, rows, columns, channels, _⟩ := w
    cases size
    simp only [Windows.shape, List.cons.injEq, and_true] at shaped
    obtain ⟨rfl, rows, columns, rfl⟩ := shaped
    obtain rfl : _ = 1 := Nat.eq_of_mul_eq_mul_right (by decide) rows
    obtain rfl : _ = 1 := Nat.eq_of_mul_eq_mul_right (by decide) columns
    rfl
  have built (pooling : Pooling) : ofPooling pooling 2 [2, 2, 1]
      = .ok (pool pooling 2 [2, 2, 1] [1, 1, 1]) := rfl
  have replayed (pooling : Pooling) :
      (Windows.reduced ⟨1, 1, 1, 1, 2⟩ pooling #[1, 2, 3, 4]).nonFinite? = none
        ∧ (Windows.pooled ⟨1, 1, 1, 1, 2⟩ pooling #[1, 2, 3, 4]).nonFinite? = none →
      ∃ m' : Machine, (seeded ((pool pooling 2 [2, 2, 1] [1, 1, 1]).forward [⟨0⟩]) [#[8]]).run ofPixels
          = (.ok (), m')
        ∧ ∀ p < 4, Routing.fetch (m'.store.gradients [⟨0⟩]) (0, p)
          = if pooling = .average then 2 else if 3 = p then 8 else 0 := by
    intro finite
    obtain ⟨w, size, shaped, -, runs, seeds⟩ := pooling_windows (built pooling) sound_ofPixels image
    obtain rfl := one size shaped
    obtain ⟨ids, m', run, onward, -⟩ := runs.passes finite
    obtain ⟨s, seeded, -, contents, -, gains⟩ := seeds ids m' run #[8] rfl
    refine ⟨_, seeded, fun p small => ?_⟩
    obtain ⟨t, before, old⟩ : ∃ t, ofPixels.store.get? ⟨0⟩ = some t
        ∧ ∀ p, t.gradientOrZeros.element p = 0 := ⟨_, rfl, Buffer.element_zeros 4⟩
    have there := (contents ⟨0⟩).trans (onward.keeps _ _ (Store.content?_of_get? before))
    obtain ⟨t', after, -⟩ := Option.map_eq_some_iff.mp there
    have member : ∀ p < 4, p ∈ Windows.window ⟨1, 1, 1, 1, 2⟩ 0 := by decide
    have gained := gains _ t' before after 0 (by decide) p (member p small) (by decide +kernel)
    have same : Routing.fetch (s.gradients [⟨0⟩]) (0, p) = t'.gradientOrZeros.element p := by
      simp [Routing.fetch, Store.gradients, after]
    refine same.trans ?_
    cases pooling with
    | max =>
      have winner : Windows.winner ⟨1, 1, 1, 1, 2⟩ #[1, 2, 3, 4] 0 = 3 := by decide +kernel
      simp only [old, winner] at gained
      rw [gained (by decide +kernel)]
      exact congrArg (ite (3 = p) · 0) (by decide +kernel)
    | average =>
      simp only [old] at gained
      have quarters : (0 + Buffer.element #[8] 0 * (1 / Float32.ofNat 2) * (1 / Float32.ofNat 2)
          : Float32) = 2 := by decide +kernel
      exact (gained (by decide +kernel)).trans quarters
  obtain ⟨m', run, gradients⟩ := replayed .max (by decide +kernel)
  obtain ⟨m'', run', gradients'⟩ := replayed .average (by decide +kernel)
  exact ⟨⟨m', run, gradients⟩, ⟨m'', run', gradients'⟩⟩

end Layer

end LayerNet
