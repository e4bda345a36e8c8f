import LayerNet.Layer.Basic
import LayerNet.Optimizer
import LayerNet.Proofs.Operation.Made
import LayerNet.Proofs.Operation.Parting
import LayerNet.Proofs.Session.Additions

/-!
# Regular tensors — shape, strides, values and gradient that agree

A tensor has its shape, its strides, its buffer and its gradient in four fields that different
changes write to. `Tensor.Regular` is what they owe each other. Every change of a store leaves all
tensors regular, loses none and keeps the number of elements of each (`Store.Carries`), so that what
is kept beside the store, such as the velocity of a parameter, still fits.

A change of one tensor is one rule (`Store.carries_update`, `Store.carries_put`), and the others are
told by it: edits, additions, replays (`Session.carries_replay`) and the steps of an optimizer
(`Optimizer.carries_step`), which ask that each velocity is as large as its parameter.
-/

namespace LayerNet

/-- The shape has an axis and no empty one, the strides are the products of the lengths behind each
axis, there is one element for each position, and these can be counted. -/
structure Content.Regular (c : Content) : Prop where
  rank : c.shape ≠ []
  axes : ∀ length ∈ c.shape, 0 < length
  strides : c.strides = (List.range c.shape.length).map fun i => (c.shape.drop (i + 1)).prod
  values : c.values.size = c.shape.prod
  fits : c.shape.prod < Size.limit

/-- The content is regular, and there is no gradient or one of as many elements. -/
structure Tensor.Regular (t : Tensor) : Prop where
  content : t.toContent.Regular
  gradient : ∀ g : Buffer, t.gradient = some g → g.size = t.shape.prod

/-! ## Contents -/

/-- The stride of each axis is the number of elements behind it. -/
theorem Shape.eq_of_strides_eq_ok {shape : Shape} {strides : List Nat}
    (success : shape.strides = .ok strides) :
    strides = (List.range shape.length).map fun i => (shape.drop (i + 1)).prod := by
  induction shape generalizing strides with
  | nil =>
    cases success
    rfl
  | cons length rest ih =>
    cases rest with
    | nil =>
      cases success
      rfl
    | cons next rest =>
      obtain ⟨inner, rfl, behind⟩ := Shape.strides_cons success
      rw [List.length_cons, List.range_succ_eq_map, List.map_cons, List.map_map,
        ih (behind (List.cons_ne_nil _ _))]
      rfl

namespace Content

variable {c : Content}

theorem regular_iff : c.Regular ↔ c.WellFormed ∧ c.count < Size.limit := by
  constructor
  · intro regular
    have inhabited : 0 ∉ c.shape := fun zero => Nat.lt_irrefl 0 (regular.axes 0 zero)
    obtain ⟨strides, stepped⟩ := Shape.strides_of_lt inhabited regular.fits
    refine ⟨⟨⟨regular.rank, inhabited⟩, ?_, regular.values⟩,
      Nat.lt_of_le_of_lt (Nat.le_of_eq regular.values) regular.fits⟩
    rw [stepped, regular.strides, Shape.eq_of_strides_eq_ok stepped]
  · rintro ⟨wf, small⟩
    refine ⟨wf.valid.1, fun length member => ?_, Shape.eq_of_strides_eq_ok wf.strides, wf.count,
      wf.count ▸ small⟩
    exact Nat.pos_of_ne_zero fun zero => wf.valid.2 (zero ▸ member)

theorem Regular.wellFormed (regular : c.Regular) : c.WellFormed := (regular_iff.mp regular).1

theorem Made.regular (made : c.Made) : c.Regular := by
  obtain ⟨-, -, -, elements, -⟩ := of_make_eq_ok made
  exact regular_iff.mpr ⟨wellFormed_of_make made, Size.product_lt elements⟩

/-- Another shape that is accepted makes a regular content of as many elements. -/
theorem Regular.of_reshape {shape : Shape} {c' : Content} (success : c.reshape shape = .ok c') :
    c'.Regular ∧ c'.count = c.count := by
  obtain ⟨_, valid, success⟩ := Outcome.bind_eq_ok_iff.mp success
  obtain ⟨count, elements, success⟩ := Outcome.bind_eq_ok_iff.mp success
  split at success
  · cases success
  next same =>
    obtain ⟨strides, stepped, success⟩ := Outcome.bind_eq_ok_iff.mp success
    cases success
    have size := (Classical.not_not.mp same).symm.trans (Size.product_eq_ok elements)
    refine ⟨regular_iff.mpr ⟨⟨(Shape.validate_eq_ok_iff shape).mp valid, stepped, size⟩, ?_⟩, rfl⟩
    exact Classical.not_not.mp same ▸ Size.product_lt elements

end Content

/-! ## One tensor -/

namespace Tensor

variable {t t' : Tensor}

/-- The tensor is regular and has as many elements as another. -/
structure Follows (t t' : Tensor) : Prop where
  regular : t'.Regular
  count : t'.count = t.count

theorem Regular.count (regular : t.Regular) : t.count = t.shape.prod := regular.content.values

theorem Regular.size_gradientOrZeros (regular : t.Regular) : t.gradientOrZeros.size = t.count :=
  Tensor.size_gradientOrZeros fun g there => (regular.gradient g there).trans regular.count.symm

/-- A gradient can be replaced by one of as many elements. -/
theorem Regular.follows_gradient (regular : t.Regular) {g : Buffer} (size : g.size = t.count) :
    t.Follows { t with gradient := some g } where
  regular := ⟨regular.content, fun _ same => Option.some.inj same ▸ size.trans regular.count⟩
  count := rfl

/-- Values can be replaced by as many. -/
theorem Regular.follows_values (regular : t.Regular) {values : Buffer}
    (size : values.size = t.values.size) (buffer : BufferId) :
    t.Follows { t with values := values, buffer := buffer } where
  regular := by
    obtain ⟨⟨rank, axes, strides, count, fits⟩, gradient⟩ := regular
    exact ⟨⟨rank, axes, strides, size.trans count, fits⟩, gradient⟩
  count := size

theorem Regular.follows_add (regular : t.Regular) {d : Delta} (success : t.add d = .ok t') :
    t.Follows t' := by
  have sized := regular.size_gradientOrZeros
  cases d with
  | whole amounts =>
    unfold add accumulate at success
    dsimp only at success
    split at success
    · cases success
    next size =>
      cases success
      refine regular.follows_gradient ?_
      rw [Buffer.size_combine, sized, Classical.not_not.mp size, Nat.min_self]
  | sparse amounts =>
    unfold add scatter at success
    dsimp only at success
    split at success
    · cases success
      exact regular.follows_gradient ((Buffer.size_addAll _ _).trans sized)
    · cases success

end Tensor

/-! ## Stores -/

namespace Store

/-- All tensors are regular. -/
def Regular (s : Store) : Prop := ∀ id t, s.get? id = some t → t.Regular

theorem Regular.wellFormed {s : Store} (regular : s.Regular) : s.WellFormed where
  contents id t there := (regular id t there).content.wellFormed
  gradients id t there g gradient :=
    ((regular id t there).gradient g gradient).trans (regular id t there).count.symm

theorem Regular.content {s : Store} (regular : s.Regular) {id : TensorId} {c : Content}
    (there : s.content? id = some c) : c.Regular := by
  obtain ⟨t, found, rfl⟩ := Option.map_eq_some_iff.mp there
  exact (regular id t found).content

theorem regular_empty : empty.Regular := fun _ _ there => nomatch there

/-- All tensors are regular afterwards, and those that were there are there with as many
elements. -/
structure Carries (before after : Store) : Prop where
  regular : after.Regular
  lasts : ∀ id t, before.get? id = some t → ∃ t', after.get? id = some t' ∧ t'.count = t.count

variable {s before after : Store}

theorem Carries.refl (regular : s.Regular) : s.Carries s where
  regular := regular
  lasts _ t there := ⟨t, there, rfl⟩

theorem Carries.trans {last : Store} (first : before.Carries after) (second : after.Carries last) :
    before.Carries last where
  regular := second.regular
  lasts id t there := by
    obtain ⟨t', there', count⟩ := first.lasts id t there
    obtain ⟨t'', there'', count'⟩ := second.lasts id t' there'
    exact ⟨t'', there'', count'.trans count⟩

theorem Adds.carries {contents : List Content} {ids : List TensorId}
    (adds : Adds contents before ids after) (regular : before.Regular)
    (new : ∀ c ∈ contents, c.Regular) : before.Carries after where
  regular id t there := by
    rcases adds.others id t there with old | ⟨member, none⟩
    · exact regular id t old
    · exact ⟨new _ member, fun g there' => by rw [none] at there'; cases there'⟩
  lasts id t there := ⟨t, adds.kept id t there, rfl⟩

section

variable (regular : s.Regular)
include regular

/-- A tensor changed to one that follows it. -/
theorem carries_update (id : TensorId) {f : Tensor → Tensor}
    (follows : ∀ t, s.get? id = some t → t.Follows (f t)) : s.Carries (s.update id f) where
  regular other t there := by
    rw [get?_update] at there
    split at there
    next same =>
      obtain ⟨old, found, rfl⟩ := Option.map_eq_some_iff.mp there
      exact (follows old (same ▸ found)).regular
    · exact regular other t there
  lasts other t there := by
    rw [get?_update, there]
    split
    next same => exact ⟨f t, rfl, (follows t (same ▸ there)).count⟩
    · exact ⟨t, rfl, rfl⟩

/-- A tensor replaced by one that follows it. -/
theorem carries_put {id : TensorId} {t t' : Tensor} (there : s.get? id = some t)
    (follows : t.Follows t') : s.Carries (s.put id t') where
  regular other t'' there'' := by
    by_cases same : id = other
    · subst same
      rw [get?_put s t' (index_lt_of_get? there)] at there''
      cases there''
      exact follows.regular
    · rw [get?_put_of_ne s t' same] at there''
      exact regular other t'' there''
  lasts other old found := by
    by_cases same : id = other
    · subst same
      cases there.symm.trans found
      exact ⟨t', get?_put s t' (index_lt_of_get? there), follows.count⟩
    · exact ⟨old, (get?_put_of_ne s t' same).trans found, rfl⟩

theorem carries_mapValues (id : TensorId) {f : Buffer → Buffer}
    (size : ∀ t, s.get? id = some t → (f t.values).size = t.values.size) :
    s.Carries (s.mapValues id f) := by
  have updated := s.carries_update regular id fun t there =>
    (regular id t there).follows_values (size t there) ⟨s.buffers⟩
  exact ⟨updated.regular, updated.lasts⟩

theorem carries_dropGradient (id : TensorId) : s.Carries (s.dropGradient id) :=
  s.carries_update regular id fun t there =>
    ⟨⟨(regular id t there).content, fun _ none => nomatch none⟩, rfl⟩

theorem carries_fill (id : TensorId) (value : Float32) : s.Carries (s.fill id value) :=
  s.carries_mapValues regular id fun t _ => Buffer.size_filled t.values.size value

end

/-- Changes one after the other. -/
theorem carries_foldl {α : Type} {f : Store → α → Store}
    (each : ∀ (s : Store) (a : α), s.Regular → s.Carries (f s a)) (regular : s.Regular)
    (xs : List α) : s.Carries (xs.foldl f s) := by
  induction xs generalizing s with
  | nil => exact .refl regular
  | cons x xs ih => exact (each s x regular).trans (ih (each s x regular).regular)

end Store

theorem Layer.carries_fillBias {s : Store} (regular : s.Regular) (layer : Layer) (value : Float32) :
    s.Carries (layer.fillBias value s) := by
  unfold fillBias
  split
  · exact s.carries_fill regular _ value
  · exact .refl regular

/-! ## Replays -/

namespace Session

variable {s s' : Store}

theorem carries_addDeltas {amounts : List (TensorId × Delta)} (regular : s.Regular)
    (run : addDeltas s amounts = .ok s') : s.Carries s' := by
  induction amounts generalizing s with
  | nil =>
    cases run
    exact .refl regular
  | cons amount amounts ih =>
    obtain ⟨t, found, run⟩ := Outcome.bind_eq_ok_iff.mp run
    obtain ⟨t', added, run⟩ := Outcome.bind_eq_ok_iff.mp run
    have there := Outcome.get_eq_ok_iff.mp found
    have first := s.carries_put regular there ((regular _ t there).follows_add added)
    exact first.trans (ih first.regular run)

/-- A replay, whatever the rule of the entry answers. -/
theorem carries_replay {e : Entry} (regular : s.Regular) (run : replay s e = .ok s') :
    s.Carries s' := by
  obtain ⟨shown, -, run⟩ := Outcome.bind_eq_ok_iff.mp run
  obtain ⟨deltas, -, run⟩ := Outcome.bind_eq_ok_iff.mp run
  have allocated := Store.carries_foldl (f := fun s id => s.update id Tensor.allocate)
    (fun s id regular => s.carries_update regular id fun t there =>
      (regular id t there).follows_gradient (regular id t there).size_gradientOrZeros)
    regular e.outputs
  exact allocated.trans (carries_addDeltas allocated.regular run)

end Session

/-! ## Gradient descent -/

/-- The velocity is as large as the parameter. -/
def Slot.Fits (s : Store) (slot : Slot) : Prop :=
  ∀ v : Buffer, slot.velocity = some v → ∃ t, s.get? slot.parameter = some t ∧ v.size = t.count

theorem Slot.Fits.carried {s s' : Store} {slot : Slot} (fits : slot.Fits s)
    (carries : s.Carries s') : slot.Fits s' := by
  intro v there
  obtain ⟨t, tensor, size⟩ := fits v there
  obtain ⟨t', tensor', count⟩ := carries.lasts _ t tensor
  exact ⟨t', tensor', size.trans count.symm⟩

/-- Moving one parameter, whether it stays finite or not. -/
theorem Slot.carries_step {s : Store} {slot : Slot} (regular : s.Regular) (fits : slot.Fits s)
    (rate momentum : Float32) : s.Carries (slot.step rate momentum s).2.2
      ∧ (slot.step rate momentum s).2.1.Fits (slot.step rate momentum s).2.2 := by
  unfold step
  split
  · exact ⟨.refl regular, fits⟩
  next t there =>
    split
    · exact ⟨.refl regular, fits⟩
    next g gradient =>
      have size : g.size = t.count :=
        ((regular _ t there).gradient g gradient).trans (regular _ t there).count.symm
      have moved : (slot.update momentum g).1.size = t.count
          ∧ (slot.update momentum g).2.parameter = slot.parameter
          ∧ (slot.update momentum g).2.Fits s := by
        unfold update
        split
        · exact ⟨size, rfl, fits⟩
        · have before : (slot.velocity.getD (Buffer.zeros g.size)).size = t.count := by
            cases velocity : slot.velocity with
            | none => exact (Buffer.size_zeros g.size).trans size
            | some v =>
              obtain ⟨t', there', same⟩ := fits v velocity
              cases there.symm.trans there'
              exact same
          have after : (Buffer.combine (fun v g => momentum * v + g)
              (slot.velocity.getD (Buffer.zeros g.size)) g).size = t.count := by
            rw [Buffer.size_combine, before, size, Nat.min_self]
          exact ⟨after, rfl, fun v same => ⟨t, there, Option.some.inj same ▸ after⟩⟩
      obtain ⟨moved, parameter, fits'⟩ := moved
      have carries := s.carries_mapValues regular (slot.update momentum g).2.parameter
        (f := fun values =>
          Buffer.combine (fun p u => p - rate * u) values (slot.update momentum g).1)
        fun t' there' => by
          rw [parameter] at there'
          cases there.symm.trans there'
          rw [Buffer.size_combine, moved]
          exact Nat.min_self _
      exact ⟨carries, fits'.carried carries⟩

namespace Optimizer

/-- Every velocity is as large as its parameter. -/
def Fits (s : Store) (o : Optimizer) : Prop := ∀ slot ∈ o.slots, slot.Fits s

theorem Fits.carried {s s' : Store} {o : Optimizer} (fits : o.Fits s) (carries : s.Carries s') :
    o.Fits s' :=
  fun slot member => (fits slot member).carried carries

theorem fits_atRest {parameters : List TensorId} {rate momentum : Float32} {o : Optimizer}
    (success : atRest parameters rate momentum = .ok o) (s : Store) : o.Fits s := by
  unfold atRest at success
  split at success
  · cases success
    intro slot member v there
    obtain ⟨p, -, rfl⟩ := List.mem_map.mp member
    cases there
  · cases success

theorem carries_stepSlots {slots : List Slot} {s : Store} (regular : s.Regular)
    (fits : ∀ slot ∈ slots, slot.Fits s) (rate momentum : Float32) :
    s.Carries (stepSlots rate momentum slots s).2.2
      ∧ ∀ slot ∈ (stepSlots rate momentum slots s).2.1,
        slot.Fits (stepSlots rate momentum slots s).2.2 := by
  induction slots generalizing s with
  | nil => exact ⟨.refl regular, fits⟩
  | cons slot slots ih =>
    obtain ⟨first, others⟩ := List.forall_mem_cons.mp fits
    obtain ⟨carries, fits'⟩ := Slot.carries_step regular first rate momentum
    unfold stepSlots
    generalize slot.step rate momentum s = moved at carries fits'
    obtain ⟨result, slot', s'⟩ := moved
    have others := fun other member => (others other member).carried carries
    cases result with
    | error failure => exact ⟨carries, List.forall_mem_cons.mpr ⟨fits', others⟩⟩
    | ok _ =>
      obtain ⟨rest, fits''⟩ := ih carries.regular others
      exact ⟨carries.trans rest, List.forall_mem_cons.mpr ⟨fits'.carried rest, fits''⟩⟩

/-- A step, whether it succeeds or stops at some parameter. -/
theorem carries_step {o : Optimizer} {s : Store} (regular : s.Regular) (fits : o.Fits s) :
    s.Carries (o.step s).2.2 ∧ (o.step s).2.1.Fits (o.step s).2.2 :=
  carries_stepSlots regular fits o.rate o.momentum

theorem carries_dropGradients {s : Store} (regular : s.Regular) (o : Optimizer) :
    s.Carries (o.dropGradients s) :=
  Store.carries_foldl (fun s slot regular => s.carries_dropGradient regular slot.parameter) regular
    o.slots

end Optimizer

end LayerNet
