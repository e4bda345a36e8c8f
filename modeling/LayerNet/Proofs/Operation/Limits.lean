import LayerNet.Proofs.Coordinates
import LayerNet.Proofs.Operation.Stacks
import LayerNet.Proofs.Store.Regular

/-!
# Limits — which arguments end the run

The shapes, sizes and offsets of an operation are the caller's, and most of what is wrong with them
is an error. But the elements of a new shape are counted before they are compared with those of the
tensor, and so are the sizes of a split: where the count leaves the machine word the run ends. For a
regular tensor with finite elements, this module tells what each operation does with any arguments.

* A reshape, as an operation or in place, ends the run exactly when the shape is valid and has too
  many elements to count (`Content.reshaped_cases`, `Content.reshape_cases`).
* A split by sizes ends it exactly when the axis is there, no size is zero and their sum does not fit
  (`Content.split_cases`).
* A slice, and what adds, removes or unstacks an axis, gives a value or an error whatever the
  arguments (`Outcome.Answers`).
-/

namespace LayerNet

/-- The computation gives a value or an error and does not end the run. -/
def Outcome.Answers {ε α : Type} (x : Outcome ε α) : Prop :=
  (∃ a, x = .ok a) ∨ ∃ cause, x = Outcome.fail cause

namespace Outcome.Answers

variable {ε α β : Type}

theorem ok (a : α) : Answers (.ok a : Outcome ε α) := .inl ⟨a, rfl⟩

theorem fail (cause : ε) : Answers (Outcome.fail cause : Outcome ε α) := .inr ⟨cause, rfl⟩

theorem bind {x : Outcome ε α} {f : α → Outcome ε β} (first : x.Answers)
    (second : ∀ a, x = .ok a → (f a).Answers) : (x >>= f).Answers := by
  rcases first with ⟨a, value⟩ | ⟨cause, refused⟩
  · rw [value]
    exact second a value
  · rw [refused]
    exact fail cause

theorem map {x : Outcome ε α} {f : α → β} (first : x.Answers) : (f <$> x).Answers := by
  rcases first with ⟨a, value⟩ | ⟨cause, refused⟩
  · exact .inl ⟨f a, by rw [value]; rfl⟩
  · exact .inr ⟨cause, by rw [refused]; rfl⟩

end Outcome.Answers

/-- Factors that are no larger than others can be multiplied where these can, even when some of
them are zero. -/
theorem Size.product_of_forall₂_le {ε : Type} {ms ns : List Nat} (le : List.Forall₂ (· ≤ ·) ms ns)
    {n : Nat} (fits : (product ns : Outcome ε Nat) = .ok n) :
    (product ms : Outcome ε Nat) = .ok ms.prod := by
  have onward (start start' : Nat) (below : start' ≤ start)
      (fits : (ns.foldlM mul start : Outcome ε Nat) = .ok n) :
      (ms.foldlM mul start' : Outcome ε Nat) = .ok (start' * ms.prod) := by
    clear * - le below fits
    induction le generalizing start start' with
    | nil =>
      rw [List.prod_nil, Nat.mul_one]
      rfl
    | @cons k l ms ns first _ ih =>
      obtain ⟨next, multiplied, fits⟩ := Outcome.bind_eq_ok_iff.mp fits
      have small := check_lt multiplied
      have same : next = start * l := by
        unfold mul check at multiplied
        split at multiplied
        · exact (Except.ok.inj multiplied).symm
        · cases multiplied
      have below' : start' * k ≤ next := same ▸ Nat.mul_le_mul below first
      rw [List.foldlM_cons, List.prod_cons, ← Nat.mul_assoc,
        mul_of_lt (Nat.lt_of_le_of_lt below' small)]
      exact ih next (start' * k) below' fits
  have all := onward 1 1 (Nat.le_refl 1) fits
  rwa [Nat.one_mul] at all

/-- A box that lies inside a shape is no longer on any axis. -/
theorem Box.forall₂_le_of_fits {offsets sizes : List Nat} {shape : Shape}
    (inside : Box.fits offsets sizes shape = true) : List.Forall₂ (· ≤ ·) sizes shape := by
  simp only [Box.fits, Bool.and_eq_true, beq_iff_eq, List.all_eq_true, decide_eq_true_eq] at inside
  obtain ⟨⟨rank, rank'⟩, corners⟩ := inside
  refine List.forall₂_iff_get.mpr ⟨rank', fun i small small' => ?_⟩
  have lengths : i < offsets.length := by
    rw [rank]
    exact small'
  have corner := corners (offsets[i], sizes[i], shape[i]) (by
    rw [List.mem_iff_getElem]
    exact ⟨i, by simp [lengths, small, small'], by simp⟩)
  exact Nat.le_trans (Nat.le_add_left _ _) corner

namespace Shape

/-- An axis number is accepted or refused. -/
theorem axis_answers (number : Int) (bound : Nat) (operation : String) :
    (axis number bound operation).Answers := by
  unfold axis
  split
  · exact .fail _
  · split
    · exact .fail _
    · exact .ok _

end Shape

namespace Content

variable {x : Content} (regular : x.Regular) (finite : x.values.nonFinite? = none)

theorem Regular.count_lt (regular : x.Regular) : x.count < Size.limit :=
  (regular_iff.mp regular).2

/-! ## Views -/

/-- A shape that is compared with a number of elements is refused, cannot be counted, or has so many
elements. -/
theorem counted_cases {α : Type} (shape : Shape) (count : Nat) (refusal : TensorError)
    (rest : Checked α) :
    let counted : Checked α := do
      shape.validate
      if (← shape.elements) ≠ count then Outcome.fail refusal else rest
    (¬ shape.IsValid → counted = Outcome.fail (.invalidShape shape))
      ∧ (shape.IsValid → Size.limit ≤ shape.prod → counted = Outcome.stop .overflow)
      ∧ (shape.IsValid → shape.prod < Size.limit → shape.prod ≠ count →
        counted = Outcome.fail refusal)
      ∧ (shape.IsValid → shape.prod < Size.limit → shape.prod = count → counted = rest) := by
  intro counted
  refine ⟨fun invalid => ?_, fun valid large => ?_, fun valid small other => ?_,
    fun valid small same => ?_⟩
  · have refused : shape.validate = Outcome.fail (.invalidShape shape) := if_neg invalid
    simp only [counted, refused]
    rfl
  · have uncounted : shape.elements = Outcome.stop .overflow := Size.product_of_le large
    simp only [counted, (Shape.validate_eq_ok_iff shape).mpr valid, uncounted]
    rfl
  · have elements : shape.elements = .ok shape.prod := Size.product_of_lt valid.2 small
    simp only [counted, (Shape.validate_eq_ok_iff shape).mpr valid, elements]
    exact if_pos other
  · have elements : shape.elements = .ok shape.prod := Size.product_of_lt valid.2 small
    simp only [counted, (Shape.validate_eq_ok_iff shape).mpr valid, elements]
    exact if_neg fun other => other same

section

include regular finite

/-- A valid shape of as many elements is viewed. -/
theorem view_of_regular {shape : Shape} (valid : shape.IsValid) (count : shape.prod = x.count) :
    ∃ c, x.view shape = .ok c ∧ c.outputs.map Content.shape = [shape] := by
  obtain ⟨y, made⟩ := make_of_finite valid count.symm (count ▸ regular.count_lt) finite
  refine ⟨⟨[y], Routing.identity.rule, true⟩, ?_, ?_⟩
  · rw [view_eq valid count regular.count_lt, made]
    rfl
  · rw [List.map_singleton, (of_make_eq_ok made).1]

/-- A reshape refuses shapes that are not valid and shapes of another number of elements, and ends
the run where the elements cannot be counted. -/
theorem reshaped_cases (shape : Shape) :
    (¬ shape.IsValid → x.reshaped shape = Outcome.fail (.invalidShape shape))
      ∧ (shape.IsValid → Size.limit ≤ shape.prod → x.reshaped shape = Outcome.stop .overflow)
      ∧ (shape.IsValid → shape.prod < Size.limit → shape.prod ≠ x.count →
        x.reshaped shape = Outcome.fail (.shapeMismatch x.shape shape "reshape"))
      ∧ (shape.IsValid → shape.prod = x.count →
        ∃ c, x.reshaped shape = .ok c ∧ c.outputs.map Content.shape = [shape]) := by
  obtain ⟨invalid, large, other, same⟩ := counted_cases shape x.count
    (.shapeMismatch x.shape shape "reshape") (x.view shape)
  refine ⟨invalid, large, other, fun valid count => ?_⟩
  obtain ⟨c, viewed, shapes⟩ := view_of_regular regular finite valid count
  exact ⟨c, (same valid (count ▸ regular.count_lt) count).trans viewed, shapes⟩

omit finite in
/-- So does a reshape in place. -/
theorem reshape_cases (shape : Shape) :
    (¬ shape.IsValid → x.reshape shape = Outcome.fail (.invalidShape shape))
      ∧ (shape.IsValid → Size.limit ≤ shape.prod → x.reshape shape = Outcome.stop .overflow)
      ∧ (shape.IsValid → shape.prod < Size.limit → shape.prod ≠ x.count →
        x.reshape shape = Outcome.fail (.shapeMismatch x.shape shape "reshape"))
      ∧ (shape.IsValid → shape.prod = x.count →
        ∃ c, x.reshape shape = .ok c ∧ c.shape = shape ∧ c.values = x.values) := by
  obtain ⟨invalid, large, other, same⟩ := counted_cases shape x.count
    (.shapeMismatch x.shape shape "reshape")
    (do return { x with shape, strides := ← shape.strides } : Checked Content)
  refine ⟨invalid, large, other, fun valid count => ?_⟩
  have small : shape.prod < Size.limit := count ▸ regular.count_lt
  obtain ⟨strides, stepped⟩ := Shape.strides_of_lt valid.2 small
  refine ⟨{ x with shape, strides }, (same valid small count).trans ?_, rfl, rfl⟩
  rw [stepped]
  rfl

/-- A view without an axis is made or refused. -/
theorem squeeze_answers (axis : Int) : (x.squeeze axis).Answers := by
  refine (Shape.axis_answers _ _ _).bind fun a found => ?_
  obtain ⟨-, inside⟩ := Shape.axis_eq_ok_iff.mp found
  dsimp only
  split
  · exact .fail _
  next unit =>
    split
    · exact .fail _
    next rank =>
      have inside : a < x.shape.length := inside
      have length : x.shape[a] = 1 := by
        rw [← Shape.extent_of_getElem? (List.getElem?_eq_getElem inside)]
        exact Classical.not_not.mp unit
      have count : (x.shape.eraseIdx a).prod = x.count := by
        rw [regular.wellFormed.count, ← List.mul_prod_eraseIdx inside fun _ _ => Commute.all _ _,
          length, Nat.one_mul]
      obtain ⟨c, viewed, -⟩ := view_of_regular regular finite
        (regular.wellFormed.valid.eraseIdx (Nat.not_lt.mp rank)) count
      exact .inl ⟨c, viewed⟩

/-- A view with a new axis is made or refused. -/
theorem expand_answers (axis : Int) : (x.expand axis).Answers := by
  refine (Shape.axis_answers _ _ _).bind fun a found => ?_
  obtain ⟨-, inside⟩ := Shape.axis_eq_ok_iff.mp found
  have inside : a ≤ x.shape.length := Nat.le_of_lt_succ inside
  have count : (x.shape.insertIdx a 1).prod = x.count := by
    rw [Shape.prod_insertIdx inside, Nat.one_mul, regular.wellFormed.count]
  obtain ⟨c, viewed, -⟩ := view_of_regular regular finite
    (regular.wellFormed.valid.insertIdx inside Nat.one_pos) count
  exact .inl ⟨c, viewed⟩

/-! ## Parts -/

/-- The members along an axis are taken apart, or the axis is refused. -/
theorem unstack_answers (axis : Int) : (x.unstack axis).Answers := by
  by_cases inside : ∃ a : Nat, axis = a ∧ a < x.shape.rank
  · obtain ⟨a, rfl, inside⟩ := inside
    by_cases rank : 2 ≤ x.shape.rank
    · exact .inl ((unstack_cases regular.wellFormed regular.count_lt inside rank).1 finite)
    · refine .inr ⟨.rankTooLow x.shape "unstack", ?_⟩
      unfold unstack
      rw [Shape.axis_eq_ok inside]
      exact if_pos (Nat.not_le.mp rank)
  · refine (Shape.axis_answers _ _ _).bind fun a found => ?_
    exact absurd ⟨a, Shape.axis_eq_ok_iff.mp found⟩ inside

/-- A split into parts that the axis admits is made. -/
theorem split_of_admits {axis : Nat} (inside : axis < x.shape.rank) {partition : Partition}
    (admits : partition.Admits (x.shape.extent axis)) :
    ∃ c, x.split axis partition = .ok c ∧ c.outputs.map Content.shape
      = (partition.parts (x.shape.extent axis)).map (x.shape.set axis ·) := by
  obtain ⟨blocks, parted, splits⟩ :=
    exists_parted regular.wellFormed regular.count_lt inside admits
  obtain ⟨c, success⟩ := Routing.compute_of_finite parted.exact parted.valid parted.small
    (List.forall_mem_singleton.mpr finite)
  exact ⟨c, splits.trans success, Routing.shapes_of_compute success⟩

omit regular finite in
/-- A split that finds no lengths for the parts ends for the same reason. -/
theorem split_of_lengths {axis : Nat} (inside : axis < x.shape.rank) {partition : Partition}
    {failure : Failure TensorError} (fails : partition.lengths x.shape axis = .error failure) :
    x.split axis partition = .error failure := by
  rw [split, Shape.axis_eq_ok inside]
  dsimp only [bind, Except.bind]
  rw [fails]

/-- A split by sizes refuses none and zero, ends the run where the sizes cannot be added, refuses
another sum than the length of the axis, and otherwise gives parts of these sizes. -/
theorem split_cases {axis : Nat} (inside : axis < x.shape.rank) (sizes : List Nat) :
    (sizes = [] ∨ 0 ∈ sizes →
        x.split axis (.sizes sizes) = Outcome.fail (.invalidShape (x.shape.set axis 0)))
      ∧ (sizes ≠ [] → 0 ∉ sizes → Size.limit ≤ Size.total sizes →
        x.split axis (.sizes sizes) = Outcome.stop .overflow)
      ∧ (sizes ≠ [] → 0 ∉ sizes → Size.total sizes < Size.limit →
        Size.total sizes ≠ x.shape.extent axis → x.split axis (.sizes sizes)
          = Outcome.fail (.shapeMismatch [x.shape.extent axis] sizes "split"))
      ∧ (sizes ≠ [] → 0 ∉ sizes → Size.total sizes = x.shape.extent axis →
        ∃ c, x.split axis (.sizes sizes) = .ok c
          ∧ c.outputs.map Content.shape = sizes.map (x.shape.set axis ·)) := by
  have counted (some : sizes ≠ []) (inhabited : 0 ∉ sizes) :
      (Partition.sizes sizes).lengths x.shape axis = (do
        if (← Size.sum sizes) ≠ x.shape.extent axis then
          Outcome.fail (.shapeMismatch [x.shape.extent axis] sizes "split")
        else return sizes) := if_neg (not_or.mpr ⟨some, inhabited⟩)
  refine ⟨fun bad => split_of_lengths inside (if_pos bad),
    fun some inhabited large => split_of_lengths inside ?_,
    fun some inhabited small other => split_of_lengths inside ?_, fun some inhabited same => ?_⟩
  · rw [counted some inhabited, Size.sum_of_le large]
    rfl
  · rw [counted some inhabited, Size.sum_of_lt small]
    exact if_pos other
  · exact split_of_admits regular finite inside ⟨some, inhabited, same⟩

/-- A split into equal parts is made, or the count or the axis is refused. -/
theorem split_equal_answers (axis : Int) (count : Nat) : (x.split axis (.equal count)).Answers := by
  by_cases inside : ∃ a : Nat, axis = a ∧ a < x.shape.rank
  · obtain ⟨a, rfl, inside⟩ := inside
    by_cases uneven : count = 0 ∨ x.shape.extent a % count ≠ 0
    · exact .inr ⟨.indivisibleSplit (x.shape.extent a) count "split",
        split_of_lengths inside (if_pos uneven)⟩
    · rw [not_or, not_not] at uneven
      have admits : (Partition.equal count).Admits (x.shape.extent a) :=
        ⟨Nat.pos_of_ne_zero uneven.1, Nat.dvd_of_mod_eq_zero uneven.2⟩
      obtain ⟨c, success, -⟩ := split_of_admits regular finite inside admits
      exact .inl ⟨c, success⟩
  · refine (Shape.axis_answers _ _ _).bind fun a found => ?_
    exact absurd ⟨a, Shape.axis_eq_ok_iff.mp found⟩ inside

/-- A box is taken out, or refused where it does not lie inside or is empty. -/
theorem slice_answers (offsets sizes : List Nat) : (x.slice offsets sizes).Answers := by
  unfold slice
  split
  · exact .fail _
  next inside =>
    have inside : Box.fits offsets sizes x.shape = true := by simpa using inside
    have wf := regular.wellFormed
    have le := Box.forall₂_le_of_fits inside
    have whole : x.shape.elements = .ok x.shape.prod := Size.product_of_lt wf.valid.2 regular.fits
    have elements : Shape.elements sizes = .ok (List.prod sizes) :=
      Size.product_of_forall₂_le le whole
    rw [elements]
    by_cases inhabited : 0 ∈ sizes
    · -- an empty box has no origins, and is no valid shape
      have none : List.prod sizes = 0 := List.prod_eq_zero_iff.mpr inhabited
      have refused : Shape.validate sizes = Outcome.fail (.invalidShape sizes) :=
        if_neg fun valid => valid.2 inhabited
      refine .inr ⟨.invalidShape sizes, ?_⟩
      rw [none]
      show (Content.make #[] sizes >>= _) = _
      rw [make, refused]
      rfl
    · obtain ⟨place, run, below, -⟩ := Box.exists_origin wf inside inhabited
      have valid : Shape.IsValid sizes := by
        refine ⟨fun empty => wf.valid.1 ?_, inhabited⟩
        rw [empty] at le
        exact List.forall₂_nil_left_iff.mp le
      have small : List.prod sizes < Size.limit := Size.product_lt elements
      have values : (((List.range (List.prod sizes)).map place).map x.values.element).toArray
          = Buffer.tabulate (List.prod sizes) fun i => x.values.element (place i) := by
        rw [List.map_map, Buffer.tabulate, ← List.toArray_range, List.map_toArray]
        rfl
      have taken : (Buffer.tabulate (List.prod sizes) fun i =>
          x.values.element (place i)).nonFinite? = none := by
        refine Buffer.nonFinite?_eq_none_iff.mpr fun i within => ?_
        rw [Buffer.size_tabulate] at within
        rw [Buffer.element_tabulate _ within]
        exact Buffer.nonFinite?_eq_none_iff.mp finite (place i) (below i)
      obtain ⟨output, made⟩ := make_of_finite valid (Buffer.size_tabulate _ _) small taken
      refine Outcome.Answers.bind (.ok _) fun count counted => ?_
      cases counted
      rw [run]
      refine Outcome.Answers.bind (.ok _) fun origins boxed => ?_
      cases boxed
      rw [values, made]
      exact .ok _

/-- Every tensor can be given a shape, and sizes of a split, with which the run ends. -/
theorem exists_overflow : (∃ shape, x.reshaped shape = Outcome.stop .overflow
      ∧ x.reshape shape = Outcome.stop .overflow)
    ∧ ∃ sizes, x.split (0 : Nat) (.sizes sizes) = Outcome.stop .overflow := by
  have square : Shape.IsValid [4294967296, 4294967296] := by decide
  have large : Size.limit ≤ List.prod [4294967296, 4294967296] := by decide
  refine ⟨⟨_, (reshaped_cases regular finite _).2.1 square large,
    (reshape_cases regular _).2.1 square large⟩, [18446744073709551615, 3], ?_⟩
  have inside : 0 < x.shape.rank := List.length_pos_iff.mpr regular.rank
  exact (split_cases regular finite inside _).2.1 (by decide) (by decide) (by decide)

end

/-! ## Stacks -/

/-- Tensors are stacked or refused, if the elements of the stack can be counted. -/
theorem stack_answers {xs : List Content} (regular : ∀ x ∈ xs, x.Regular)
    (finite : ∀ x ∈ xs, x.values.nonFinite? = none)
    (small : ∀ x ∈ xs, xs.length * x.count < Size.limit) (axis : Int) :
    (stack xs axis).Answers := by
  cases xs with
  | nil => exact .fail _
  | cons first rest =>
    by_cases alike : ∀ x ∈ first :: rest, x.shape = first.shape
    · by_cases inside : ∃ a : Nat, axis = a ∧ a < first.shape.rank + 1
      · obtain ⟨a, rfl, inside⟩ := inside
        have counted := regular first List.mem_cons_self
        have wf := counted.wellFormed
        have fits := small first List.mem_cons_self
        rw [wf.count] at fits
        obtain ⟨c, success, -⟩ := (stack_cases (List.cons_ne_nil _ _) (Nat.le_of_lt_succ inside)
          wf.valid.2 counted.fits (fun x member => (regular x member).wellFormed) alike).1
            ⟨finite, fits⟩
        exact .inl ⟨c, success⟩
      · refine (Shape.axis_answers _ _ _).bind fun a found => ?_
        exact absurd ⟨a, Shape.axis_eq_ok_iff.mp found⟩ inside
    · refine (Shape.axis_answers _ _ _).bind fun a _ => ?_
      cases odd : rest.find? fun x => x.shape ≠ first.shape with
      | some other => exact .fail _
      | none =>
        rw [List.find?_eq_none] at odd
        refine (alike fun x member => ?_).elim
        rcases List.mem_cons.mp member with rfl | member
        · rfl
        · simpa using odd x member

end Content

end LayerNet
