import LayerNet.Proofs.Operation.Exact
import Mathlib.Algebra.BigOperators.Group.List.Lemmas
import Mathlib.Algebra.BigOperators.Ring.List
import Mathlib.Algebra.Ring.Nat

/-!
# Parting — splitting and joining undo each other

What an exact routing moved is moved back by the routing backwards
(`Computed.MovedBy.compute_back`).
A split of what was joined, into the lengths that the parts had, is the joining backwards, and so is
a joining of what was split. So each gives back the contents that there were
(`Content.split_concat`, `Content.concat_split`).

That the second of the two succeeds at all is seen from the sizes: axes that are not empty and have
fewer elements than the limit in all leave no product of lengths out of range, and the elements that
are moved are finite since they were before. A split itself can only be stopped by elements that are
not finite.
-/

namespace LayerNet

/-! ## Sizes that fit, and sizes that do not -/

namespace Size

variable {ε : Type}

/-- Positive factors whose product fits can be multiplied. -/
theorem product_of_lt {ns : List Nat} (positive : 0 ∉ ns) (small : ns.prod < limit) :
    (product ns : Outcome ε Nat) = .ok ns.prod := by
  have onward (start : Nat) (small : start * ns.prod < limit) :
      (ns.foldlM mul start : Outcome ε Nat) = .ok (start * ns.prod) := by
    clear * - positive small
    induction ns generalizing start with
    | nil =>
      rw [List.prod_nil, Nat.mul_one]
      rfl
    | cons n ns ih =>
      rw [List.mem_cons, not_or] at positive
      rw [List.prod_cons, ← Nat.mul_assoc] at small ⊢
      have rest : 0 < ns.prod := Nat.pos_of_ne_zero (List.prod_ne_zero positive.2)
      have next : start * n < limit := Nat.lt_of_le_of_lt (Nat.le_mul_of_pos_right _ rest) small
      rw [List.foldlM_cons, mul_of_lt next]
      exact ih positive.2 _ small
  have all := onward 1 (by rwa [Nat.one_mul])
  rwa [Nat.one_mul] at all

/-- Numbers whose sum fits can be added. -/
theorem sum_of_lt {ns : List Nat} (small : total ns < limit) :
    (sum ns : Outcome ε Nat) = .ok (total ns) := by
  have onward (start : Nat) (small : start + total ns < limit) :
      (ns.foldlM add start : Outcome ε Nat) = .ok (start + total ns) := by
    clear * - small
    induction ns generalizing start with
    | nil => rfl
    | cons n ns ih =>
      rw [total, ← Nat.add_assoc] at small ⊢
      rw [List.foldlM_cons, add_of_lt (by omega)]
      exact ih _ small
  have all := onward 0 (by rwa [Nat.zero_add])
  rwa [Nat.zero_add] at all

/-- Factors whose product does not fit cannot be multiplied. -/
theorem product_of_le {ns : List Nat} (large : limit ≤ ns.prod) :
    (product ns : Outcome ε Nat) = Outcome.stop .overflow := by
  have onward (start : Nat) (small : start < limit) (large : limit ≤ start * ns.prod) :
      (ns.foldlM mul start : Outcome ε Nat) = Outcome.stop .overflow := by
    clear * - small large
    induction ns generalizing start with
    | nil =>
      rw [List.prod_nil, Nat.mul_one] at large
      exact absurd small (Nat.not_lt.mpr large)
    | cons n ns ih =>
      rw [List.prod_cons, ← Nat.mul_assoc] at large
      rw [List.foldlM_cons]
      by_cases next : start * n < limit
      · rw [mul_of_lt next]
        exact ih _ next large
      · rw [mul, check, if_neg next]
        rfl
  exact onward 1 (by decide) (by rwa [Nat.one_mul])

/-- Numbers whose sum does not fit cannot be added. -/
theorem sum_of_le {ns : List Nat} (large : limit ≤ total ns) :
    (sum ns : Outcome ε Nat) = Outcome.stop .overflow := by
  have onward (start : Nat) (small : start < limit) (large : limit ≤ start + total ns) :
      (ns.foldlM add start : Outcome ε Nat) = Outcome.stop .overflow := by
    clear * - small large
    induction ns generalizing start with
    | nil => exact absurd small (Nat.not_lt.mpr large)
    | cons n ns ih =>
      rw [total, ← Nat.add_assoc] at large
      rw [List.foldlM_cons]
      by_cases next : start + n < limit
      · rw [add_of_lt next]
        exact ih _ next large
      · rw [add, check, if_neg next]
        rfl
  exact onward 0 (by decide) (by rwa [Nat.zero_add])

theorem check_lt {n m : Nat} (fits : (check n : Outcome ε Nat) = .ok m) : m < limit := by
  unfold check at fits
  split at fits
  next small =>
    cases fits
    exact small
  · cases fits

/-- A product that was computed fits. -/
theorem product_lt {ns : List Nat} {n : Nat} (fits : (product ns : Outcome ε Nat) = .ok n) :
    n < limit := by
  have onward (start : Nat) (small : start < limit)
      (fits : (ns.foldlM mul start : Outcome ε Nat) = .ok n) : n < limit := by
    clear * - small fits
    induction ns generalizing start with
    | nil =>
      cases fits
      exact small
    | cons k ns ih =>
      obtain ⟨next, first, rest⟩ := Outcome.bind_eq_ok_iff.mp fits
      exact ih next (check_lt first) rest
  exact onward 1 (by decide) fits

end Size

namespace Shape

variable {shape : Shape}

theorem strides_of_lt (inhabited : 0 ∉ shape) (small : shape.prod < Size.limit) :
    ∃ strides, shape.strides = .ok strides := by
  induction shape with
  | nil => exact ⟨_, rfl⟩
  | cons length rest ih =>
    rw [List.mem_cons, not_or] at inhabited
    have less : rest.prod ≤ (length :: rest).prod := by
      rw [List.prod_cons]
      exact Nat.le_mul_of_pos_left _ (Nat.pos_of_ne_zero (Ne.symm inhabited.1))
    have below : rest.prod < Size.limit := Nat.lt_of_le_of_lt less small
    obtain ⟨inner, behind⟩ := ih inhabited.2 below
    cases rest with
    | nil => exact ⟨_, rfl⟩
    | cons next rest =>
      obtain ⟨deeper, rfl, -⟩ := strides_cons behind
      rw [List.prod_cons, Nat.mul_comm] at below
      refine ⟨rest.prod * next :: rest.prod :: deeper, Outcome.bind_eq_ok_iff.mpr
        ⟨_, behind, Outcome.bind_eq_ok_iff.mpr ⟨_, Size.mul_of_lt below, rfl⟩⟩⟩

theorem prod_pos (inhabited : 0 ∉ shape) : 0 < shape.prod :=
  Nat.pos_of_ne_zero (List.prod_ne_zero inhabited)

/-- The blocks around an axis, where all elements can be counted. -/
theorem blocks_of_lt (inhabited : 0 ∉ shape) (small : shape.prod < Size.limit) {axis : Nat}
    (inside : axis < shape.rank) : ∃ blocks, shape.blocks axis = .ok blocks := by
  have inside : axis < shape.length := inside
  have before : 0 ∉ shape.take axis := fun member => inhabited (List.mem_of_mem_take member)
  have after : 0 ∉ shape.drop (axis + 1) := fun member => inhabited (List.mem_of_mem_drop member)
  have length : 0 < shape[axis] :=
    Nat.pos_of_ne_zero fun zero => inhabited (zero ▸ List.getElem_mem inside)
  have whole :
      shape.prod = (shape.take axis).prod * (shape[axis] * (shape.drop (axis + 1)).prod) := by
    rw [← List.prod_cons, ← List.drop_eq_getElem_cons inside, List.prod_take_mul_prod_drop]
  have outer : (shape.take axis).prod < Size.limit := by
    refine Nat.lt_of_le_of_lt ?_ (whole ▸ small)
    exact Nat.le_mul_of_pos_right _ (Nat.mul_pos length (prod_pos after))
  have inner : (shape.drop (axis + 1)).prod < Size.limit := by
    refine Nat.lt_of_le_of_lt ?_ (whole ▸ small)
    rw [← Nat.mul_assoc]
    exact Nat.le_mul_of_pos_left _ (Nat.mul_pos (prod_pos before) length)
  refine ⟨⟨(shape.take axis).prod, shape[axis], (shape.drop (axis + 1)).prod⟩, ?_⟩
  unfold blocks
  rw [List.getElem?_eq_getElem inside, Size.product_of_lt before outer,
    Size.product_of_lt after inner]
  rfl

/-- Another length of an axis leaves what is around it. -/
theorem blocks_set {axis : Nat} {blocks : Blocks} (around : shape.blocks axis = .ok blocks)
    (length : Nat) : Shape.blocks (shape.set axis length) axis
      = .ok ⟨blocks.outer, length, blocks.inner⟩ := by
  unfold Shape.blocks at around ⊢
  obtain ⟨old, found, around⟩ := Outcome.bind_eq_ok_iff.mp around
  obtain ⟨inside, -⟩ := List.getElem?_eq_some_iff.mp (Outcome.get_eq_ok_iff.mp found)
  obtain ⟨outer, before, around⟩ := Outcome.bind_eq_ok_iff.mp around
  obtain ⟨inner, after, around⟩ := Outcome.bind_eq_ok_iff.mp around
  cases around
  rw [List.getElem?_set_self inside, List.take_set_of_le (Nat.le_refl axis),
    List.drop_set_of_lt (Nat.lt_succ_self axis), before, after]
  rfl

end Shape

/-! ## Contents that can be made -/

namespace Content

/-- Where there is one element for each position and these can be counted, a content is made unless
an element is not finite. -/
theorem make_of_lt {values : Buffer} {shape : Shape} (valid : shape.IsValid)
    (size : values.size = shape.prod) (small : shape.prod < Size.limit) :
    (∃ c, make values shape = .ok c)
      ∨ (make values shape = Outcome.stop .nonFinite ∧ values.nonFinite? ≠ none) := by
  obtain ⟨strides, stepped⟩ := Shape.strides_of_lt valid.2 small
  have elements : shape.elements = .ok values.size := by
    rw [size]
    exact Size.product_of_lt valid.2 small
  unfold make
  rw [(Shape.validate_eq_ok_iff shape).mpr valid, elements, stepped]
  dsimp only [bind, Except.bind]
  rw [if_neg (fun different : values.size ≠ values.size => different rfl)]
  cases values.nonFinite? with
  | none => exact .inl ⟨_, rfl⟩
  | some i => exact .inr ⟨rfl, Option.some_ne_none i⟩

/-- A well-formed content of finite elements can be made of its own values. -/
theorem make_self {c : Content} (wf : c.WellFormed) (small : c.shape.prod < Size.limit)
    (finite : c.values.nonFinite? = none) : make c.values c.shape = .ok c := by
  rcases make_of_lt wf.valid wf.count small with ⟨c', made⟩ | ⟨-, infinite⟩
  · obtain ⟨shape, values, -⟩ := of_make_eq_ok made
    have strides : c'.strides = c.strides := by
      have stepped := (wellFormed_of_make made).strides
      rw [shape, wf.strides] at stepped
      exact (Except.ok.inj stepped).symm
    have same : c' = c := by
      cases c
      cases c'
      cases shape
      cases values
      cases strides
      rfl
    rw [made, same]
  · exact absurd finite infinite

end Content

/-- Elements that are among finite ones are finite. -/
theorem finite_of_fetch {xs ys : List Content} (finite : ∀ x ∈ xs, x.values.nonFinite? = none)
    (among : ∀ a ∈ places (ys.map Content.count), ∃ b ∈ places (xs.map Content.count),
      Routing.fetch (ys.map Content.values) a = Routing.fetch (xs.map Content.values) b) :
    ∀ y ∈ ys, y.values.nonFinite? = none := by
  intro y member
  refine Buffer.nonFinite?_eq_none_iff.mpr fun i small => ?_
  obtain ⟨p, there⟩ := List.getElem?_of_mem member
  have place : (p, i) ∈ places (ys.map Content.count) := by
    refine mem_places.mpr ⟨y.count, ?_, small⟩
    rw [List.getElem?_map, there]
    rfl
  obtain ⟨⟨q, j⟩, inside, same⟩ := among _ place
  obtain ⟨count, found, within⟩ := mem_places.mp inside
  rw [List.getElem?_map, Option.map_eq_some_iff] at found
  obtain ⟨x, found, rfl⟩ := found
  rw [Routing.fetch_of_getElem? there, Routing.fetch_of_getElem? found] at same
  rw [same]
  exact Buffer.nonFinite?_eq_none_iff.mp (finite x (List.mem_of_getElem? found)) j within

/-! ## Moving back -/

namespace Computed.MovedBy

variable {r : Routing} {inputs : List Content} {c : Computed} (moved : c.MovedBy r inputs)
include moved

theorem values_back {a : Nat × Nat} (member : a ∈ places (inputs.map Content.count)) :
    Routing.fetch (inputs.map Content.values) a
      = Routing.fetch (c.outputs.map Content.values) (r.goal a) := by
  obtain ⟨inside, back⟩ := moved.exact.goal a member
  rw [moved.values _ inside, back]

theorem back (isView : Bool) : (⟨inputs, r.reverse.rule, isView⟩ : Computed).MovedBy r.reverse
    c.outputs :=
  ⟨rfl, moved.exact.reverse, fun _ member => moved.values_back member⟩

theorem finite_inputs (finite : ∀ o ∈ c.outputs, o.values.nonFinite? = none) :
    ∀ x ∈ inputs, x.values.nonFinite? = none :=
  finite_of_fetch finite fun a member =>
    ⟨r.goal a, (moved.exact.goal a member).1, moved.values_back member⟩

/-- The routing backwards gives back what was moved. -/
theorem compute_back (wf : ∀ x ∈ inputs, x.WellFormed)
    (small : ∀ x ∈ inputs, x.shape.prod < Size.limit)
    (finite : ∀ o ∈ c.outputs, o.values.nonFinite? = none) :
    r.reverse.compute c.outputs (inputs.map Content.shape)
      = .ok ⟨inputs, r.reverse.rule, false⟩ := by
  have finite' := moved.finite_inputs finite
  refine Routing.compute_eq_ok_iff.mpr ⟨inputs, rfl, ?_⟩
  rw [List.zipIdx_map, List.forall₂_map_left_iff]
  have each : List.Forall₂ (fun (entry : Content × Nat) x => entry.1 = x) inputs.zipIdx inputs := by
    rw [← List.forall₂_map_left_iff (R := fun a b => a = b), List.zipIdx_map_fst,
      List.forall₂_eq_eq_eq]
  refine forall₂_imp_of_mem each ?_
  rintro ⟨x, p⟩ member _ rfl
  rw [List.mk_mem_zipIdx_iff_getElem?] at member
  have among := List.mem_of_getElem? member
  have gathered : Routing.gather (c.outputs.map Content.values) x.shape.prod (r.reverse.source p)
      = x.values := by
    rw [← (wf x among).count, Routing.gather_eq_tabulate]
    refine Array.ext (Buffer.size_tabulate _ _) fun i small within => ?_
    have inside : (p, i) ∈ places (inputs.map Content.count) := by
      refine mem_places.mpr ⟨x.count, ?_, within⟩
      rw [List.getElem?_map, member]
      rfl
    have same := moved.values_back inside
    rw [Routing.fetch_of_getElem? member] at same
    rw [← Buffer.element_of_lt small, ← Buffer.element_of_lt within, same]
    exact Buffer.element_tabulate _ within
  dsimp only [Prod.map]
  rw [id, gathered]
  exact Content.make_self (wf x among) (small x among) (finite' x among)

end Computed.MovedBy

/-! ## Splitting -/

/-- What an axis can be split into: parts that are not empty and take up its length. -/
def Partition.Admits (length : Nat) : Partition → Prop
  | .sizes lengths => lengths ≠ [] ∧ 0 ∉ lengths ∧ Size.total lengths = length
  | .equal count => 0 < count ∧ count ∣ length

/-- The lengths of the parts of an axis of the given length. -/
def Partition.parts (length : Nat) : Partition → List Nat
  | .sizes lengths => lengths
  | .equal count => List.replicate count (length / count)

/-- Lengths that take up an axis are accepted. -/
theorem Partition.lengths_sizes {lengths : List Nat} {shape : Shape} {axis : Nat}
    (some : lengths ≠ []) (inhabited : 0 ∉ lengths)
    (sum : (Size.sum lengths : Checked Nat) = .ok (shape.extent axis)) :
    (sizes lengths).lengths shape axis = .ok lengths := by
  unfold Partition.lengths
  dsimp only
  rw [if_neg (not_or.mpr ⟨some, inhabited⟩), sum]
  exact if_neg (Classical.not_not.mpr rfl)

theorem Partition.lengths_of_admits {partition : Partition} {shape : Shape} {axis : Nat}
    (admits : partition.Admits (shape.extent axis)) (positive : 0 < shape.extent axis)
    (small : shape.extent axis < Size.limit) :
    partition.lengths shape axis = .ok (partition.parts (shape.extent axis))
      ∧ partition.parts (shape.extent axis) ≠ [] ∧ 0 ∉ partition.parts (shape.extent axis) := by
  cases partition with
  | sizes lengths =>
    obtain ⟨some, inhabited, total⟩ := admits
    exact ⟨lengths_sizes some inhabited (total ▸ Size.sum_of_lt (total ▸ small)), some, inhabited⟩
  | equal count =>
    obtain ⟨some, even⟩ := admits
    have part : 0 < shape.extent axis / count :=
      Nat.div_pos (Nat.le_of_dvd positive even) some
    refine ⟨?_, ?_, ?_⟩
    · refine if_neg (not_or.mpr ⟨Nat.pos_iff_ne_zero.mp some, ?_⟩)
      exact Classical.not_not.mpr (Nat.mod_eq_zero_of_dvd even)
    · exact List.ne_nil_of_length_pos (by rwa [parts, List.length_replicate])
    · intro member
      exact Nat.lt_irrefl 0 (Nat.lt_of_lt_of_eq part (List.eq_of_mem_replicate member).symm)

theorem Routing.shapes_of_compute {r : Routing} {inputs : List Content} {shapes : List Shape}
    {c : Computed} (success : r.compute inputs shapes = .ok c) :
    c.outputs.map Content.shape = shapes := by
  obtain ⟨outputs, rfl, made⟩ := compute_eq_ok_iff.mp success
  rw [← List.zipIdx_map_fst 0 shapes, eq_comm, ← List.forall₂_eq_eq_eq,
    List.forall₂_map_left_iff, List.forall₂_map_right_iff]
  exact made.imp fun s o made => (Content.of_make_eq_ok made).1.symm

theorem Routing.finite_of_compute {r : Routing} {inputs : List Content} {shapes : List Shape}
    {c : Computed} (success : r.compute inputs shapes = .ok c) :
    ∀ o ∈ c.outputs, o.values.nonFinite? = none := by
  obtain ⟨outputs, rfl, made⟩ := compute_eq_ok_iff.mp success
  intro o member
  obtain ⟨p, there⟩ := List.getElem?_of_mem member
  obtain ⟨s, -, made⟩ := exists_rel_of_getElem? made.flip there
  obtain ⟨-, valued, -, -, finite⟩ := Content.of_make_eq_ok made
  rw [valued]
  exact finite

/-- Computations one after the other, each of which gives a value or ends for the same reason. -/
theorem Outcome.mapM_cases {ε α β : Type} {f : α → Outcome ε β} {reason : Fatality} (xs : List α)
    (each : ∀ x ∈ xs, (∃ y, f x = .ok y) ∨ f x = stop reason) :
    (∃ ys, xs.mapM f = .ok ys) ∨ (xs.mapM f = stop reason ∧ ∃ x ∈ xs, f x = stop reason) := by
  induction xs with
  | nil => exact .inl ⟨[], rfl⟩
  | cons x xs ih =>
    obtain ⟨first, rest⟩ := List.forall_mem_cons.mp each
    rw [List.mapM_cons]
    rcases first with ⟨y, first⟩ | ended
    · rcases ih rest with ⟨ys, run⟩ | ⟨run, x', member, ended⟩
      · exact .inl ⟨y :: ys, by rw [first, run]; rfl⟩
      · exact .inr ⟨by rw [first, run]; rfl, x', List.mem_cons_of_mem x member, ended⟩
    · exact .inr ⟨by rw [ended]; rfl, x, List.mem_cons_self, ended⟩

/-- Results whose shapes fit are computed unless an element that is moved is not finite. -/
theorem Routing.compute_cases {r : Routing} {inputs : List Content} {shapes : List Shape}
    (exact : r.Exact (inputs.map Content.count) (shapes.map List.prod))
    (valid : ∀ shape ∈ shapes, shape.IsValid) (small : ∀ shape ∈ shapes, shape.prod < Size.limit) :
    (∃ c, r.compute inputs shapes = .ok c)
      ∨ (r.compute inputs shapes = Outcome.stop .nonFinite
        ∧ ∃ x ∈ inputs, x.values.nonFinite? ≠ none) := by
  have cases : ∀ entry ∈ shapes.zipIdx, (∃ c, (do
        Content.make (gather (inputs.map Content.values) (← Shape.elements entry.1)
          (r.source entry.2)) entry.1) = .ok c)
      ∨ ((do
        Content.make (gather (inputs.map Content.values) (← Shape.elements entry.1)
          (r.source entry.2)) entry.1) = Outcome.stop .nonFinite
        ∧ (gather (inputs.map Content.values) entry.1.prod (r.source entry.2)).nonFinite?
          ≠ none) := by
    rintro ⟨shape, p⟩ member
    have among := List.fst_mem_of_mem_zipIdx member
    rw [Shape.elements, Size.product_of_lt (valid _ among).2 (small _ among)]
    exact Content.make_of_lt (valid _ among) (Buffer.size_tabulate shape.prod _) (small _ among)
  have run := Outcome.mapM_cases shapes.zipIdx fun entry member =>
    (cases entry member).imp_right And.left
  rcases run with ⟨outputs, run⟩ | ⟨run, ⟨shape, p⟩, member, ended⟩
  · exact .inl ⟨_, Outcome.bind_eq_ok_iff.mpr ⟨outputs, run, rfl⟩⟩
  · refine .inr ⟨congrArg (· >>= _) run, ?_⟩
    rcases cases _ member with ⟨c, made⟩ | ⟨-, infinite⟩
    · rw [made] at ended
      cases ended
    -- if all operands were finite, what is gathered from them would be
    by_contra none
    have finite : ∀ x ∈ inputs, x.values.nonFinite? = .none := fun x inside =>
      Classical.not_not.mp fun other => none ⟨x, inside, other⟩
    refine infinite (Buffer.nonFinite?_eq_none_iff.mpr fun i within => ?_)
    rw [gather, Buffer.size_tabulate] at within
    rw [List.mk_mem_zipIdx_iff_getElem?] at member
    have place : (p, i) ∈ places (shapes.map List.prod) := by
      refine mem_places.mpr ⟨shape.prod, ?_, within⟩
      rw [List.getElem?_map, member]
      rfl
    obtain ⟨count, found, within'⟩ := mem_places.mp (exact.origin _ place).1
    rw [List.getElem?_map, Option.map_eq_some_iff] at found
    obtain ⟨x, found, rfl⟩ := found
    have same := fetch_of_getElem? (i := (r.origin (p, i)).2) found
    rw [gather_eq_tabulate, Buffer.element_tabulate _ within]
    have finite :=
      Buffer.nonFinite?_eq_none_iff.mp (finite x (List.mem_of_getElem? found)) _ within'
    rw [← same] at finite
    exact finite

section Compute

variable {r : Routing} {inputs : List Content} {shapes : List Shape}
  (exact : r.Exact (inputs.map Content.count) (shapes.map List.prod))
  (valid : ∀ shape ∈ shapes, shape.IsValid) (small : ∀ shape ∈ shapes, shape.prod < Size.limit)
include exact valid small

/-- Finite elements are moved. -/
theorem Routing.compute_of_finite (finite : ∀ x ∈ inputs, x.values.nonFinite? = none) :
    ∃ c, r.compute inputs shapes = .ok c := by
  rcases compute_cases exact valid small with success | ⟨-, x, member, infinite⟩
  · exact success
  · exact absurd (finite x member) infinite

/-- Every element is moved somewhere, so one that is not finite ends the run. -/
theorem Routing.compute_of_nonFinite (infinite : ∃ x ∈ inputs, x.values.nonFinite? ≠ none) :
    r.compute inputs shapes = Outcome.stop .nonFinite := by
  rcases compute_cases exact valid small with ⟨c, success⟩ | ⟨ended, -⟩
  · obtain ⟨x, member, infinite⟩ := infinite
    have moved := compute_movedBy exact success
    exact absurd (moved.finite_inputs (finite_of_compute success) x member) infinite
  · exact ended

end Compute

/-- A result with too many elements to count is not computed. -/
theorem Routing.compute_of_le (r : Routing) (inputs : List Content) {shape : Shape}
    (large : Size.limit ≤ shape.prod) : r.compute inputs [shape] = Outcome.stop .overflow := by
  have uncounted : shape.elements = Outcome.stop .overflow := Size.product_of_le large
  unfold compute results
  rw [List.zipIdx_singleton, List.mapM_cons]
  dsimp only
  rw [uncounted]
  rfl

/-- Routings that fetch the same values give the same results. -/
theorem Routing.results_congr {r r' : Routing} {inputs inputs' : List Content} {shapes : List Shape}
    (same : ∀ p shape, shapes[p]? = some shape → ∀ i < shape.prod,
      fetch (inputs.map Content.values) (r.source p i)
        = fetch (inputs'.map Content.values) (r'.source p i)) :
    r.results inputs shapes = r'.results inputs' shapes := by
  refine Outcome.mapM_congr ?_
  rintro ⟨shape, p⟩ member
  rw [List.mk_mem_zipIdx_iff_getElem?] at member
  dsimp only
  cases elements : shape.elements with
  | error failure => rfl
  | ok count =>
    have gathered : gather (inputs.map Content.values) count (r.source p)
        = gather (inputs'.map Content.values) count (r'.source p) := by
      rw [gather_eq_tabulate, gather_eq_tabulate, Buffer.tabulate, Buffer.tabulate]
      refine Array.map_congr_left fun i inside => ?_
      rw [Array.mem_range, Size.product_eq_ok elements] at inside
      exact same p shape member i inside
    exact congrArg (Content.make · shape) gathered

theorem Routing.outputs_compute (r : Routing) (inputs : List Content) (shapes : List Shape) :
    Computed.outputs <$> r.compute inputs shapes = r.results inputs shapes := by
  unfold compute
  cases r.results inputs shapes <;> rfl

namespace Content

/-- A split, once its lengths and blocks are known. -/
theorem split_eq {x : Content} {axis : Nat} (inside : axis < x.shape.rank) {partition : Partition}
    {lengths : List Nat} (parted : partition.lengths x.shape axis = .ok lengths)
    {blocks : Shape.Blocks} (around : x.shape.blocks axis = .ok blocks) : x.split axis partition
      = (Parts.parting ⟨blocks.outer, blocks.inner, lengths⟩).compute [x]
        (lengths.map (x.shape.set axis ·)) := by
  rw [split, Shape.axis_eq_ok inside]
  dsimp only [bind, Except.bind]
  rw [parted, around]

/-- What was joined is given back by a split into the lengths that it had. -/
theorem split_concat {xs : List Content} (wf : ∀ x ∈ xs, x.WellFormed) {axis : Int} {c : Computed}
    (success : concat xs axis = .ok c) :
    ∃ (a : Nat) (whole : Content) (l : Parts) (d : Computed), axis = a ∧ c.outputs = [whole]
      ∧ c.MovedBy l.joining xs
      ∧ whole.split a (.sizes (xs.map fun x => x.shape.extent a)) = .ok d
      ∧ d.outputs = xs ∧ d.MovedBy l.parting [whole] := by
  obtain ⟨first, a, blocks, head, rfl, around, moved⟩ := concat_movedBy wf success
  obtain ⟨rest, rfl⟩ := List.head?_eq_some_iff.mp head
  obtain ⟨inside, alike, -⟩ := of_concat_eq_ok success
  rw [concat_eq inside alike around head] at success
  obtain ⟨total, sum, success⟩ := Outcome.bind_eq_ok_iff.mp success
  obtain ⟨whole, rfl, made⟩ := Routing.compute_one_eq_ok_iff.mp success
  obtain ⟨shaped, valued, -, elements, finite⟩ := of_make_eq_ok made
  have inside : a < first.shape.length := inside
  have shapes (x : Content) (member : x ∈ first :: rest) :
      x.shape = first.shape.set a (x.shape.extent a) := by
    obtain ⟨length, same⟩ := (agreeExcept_iff inside).mp (alike x member)
    rw [same, Shape.extent_of_getElem? (List.getElem?_set_self inside)]
  have extent : whole.shape.extent a = total := by
    rw [shaped]
    exact Shape.extent_of_getElem? (List.getElem?_set_self inside)
  have parted :
      (Partition.sizes ((first :: rest).map fun x => x.shape.extent a)).lengths whole.shape a
      = .ok ((first :: rest).map fun x => x.shape.extent a) := by
    have inhabited : 0 ∉ (first :: rest).map fun x => x.shape.extent a := by
      intro zero
      obtain ⟨x, member, zero⟩ := List.mem_map.mp zero
      refine (wf x member).valid.2 ?_
      rw [shapes x member, zero]
      exact List.mem_set inside 0
    exact Partition.lengths_sizes (List.cons_ne_nil _ _) inhabited (extent ▸ sum)
  have around' : whole.shape.blocks a = .ok ⟨blocks.outer, total, blocks.inner⟩ := by
    rw [shaped]
    exact Shape.blocks_set around total
  have targets : ((first :: rest).map fun x => x.shape.extent a).map (whole.shape.set a ·)
      = (first :: rest).map Content.shape := by
    rw [List.map_map, shaped]
    refine List.map_congr_left fun x member => ?_
    rw [Function.comp_apply, List.set_set]
    exact (shapes x member).symm
  -- no part has more elements than the whole, which could be counted
  have small (x : Content) (member : x ∈ first :: rest) : x.shape.prod < Size.limit := by
    have all := Size.product_lt elements
    rw [Size.product_eq_ok elements, Shape.prod_set around, Size.sum_eq_ok sum] at all
    refine Nat.lt_of_le_of_lt ?_ all
    rw [shapes x member, Shape.prod_set around]
    refine Nat.mul_le_mul_right _ (Nat.mul_le_mul_left _ ?_)
    exact Size.le_total_of_mem (List.mem_map_of_mem (f := fun x => x.shape.extent a) member)
  have back := moved.compute_back wf small fun o member => by
    rw [List.mem_singleton.mp member, valued]
    exact finite
  refine ⟨a, whole, _, _, rfl, rfl, moved, ?_, rfl, moved.back false⟩
  rw [split_eq (shaped ▸ inside.trans_eq (List.length_set).symm) parted around', targets]
  exact back

/-- A joining of parts that take up the length of an axis, whatever their elements. -/
theorem concat_eq_compute {shape : Shape} {axis : Nat} (inside : axis < shape.rank)
    {blocks : Shape.Blocks} (around : shape.blocks axis = .ok blocks) {lengths : List Nat}
    (nonempty : lengths ≠ []) (total : Size.total lengths = shape.extent axis)
    (small : shape.extent axis < Size.limit) {xs : List Content}
    (shapes : xs.map Content.shape = lengths.map (shape.set axis ·)) : concat xs axis
      = (Parts.joining ⟨blocks.outer, blocks.inner, lengths⟩).compute xs [shape] := by
  have inside' : axis < shape.length := inside
  obtain ⟨length, rest, rfl⟩ := List.exists_cons_of_ne_nil nonempty
  obtain ⟨first, others, rfl, shaped, -⟩ := List.map_eq_cons_iff.mp shapes
  have within : axis < first.shape.rank := shaped ▸ inside'.trans_eq List.length_set.symm
  have alike (x : Content) (member : x ∈ first :: others) :
      agreeExcept axis x.shape first.shape = true := by
    have among := List.mem_map_of_mem (f := Content.shape) member
    rw [shapes] at among
    obtain ⟨length', -, same⟩ := List.mem_map.mp among
    exact (agreeExcept_iff within).mpr ⟨length', by rw [← same, shaped, List.set_set]⟩
  have extents : (first :: others).map (fun x => x.shape.extent axis) = length :: rest := by
    calc (first :: others).map (fun x => x.shape.extent axis)
        = ((length :: rest).map (shape.set axis ·)).map (Shape.extent · axis) := by
          rw [← shapes, List.map_map]
          rfl
      _ = (length :: rest).map id := by
          rw [List.map_map]
          exact List.map_congr_left fun n _ =>
            Shape.extent_of_getElem? (List.getElem?_set_self inside')
      _ = length :: rest := List.map_id _
  have whole : (first.shape.set axis (shape.extent axis) : Shape) = shape := by
    rw [shaped, List.set_set, Shape.extent_of_getElem? (List.getElem?_eq_getElem inside'),
      List.set_getElem_self]
  have around' : first.shape.blocks axis = .ok ⟨blocks.outer, length, blocks.inner⟩ := by
    rw [shaped]
    exact Shape.blocks_set around length
  rw [concat_eq within alike around' rfl, extents,
    Size.sum_of_lt (total ▸ small), total]
  dsimp only [bind, Except.bind]
  rw [whole]

/-- Lengths that take up an axis, none of them empty, part the elements of a content among shapes
that can be counted. -/
structure Parted (x : Content) (axis : Nat) (blocks : Shape.Blocks) (lengths : List Nat) : Prop where
  around : x.shape.blocks axis = .ok blocks
  nonempty : lengths ≠ []
  inhabited : 0 ∉ lengths
  total : Size.total lengths = x.shape.extent axis
  valid : ∀ shape ∈ (lengths.map (x.shape.set axis ·) : List Shape), shape.IsValid
  small : ∀ shape ∈ (lengths.map (x.shape.set axis ·) : List Shape), shape.prod < Size.limit
  exact : (Parts.parting ⟨blocks.outer, blocks.inner, lengths⟩).Exact ([x].map count)
    ((lengths.map (x.shape.set axis ·)).map List.prod)

theorem Parted.extent_eq {x : Content} {axis : Nat} {blocks : Shape.Blocks} {lengths : List Nat}
    (parted : x.Parted axis blocks lengths) : x.shape.extent axis = blocks.length :=
  Shape.extent_of_getElem? (Shape.blocks_spec parted.around).1

/-- The length of an axis, which is not empty and can be counted. -/
theorem extent_lt {x : Content} (wf : x.WellFormed) (small : x.count < Size.limit) {axis : Nat}
    (inside : axis < x.shape.rank) :
    0 < x.shape.extent axis ∧ x.shape.extent axis < Size.limit := by
  have inside : axis < x.shape.length := inside
  have among : x.shape.extent axis ∈ x.shape := by
    rw [Shape.extent_of_getElem? (List.getElem?_eq_getElem inside)]
    exact List.getElem_mem inside
  refine ⟨Nat.pos_of_ne_zero fun zero => wf.valid.2 (zero ▸ among), ?_⟩
  refine Nat.lt_of_le_of_lt (Nat.le_of_dvd (Shape.prod_pos wf.valid.2) (List.dvd_prod among)) ?_
  exact wf.count ▸ small

/-- A split into parts that the axis admits parts the elements, and computes just that. -/
theorem exists_parted {x : Content} (wf : x.WellFormed) (small : x.count < Size.limit)
    {axis : Nat} (inside : axis < x.shape.rank) {partition : Partition}
    (admits : partition.Admits (x.shape.extent axis)) :
    ∃ blocks, x.Parted axis blocks (partition.parts (x.shape.extent axis))
      ∧ x.split axis partition = (Parts.parting ⟨blocks.outer, blocks.inner,
        partition.parts (x.shape.extent axis)⟩).compute [x]
          ((partition.parts (x.shape.extent axis)).map (x.shape.set axis ·)) := by
  rw [wf.count] at small
  obtain ⟨blocks, around⟩ := Shape.blocks_of_lt wf.valid.2 small inside
  obtain ⟨positive, below⟩ := extent_lt wf (wf.count ▸ small) inside
  obtain ⟨accepted, nonempty, inhabited⟩ := Partition.lengths_of_admits admits positive below
  generalize partition.parts (x.shape.extent axis) = lengths at accepted nonempty inhabited
  have total := Partition.total_lengths accepted
  have part {s : Shape} (member : s ∈ lengths.map (x.shape.set axis ·)) :
      s.IsValid ∧ s.prod < Size.limit := by
    obtain ⟨length, among, rfl⟩ := List.mem_map.mp member
    have some : 0 < length := Nat.pos_of_ne_zero fun zero => inhabited (zero ▸ among)
    refine ⟨wf.valid.set axis some, Nat.lt_of_le_of_lt ?_ small⟩
    rw [Shape.prod_set around, Shape.prod_eq around,
      ← Shape.extent_of_getElem? (Shape.blocks_spec around).1, ← total]
    exact Nat.mul_le_mul_right _ (Nat.mul_le_mul_left _ (Size.le_total_of_mem among))
  refine ⟨blocks, ⟨around, nonempty, inhabited, total, fun s member => (part member).1,
    fun s member => (part member).2, exact_parting wf accepted around⟩, ?_⟩
  exact split_eq inside accepted around

/-- The parts of a content, along an axis and into any parts that take up its length, are joined to
what it was. Nothing but elements that are not finite stops the split. -/
theorem concat_split {x : Content} (wf : x.WellFormed) (small : x.count < Size.limit)
    {axis : Nat} (inside : axis < x.shape.rank) {partition : Partition}
    (admits : partition.Admits (x.shape.extent axis)) :
    (x.split axis partition = Outcome.stop .nonFinite ∧ x.values.nonFinite? ≠ none)
      ∨ ∃ (l : Parts) (d e : Computed), x.split axis partition = .ok d ∧ d.MovedBy l.parting [x]
        ∧ concat d.outputs axis = .ok e ∧ e.outputs = [x] ∧ e.MovedBy l.joining d.outputs := by
  obtain ⟨blocks, parted, splits⟩ := exists_parted wf small inside admits
  rw [splits]
  rcases Routing.compute_cases parted.exact parted.valid parted.small with
    ⟨d, success⟩ | ⟨ended, x', member, infinite⟩
  · have moved := Routing.compute_movedBy parted.exact success
    refine .inr ⟨_, d, _, success, moved, ?_, rfl, moved.back false⟩
    rw [concat_eq_compute inside parted.around parted.nonempty parted.total
      (extent_lt wf small inside).2 (Routing.shapes_of_compute success)]
    exact moved.compute_back (List.forall_mem_singleton.mpr wf)
      (List.forall_mem_singleton.mpr (wf.count ▸ small))
      (Routing.finite_of_compute success)
  · rw [List.mem_singleton.mp member] at infinite
    exact .inl ⟨ended, infinite⟩

end Content

end LayerNet
