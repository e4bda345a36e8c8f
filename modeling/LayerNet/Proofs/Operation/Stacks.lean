import LayerNet.Proofs.Operation.Interleaving
import LayerNet.Proofs.Operation.Parting
import Mathlib.Data.List.InsertIdx

/-!
# Stacks — stacking told by expanding and joining

A stack along a new axis is what is left when every tensor is given that axis, with length one, and
the tensors are joined along it (`Content.concat_expanded`). The members of a tensor along an axis
are the parts of length one that it can be split into, without that axis (`Content.squeeze_split`).
And stacked again along the same axis, the members are the tensor (`Content.stack_unstack`).

The first two pairs address the elements in different ways, as interleaved members and as parts side
by side, which for equal parts is one geometry (`Parts.place_replicate`, `Parts.locate_replicate`).
A view moves nothing, so it does not matter that it comes in between.
-/

namespace LayerNet

/-! ## Shapes with an axis more or less -/

namespace Shape

variable {shape : Shape} {axis : Nat}

theorem getElem?_insertIdx (inside : axis ≤ shape.length) (length : Nat) :
    (shape.insertIdx axis length)[axis]? = some length := by
  rw [List.getElem?_insertIdx_self, if_pos inside]

theorem drop_insertIdx (inside : axis ≤ shape.length) (length : Nat) :
    (shape.insertIdx axis length).drop (axis + 1) = shape.drop axis :=
  List.ext_getElem (by grind) (by grind)

theorem drop_eraseIdx (shape : Shape) (axis : Nat) :
    (shape.eraseIdx axis).drop axis = shape.drop (axis + 1) :=
  List.ext_getElem (by grind) (by grind)

theorem set_insertIdx (inside : axis ≤ shape.length) (first second : Nat) :
    (shape.insertIdx axis first).set axis second = shape.insertIdx axis second := by
  have other : axis ≠ (shape.insertIdx axis first).length := by
    rw [List.length_insertIdx_of_le_length inside]
    exact Nat.ne_of_lt (Nat.lt_succ_of_le inside)
  rw [← List.insertIdx_eraseIdx_self other, List.eraseIdx_insertIdx_self]

theorem prod_insertIdx (inside : axis ≤ shape.length) (length : Nat) :
    (shape.insertIdx axis length).prod = length * shape.prod :=
  List.prod_insertIdx inside fun _ _ => Commute.all _ _

theorem IsValid.insertIdx (valid : shape.IsValid) (inside : axis ≤ shape.length) {length : Nat}
    (positive : 0 < length) : Shape.IsValid (shape.insertIdx axis length) := by
  refine ⟨List.ne_nil_of_length_pos ?_, fun zero => ?_⟩
  · rw [List.length_insertIdx_of_le_length inside]
    exact Nat.succ_pos _
  · rcases List.eq_or_mem_of_mem_insertIdx zero with same | member
    · exact Nat.ne_of_lt positive same
    · exact valid.2 member

theorem IsValid.eraseIdx (valid : shape.IsValid) (rank : 2 ≤ shape.rank) :
    Shape.IsValid (shape.eraseIdx axis) := by
  have rank : 2 ≤ shape.length := rank
  refine ⟨List.ne_nil_of_length_pos ?_, fun zero => valid.2 (List.mem_of_mem_eraseIdx zero)⟩
  rw [List.length_eraseIdx]
  split <;> omega

/-- Lengths of one for every part, along an axis that is as long as there are parts. -/
theorem blocks_insertIdx (inhabited : 0 ∉ shape) (small : shape.prod < Size.limit)
    (inside : axis ≤ shape.rank) :
    Shape.blocks (shape.insertIdx axis 1) axis
      = .ok ⟨(shape.take axis).prod, 1, (shape.drop axis).prod⟩ := by
  have inside : axis ≤ shape.length := inside
  have valid : 0 ∉ shape.insertIdx axis 1 := fun zero =>
    inhabited ((List.eq_or_mem_of_mem_insertIdx zero).resolve_left (by decide))
  have rank : axis < Shape.rank (shape.insertIdx axis 1) := by
    rw [Shape.rank, List.length_insertIdx_of_le_length inside]
    exact Nat.lt_succ_of_le inside
  obtain ⟨⟨outer, length, inner⟩, around⟩ := blocks_of_lt valid
    (by rwa [prod_insertIdx inside, Nat.one_mul]) rank
  obtain ⟨found, before, behind⟩ := blocks_spec around
  rw [getElem?_insertIdx inside] at found
  cases found
  rw [drop_insertIdx inside] at behind
  rw [List.take_insertIdx_eq_take_of_le _ _ _ _ (Nat.le_refl axis)] at before
  cases before
  cases behind
  exact around

end Shape

/-! ## Views -/

/-- A routing with one result, whose elements can be counted. -/
theorem Routing.results_singleton (r : Routing) (inputs : List Content) {shape : Shape}
    {count : Nat} (elements : shape.elements = .ok count) : r.results inputs [shape]
      = ([·]) <$> Content.make (gather (inputs.map Content.values) count (r.source 0)) shape := by
  unfold results
  rw [List.zipIdx_singleton, List.mapM_cons]
  dsimp only
  rw [elements]
  dsimp only [bind, Except.bind]
  cases Content.make (gather (inputs.map Content.values) count (r.source 0)) shape <;> rfl

namespace Content

variable {x : Content}

/-- A view of a tensor has its elements. -/
theorem view_eq {shape : Shape} (valid : shape.IsValid) (count : shape.prod = x.count)
    (small : x.count < Size.limit) : x.view shape
      = (fun y => ⟨[y], Routing.identity.rule, true⟩) <$> make x.values shape := by
  have elements : shape.elements = .ok x.count := by
    rw [← count]
    exact Size.product_of_lt valid.2 (count ▸ small)
  have stays : Routing.gather [x.values] x.count (Routing.identity.source 0) = x.values :=
    Routing.gather_identity x.values
  unfold view Routing.compute
  rw [Routing.results_singleton _ _ elements, List.map_singleton, stays]
  cases make x.values shape <;> rfl

theorem make_of_finite {values : Buffer} {shape : Shape} (valid : shape.IsValid)
    (size : values.size = shape.prod) (small : shape.prod < Size.limit)
    (finite : values.nonFinite? = none) : ∃ c, make values shape = .ok c := by
  rcases make_of_lt valid size small with made | ⟨-, infinite⟩
  · exact made
  · exact absurd finite infinite

theorem make_of_nonFinite {values : Buffer} {shape : Shape} (valid : shape.IsValid)
    (size : values.size = shape.prod) (small : shape.prod < Size.limit)
    (infinite : values.nonFinite? ≠ none) : make values shape = Outcome.stop .nonFinite := by
  rcases make_of_lt valid size small with ⟨c, made⟩ | ⟨ended, -⟩
  · exact absurd (of_make_eq_ok made).2.2.2.2 infinite
  · exact ended

theorem expand_eq (wf : x.WellFormed) (small : x.count < Size.limit) {axis : Nat}
    (inside : axis ≤ x.shape.rank) : x.expand axis
      = (fun y => ⟨[y], Routing.identity.rule, true⟩)
        <$> make x.values (x.shape.insertIdx axis 1) := by
  have inside' : axis ≤ x.shape.length := inside
  unfold expand
  rw [Shape.axis_eq_ok (Nat.lt_succ_of_le inside)]
  refine view_eq (wf.valid.insertIdx inside Nat.one_pos) ?_ small
  rw [Shape.prod_insertIdx inside, Nat.one_mul, wf.count]

theorem squeeze_eq (wf : x.WellFormed) (small : x.count < Size.limit) {axis : Nat}
    (unit : x.shape[axis]? = some 1) (rank : 2 ≤ x.shape.rank) : x.squeeze axis
      = (fun y => ⟨[y], Routing.identity.rule, true⟩)
        <$> make x.values (x.shape.eraseIdx axis) := by
  obtain ⟨inside, length⟩ := List.getElem?_eq_some_iff.mp unit
  have bound : axis < x.shape.rank := inside
  unfold squeeze
  rw [Shape.axis_eq_ok bound]
  dsimp only [bind, Except.bind]
  rw [Shape.extent_of_getElem? unit, if_neg (fun other : 1 ≠ 1 => other rfl),
    if_neg (Nat.not_lt.mpr rank)]
  refine view_eq (wf.valid.eraseIdx rank) ?_ small
  rw [wf.count, ← List.mul_prod_eraseIdx inside fun _ _ => Commute.all _ _, length, Nat.one_mul]

/-! ## Stacking -/

section Stack

variable {xs ys : List Content} {shape : Shape} {axis : Nat} (some : xs ≠ [])
  (inside : axis ≤ shape.rank) (inhabited : 0 ∉ shape) (small : shape.prod < Size.limit)
include some inside inhabited small

/-- A stack of tensors of one shape interleaves them. -/
theorem stack_eq_compute (alike : ∀ x ∈ xs, x.shape = shape) : stack xs axis
    = (Stacking.joining ⟨(shape.drop axis).prod, xs.length⟩).compute xs
      [shape.insertIdx axis xs.length] := by
  obtain ⟨first, rest, rfl⟩ := List.exists_cons_of_ne_nil some
  obtain ⟨rfl, same⟩ := List.forall_mem_cons.mp alike
  have none : rest.find? (fun x => decide (x.shape ≠ first.shape)) = none := by
    rw [List.find?_eq_none]
    intro x member
    simp [same x member]
  have behind : (first.shape.drop axis).prod < Size.limit := by
    refine Nat.lt_of_le_of_lt (Nat.le_of_dvd (Shape.prod_pos inhabited) ?_) small
    exact ⟨(first.shape.take axis).prod, by rw [Nat.mul_comm, List.prod_take_mul_prod_drop]⟩
  have product : (Size.product (first.shape.drop axis) : Checked Nat)
      = .ok (first.shape.drop axis).prod :=
    Size.product_of_lt (fun zero => inhabited (List.mem_of_mem_drop zero)) behind
  unfold stack
  dsimp only
  rw [Shape.axis_eq_ok (Nat.lt_succ_of_le inside)]
  dsimp only [bind, Except.bind]
  rw [none, product]

/-- Finite tensors whose elements can be counted together are stacked, and no others. -/
theorem stack_cases (wf : ∀ x ∈ xs, x.WellFormed) (alike : ∀ x ∈ xs, x.shape = shape) :
    ((∀ x ∈ xs, x.values.nonFinite? = none) ∧ xs.length * shape.prod < Size.limit →
      ∃ c, stack xs axis = .ok c ∧ c.outputs.map Content.shape = [shape.insertIdx axis xs.length])
    ∧ (¬((∀ x ∈ xs, x.values.nonFinite? = none) ∧ xs.length * shape.prod < Size.limit) →
      ∃ reason, stack xs axis = Outcome.stop reason) := by
  have exact := exact_stacking wf alike inside
  have whole : List.prod (shape.insertIdx axis xs.length) = xs.length * shape.prod :=
    Shape.prod_insertIdx inside _
  have valid : Shape.IsValid (shape.insertIdx axis xs.length) := by
    obtain ⟨first, rest, rfl⟩ := List.exists_cons_of_ne_nil some
    have valid := (wf first List.mem_cons_self).valid
    rw [alike first List.mem_cons_self] at valid
    exact valid.insertIdx inside (Nat.succ_pos _)
  rw [stack_eq_compute some inside inhabited small alike]
  refine ⟨fun ⟨finite, fits⟩ => ?_, fun unfit => ?_⟩
  · obtain ⟨c, success⟩ := Routing.compute_of_finite exact (List.forall_mem_singleton.mpr valid)
      (List.forall_mem_singleton.mpr (whole ▸ fits)) finite
    exact ⟨c, success, Routing.shapes_of_compute success⟩
  · by_cases fits : xs.length * shape.prod < Size.limit
    · refine ⟨_, Routing.compute_of_nonFinite exact (List.forall_mem_singleton.mpr valid)
        (List.forall_mem_singleton.mpr (whole ▸ fits)) ?_⟩
      by_contra none
      exact unfit ⟨fun x member => Classical.not_not.mp fun other => none ⟨x, member, other⟩, fits⟩
    · exact ⟨_, Routing.compute_of_le _ _ (whole ▸ Nat.not_lt.mp fits)⟩

/-- Tensors that were given a new axis of length one are joined along it as parts of length one. -/
theorem concat_expanded_eq
    (expanded : List.Forall₂ (fun x y => make x.values (shape.insertIdx axis 1) = .ok y) xs ys) :
    concat ys axis = (do
      let total ← Size.sum (List.replicate xs.length 1)
      (Parts.joining ⟨(shape.take axis).prod, (shape.drop axis).prod,
        List.replicate xs.length 1⟩).compute ys [shape.insertIdx axis total]) := by
  have inside' : axis ≤ shape.length := inside
  have shapes (y : Content) (member : y ∈ ys) : y.shape = shape.insertIdx axis 1 := by
    obtain ⟨x, -, made⟩ := exists_rel_of_mem expanded member
    exact (of_make_eq_ok made).1
  obtain ⟨first, rest, rfl⟩ : ∃ first rest, ys = first :: rest := by
    refine List.exists_cons_of_ne_nil fun none => some ?_
    rw [none, List.forall₂_nil_right_iff] at expanded
    exact expanded
  have shaped := shapes first List.mem_cons_self
  have bound : axis < first.shape.rank := by
    rw [shaped, Shape.rank, List.length_insertIdx_of_le_length inside']
    exact Nat.lt_succ_of_le inside'
  have extents : (first :: rest).map (fun y => y.shape.extent axis)
      = List.replicate xs.length 1 := by
    refine List.eq_replicate_iff.mpr ⟨by rw [List.length_map, expanded.length_eq], ?_⟩
    intro length member
    obtain ⟨y, among, rfl⟩ := List.mem_map.mp member
    rw [shapes y among, Shape.extent_of_getElem? (Shape.getElem?_insertIdx inside' 1)]
  have agree (y : Content) (member : y ∈ first :: rest) :
      agreeExcept axis y.shape first.shape = true := by
    refine (agreeExcept_iff bound).mpr ⟨1, ?_⟩
    rw [shapes y member, shaped, Shape.set_insertIdx inside']
  have around : first.shape.blocks axis
      = .ok ⟨(shape.take axis).prod, 1, (shape.drop axis).prod⟩ := by
    rw [shaped]
    exact Shape.blocks_insertIdx inhabited small inside
  have sets (total : Nat) : first.shape.set axis total = shape.insertIdx axis total := by
    rw [shaped, Shape.set_insertIdx inside']
  rw [concat_eq bound agree around rfl, extents]
  simp only [sets]

/-- Joining what was expanded is stacking, and both are refused together. -/
theorem concat_expanded (alike : ∀ x ∈ xs, x.shape = shape)
    (expanded : List.Forall₂ (fun x y => make x.values (shape.insertIdx axis 1) = .ok y) xs ys) :
    Computed.outputs <$> concat ys axis = Computed.outputs <$> stack xs axis := by
  have inside' : axis ≤ shape.length := inside
  have total : Size.total (List.replicate xs.length 1) = xs.length := by
    rw [Size.total_replicate, Nat.mul_one]
  have values : ys.map Content.values = xs.map Content.values := by
    rw [eq_comm, ← List.forall₂_eq_eq_eq, List.forall₂_map_left_iff, List.forall₂_map_right_iff]
    exact expanded.imp fun x y made => (of_make_eq_ok made).2.1.symm
  rw [concat_expanded_eq some inside inhabited small expanded,
    stack_eq_compute some inside inhabited small alike]
  by_cases few : xs.length < Size.limit
  · rw [Size.sum_of_lt (total.symm ▸ few), total]
    refine (Routing.outputs_compute _ _ _).trans (Eq.trans ?_ (Routing.outputs_compute _ _ _).symm)
    refine Routing.results_congr fun p shape' found i within => ?_
    obtain rfl := List.mem_singleton.mp (List.mem_of_getElem? found)
    rw [Shape.prod_insertIdx inside', ← List.prod_take_mul_prod_drop shape
      axis, Nat.mul_left_comm] at within
    have row : (shape.drop axis).prod = 1 * (shape.drop axis).prod := (Nat.one_mul _).symm
    have same := Parts.locate_replicate (shape.drop axis).prod (row ▸ within)
    rw [values]
    show Routing.fetch _ (Parts.locate _ i) = Routing.fetch _ (Stacking.locate _ i)
    rw [same, Nat.one_mul]
  · have large : Size.limit ≤ xs.length := Nat.not_lt.mp few
    rw [Size.sum_of_le (total.symm ▸ large), Routing.compute_of_le _ _ ?_]
    · rfl
    · rw [Shape.prod_insertIdx inside']
      exact Nat.le_trans large (Nat.le_mul_of_pos_right _ (Shape.prod_pos inhabited))

end Stack

/-! ## Members -/

section Unstack

variable (wf : x.WellFormed) (small : x.count < Size.limit) {axis : Nat}
  (inside : axis < x.shape.rank) (rank : 2 ≤ x.shape.rank)
include wf small inside rank

/-- A member is a valid shape, and all its elements can be counted. -/
theorem member_spec : Shape.IsValid (x.shape.eraseIdx axis)
    ∧ List.prod (x.shape.eraseIdx axis) < Size.limit := by
  have inside : axis < x.shape.length := inside
  refine ⟨wf.valid.eraseIdx rank, Nat.lt_of_le_of_lt ?_ (wf.count ▸ small)⟩
  refine Nat.le_of_dvd (Shape.prod_pos wf.valid.2) ⟨x.shape[axis], ?_⟩
  rw [Nat.mul_comm, List.mul_prod_eraseIdx inside fun _ _ => Commute.all _ _]

theorem unstack_eq_compute : x.unstack axis
    = (Stacking.parting ⟨((x.shape.eraseIdx axis).drop axis).prod, x.shape.extent axis⟩).compute [x]
      (List.replicate (x.shape.extent axis) (x.shape.eraseIdx axis)) := by
  obtain ⟨valid, whole⟩ := member_spec wf small inside rank
  have behind : ((x.shape.eraseIdx axis).drop axis).prod < Size.limit := by
    refine Nat.lt_of_le_of_lt (Nat.le_of_dvd (Shape.prod_pos valid.2) ?_) whole
    exact ⟨((x.shape.eraseIdx axis).take axis).prod, by
      rw [Nat.mul_comm, List.prod_take_mul_prod_drop]⟩
  have product : (Size.product ((x.shape.eraseIdx axis).drop axis) : Checked Nat)
      = .ok ((x.shape.eraseIdx axis).drop axis).prod :=
    Size.product_of_lt (fun zero => valid.2 (List.mem_of_mem_drop zero)) behind
  unfold unstack
  rw [Shape.axis_eq_ok inside]
  dsimp only [bind, Except.bind]
  rw [if_neg (Nat.not_lt.mpr rank), product]

/-- Members are made of finite elements, and of no others. -/
theorem unstack_cases :
    (x.values.nonFinite? = none → ∃ members, x.unstack axis = .ok members)
    ∧ (x.values.nonFinite? ≠ none → x.unstack axis = Outcome.stop .nonFinite) := by
  obtain ⟨valid, whole⟩ := member_spec wf small inside rank
  have valid' (shape : Shape)
      (member : shape ∈ List.replicate (x.shape.extent axis) (x.shape.eraseIdx axis)) :
      shape.IsValid := List.eq_of_mem_replicate member ▸ valid
  have whole' (shape : Shape)
      (member : shape ∈ List.replicate (x.shape.extent axis) (x.shape.eraseIdx axis)) :
      shape.prod < Size.limit := List.eq_of_mem_replicate member ▸ whole
  rw [unstack_eq_compute wf small inside rank]
  refine ⟨fun finite => ?_, fun infinite => ?_⟩
  · exact Routing.compute_of_finite (exact_unstacking wf inside) valid' whole'
      (List.forall_mem_singleton.mpr finite)
  · exact Routing.compute_of_nonFinite (exact_unstacking wf inside) valid' whole'
      ⟨x, List.mem_singleton_self x, infinite⟩

/-- The members of a tensor are stacked to the tensor. -/
theorem stack_unstack {members : Computed} (success : x.unstack axis = .ok members) :
    ∃ whole, stack members.outputs axis = .ok whole ∧ whole.outputs = [x] := by
  have inside' : axis < x.shape.length := inside
  obtain ⟨valid, whole⟩ := member_spec wf small inside rank
  rw [unstack_eq_compute wf small inside rank] at success
  have moved := Routing.compute_movedBy (exact_unstacking wf inside) success
  have shapes := Routing.shapes_of_compute success
  have length : members.outputs.length = x.shape.extent axis := by
    rw [← List.length_map Content.shape, shapes, List.length_replicate]
  have alike (y : Content) (member : y ∈ members.outputs) : y.shape = x.shape.eraseIdx axis := by
    have among := List.mem_map_of_mem (f := Content.shape) member
    rw [shapes] at among
    exact List.eq_of_mem_replicate among
  have some : members.outputs ≠ [] :=
    List.ne_nil_of_length_pos (length ▸ (extent_lt wf small inside).1)
  have bound : axis ≤ Shape.rank (x.shape.eraseIdx axis) := by
    rw [Shape.rank, List.length_eraseIdx_of_lt inside']
    exact Nat.le_sub_one_of_lt inside'
  have shaped : (x.shape.eraseIdx axis).insertIdx axis (x.shape.extent axis) = x.shape := by
    rw [List.insertIdx_eraseIdx_self (Nat.ne_of_lt inside'),
      Shape.extent_of_getElem? (List.getElem?_eq_getElem inside'), List.set_getElem_self]
  rw [stack_eq_compute some bound valid.2 whole alike, length, shaped]
  exact ⟨_, moved.compute_back (List.forall_mem_singleton.mpr wf)
    (List.forall_mem_singleton.mpr (wf.count ▸ small)) (Routing.finite_of_compute success), rfl⟩

/-- The members of a tensor are its parts of length one without the axis. -/
theorem squeeze_split {members parts : Computed} (success : x.unstack axis = .ok members)
    (splits : x.split axis (.equal (x.shape.extent axis)) = .ok parts) :
    List.Forall₂ (fun part member =>
      part.squeeze axis = .ok ⟨[member], Routing.identity.rule, true⟩)
      parts.outputs members.outputs := by
  have inside' : axis < x.shape.length := inside
  obtain ⟨positive, -⟩ := extent_lt wf small inside
  obtain ⟨valid, whole⟩ := member_spec wf small inside rank
  have admits : (Partition.equal (x.shape.extent axis)).Admits (x.shape.extent axis) :=
    ⟨positive, Nat.dvd_refl _⟩
  obtain ⟨blocks, parted, split_eq⟩ := exists_parted wf small inside admits
  rw [split_eq, Partition.parts, Nat.div_self positive] at splits
  rw [unstack_eq_compute wf small inside rank] at success
  obtain ⟨-, -, inner⟩ := Shape.blocks_spec parted.around
  obtain ⟨outputs, rfl, made⟩ := Routing.compute_eq_ok_iff.mp success
  obtain ⟨outputs', rfl, made'⟩ := Routing.compute_eq_ok_iff.mp splits
  have ones : List.replicate (x.shape.extent axis) (x.shape.eraseIdx axis)
      = (List.replicate (x.shape.extent axis) 1).map fun _ => x.shape.eraseIdx axis := by
    rw [List.map_replicate]
  rw [ones, List.zipIdx_map, List.forall₂_map_left_iff] at made
  rw [List.zipIdx_map, List.forall₂_map_left_iff] at made'
  have count : List.prod (x.shape.set axis 1) = List.prod (x.shape.eraseIdx axis) := by
    rw [← List.insertIdx_eraseIdx_self (Nat.ne_of_lt inside'), Shape.prod_insertIdx, Nat.one_mul]
    rw [List.length_eraseIdx_of_lt inside']
    exact Nat.le_sub_one_of_lt inside'
  refine forall₂_of_common (forall₂_imp_of_mem made' fun entry member part made =>
    And.intro member made) made ?_
  rintro ⟨length, p⟩ part member ⟨among, made'⟩ made
  dsimp only [Prod.map, id] at made made'
  rw [List.mk_mem_zipIdx_iff_getElem?] at among
  obtain ⟨inside, -⟩ := List.getElem?_eq_some_iff.mp among
  rw [List.length_replicate] at inside
  obtain rfl : length = 1 := List.eq_of_mem_replicate (List.mem_of_getElem? among)
  obtain ⟨shaped, valued, -⟩ := of_make_eq_ok made'
  have wf' := wellFormed_of_make made'
  have same : part.values = Routing.gather ([x].map values) (x.shape.eraseIdx axis).prod
      ((Stacking.parting ⟨((x.shape.eraseIdx axis).drop axis).prod,
        x.shape.extent axis⟩).source p) := by
    rw [valued, count]
    congr 1
    funext i
    show (0, Parts.place _ p i) = (0, Stacking.place _ p i)
    rw [Parts.place_replicate _ _ inside, Nat.one_mul, inner, Shape.drop_eraseIdx]
  have unit : part.shape[axis]? = some 1 := by rw [shaped, List.getElem?_set_self inside']
  have small' : part.count < Size.limit := by
    rw [wf'.count, shaped, count]
    exact whole
  have rank' : 2 ≤ part.shape.rank := by
    rw [shaped, Shape.rank, List.length_set]
    exact rank
  rw [squeeze_eq wf' small' unit rank', shaped, List.eraseIdx_set_eq, same, made]
  rfl

end Unstack

end Content

end LayerNet
