import LayerNet.Proofs.Coordinates
import LayerNet.Proofs.Operation.Parting
import LayerNet.Proofs.Operation.Returns

/-!
# Slicing — the parts of a split are boxes

A part of a split is a slice: of the box that takes the part's length of the axis, behind the parts
before it, and all of every other axis (`Box.part`). A split copies runs, block by block; a slice
takes every position of the box apart into coordinates, moves these and puts them together by the
strides of the whole. Both come to the same places (`Content.origins_part`), so the contents are the
same (`Content.slice_part`) and the gradients go back to the same places
(`Content.slice_part_returns`).
-/

namespace LayerNet

namespace Box

/-- The box that takes a length of an axis behind an offset, and all of every other axis. -/
def part (shape : Shape) (axis offset length : Nat) : List Nat × Shape :=
  ((List.replicate shape.rank 0).set axis offset, shape.set axis length)

/-- The boxes behind one another on an axis. -/
def parts (shape : Shape) (axis : Nat) (lengths : List Nat) : List (List Nat × Shape) :=
  lengths.zipIdx.map fun (length, p) => part shape axis (Size.total (lengths.take p)) length

/-- The gradients of a box go back to the places that it was taken from. -/
def rule (offsets : List Nat) : Rule := fun seen => do
  let gradient := seen.gradient 0
  let origins ← origins offsets (seen.input 0).strides (seen.output 0).shape gradient.size
  return [.sparse (origins.zip gradient.toList)]

/-- A box that leaves all axes but one as they are fits if it fits on that one. -/
theorem fits_set {shape : Shape} {axis extent : Nat} (found : shape[axis]? = some extent)
    {offset length : Nat} (inside : offset + length ≤ extent) :
    fits ((List.replicate shape.rank 0).set axis offset) (shape.set axis length) shape = true := by
  have all (shape : Shape) : ∀ corner ∈ (List.replicate shape.length 0).zip (shape.zip shape),
      corner.1 + corner.2.1 ≤ corner.2.2 := by
    induction shape with
    | nil => simp
    | cons first rest ih =>
      rw [List.length_cons, List.replicate_succ, List.zip_cons_cons, List.zip_cons_cons,
        List.forall_mem_cons]
      exact ⟨Nat.le_of_eq (Nat.zero_add first), ih⟩
  have corners : ∀ corner ∈ ((List.replicate shape.length 0).set axis offset).zip
      ((shape.set axis length).zip shape), corner.1 + corner.2.1 ≤ corner.2.2 := by
    induction shape generalizing axis with
    | nil => cases found
    | cons first rest ih =>
      rw [List.length_cons, List.replicate_succ]
      cases axis with
      | zero =>
        cases found
        rw [List.set_cons_zero, List.set_cons_zero, List.zip_cons_cons, List.zip_cons_cons,
          List.forall_mem_cons]
        exact ⟨inside, all rest⟩
      | succ axis =>
        rw [List.getElem?_cons_succ] at found
        rw [List.set_cons_succ, List.set_cons_succ, List.zip_cons_cons, List.zip_cons_cons,
          List.forall_mem_cons]
        exact ⟨Nat.le_of_eq (Nat.zero_add first), ih found⟩
  simp only [fits, Bool.and_eq_true, beq_iff_eq, List.all_eq_true, decide_eq_true_eq]
  exact ⟨⟨by simp [Shape.rank], by simp [Shape.rank]⟩, corners⟩

end Box

namespace Content

/-- What a split makes of a length of an axis. -/
def makePart (x : Content) (axis : Nat) (blocks : Shape.Blocks) (lengths : List Nat)
    (length p : Nat) : Checked Content :=
  make (Routing.gather ([x].map values) (x.shape.set axis length).prod
    ((Parts.parting ⟨blocks.outer, blocks.inner, lengths⟩).source p)) (x.shape.set axis length)

variable {x : Content} (wf : x.WellFormed) {axis : Nat} {blocks : Shape.Blocks} {lengths : List Nat}
  (parted : x.Parted axis blocks lengths) {p length : Nat} (there : lengths[p]? = some length)
include wf parted there

/-- The places of the box that a part is are the places where the part is laid. -/
theorem origins_part {count : Nat} (small : count ≤ (x.shape.set axis length).prod) :
    Box.origins (Box.part x.shape axis (Size.total (lengths.take p)) length).1 x.strides
        (x.shape.set axis length) count
      = .ok ((List.range count).map (Parts.place ⟨blocks.outer, blocks.inner, lengths⟩ p)) := by
  obtain ⟨found, outer, inner⟩ := Shape.blocks_spec parted.around
  have inhabited : 0 ∉ (x.shape.set axis length : Shape) :=
    (parted.valid _ (List.mem_map_of_mem (List.mem_of_getElem? there))).2
  refine Outcome.mapM_eq_ok_iff.mpr ?_
  rw [List.forall₂_map_right_iff, List.forall₂_same]
  intro i member
  have within : i < (x.shape.set axis length).prod :=
    Nat.lt_of_lt_of_le (List.mem_range.mp member) small
  rw [Shape.prod_set parted.around, Nat.mul_assoc, Nat.mul_comm] at within
  have block : i / (length * blocks.inner) < blocks.outer := Nat.div_lt_of_lt_mul within
  have ranks : (Shape.digits i (x.shape.set axis length)).length
      = ((List.replicate x.shape.length 0).set axis (Size.total (lengths.take p))).length := by
    rw [Shape.length_digits, List.length_set, List.length_set, List.length_replicate]
  rw [Shape.coordinates_eq_digits i inhabited]
  refine congrArg Except.ok ?_
  rw [Box.part, Shape.rank, Box.origin, Size.total_add _ ranks, Shape.total_digits_set found
    wf.strides, Shape.total_offset found wf.strides, ← inner, ← outer, Nat.mod_eq_of_lt block,
    Parts.place, Parts.run, List.getD_eq_getElem?_getD, there, Option.getD_some, Parts.row,
    parted.total, parted.extent_eq, Parts.start]
  dsimp only
  omega

/-- A slice of the box that a part is has the elements of the part. -/
theorem slice_part :
    x.slice (Box.part x.shape axis (Size.total (lengths.take p)) length).1
        (x.shape.set axis length)
      = (Computed.single · (Box.rule
          (Box.part x.shape axis (Size.total (lengths.take p)) length).1))
        <$> x.makePart axis blocks lengths length p := by
  obtain ⟨found, -, -⟩ := Shape.blocks_spec parted.around
  have among := List.mem_map_of_mem (f := (x.shape.set axis ·)) (List.mem_of_getElem? there)
  have elements : Shape.elements (x.shape.set axis length)
      = .ok (x.shape.set axis length).prod :=
    Size.product_of_lt (parted.valid _ among).2 (parted.small _ among)
  have fits : Box.fits (Box.part x.shape axis (Size.total (lengths.take p)) length).1
      (x.shape.set axis length) x.shape = true := by
    refine Box.fits_set found ?_
    rw [← parted.extent_eq, ← parted.total]
    exact Size.total_take_add_le there
  have gathered : (((List.range (x.shape.set axis length).prod).map
        (Parts.place ⟨blocks.outer, blocks.inner, lengths⟩ p)).map x.values.element).toArray
      = Routing.gather ([x].map values) (x.shape.set axis length).prod
        ((Parts.parting ⟨blocks.outer, blocks.inner, lengths⟩).source p) := by
    rw [Routing.gather_eq_tabulate, Buffer.tabulate, List.map_map, ← List.toArray_range,
      List.map_toArray]
    rfl
  unfold slice
  rw [fits]
  simp only [Bool.not_true, Bool.false_eq_true, if_false]
  rw [elements]
  dsimp only [bind, Except.bind]
  rw [origins_part wf parted there (Nat.le_refl _)]
  dsimp only
  rw [gathered, ← makePart]
  cases x.makePart axis blocks lengths length p <;> rfl

/-- The gradients of such a slice go back to the places where the part is laid. -/
theorem slice_part_returns {output : Content}
    (made : x.makePart axis blocks lengths length p = .ok output) :
    (Box.rule (Box.part x.shape axis (Size.total (lengths.take p)) length).1).Returns [x] [output]
      fun a => (0, Parts.place ⟨blocks.outer, blocks.inner, lengths⟩ p a.2) := by
  have success := slice_part wf parted there
  rw [made] at success
  obtain ⟨place, run, routed⟩ := slice_routed wf success
  have size : output.count = (x.shape.set axis length).prod := by
    rw [count, (of_make_eq_ok made).2.1, Routing.gather, Buffer.size_tabulate]
  have returns := routed.returns [x] [output] (.cons ⟨wf, rfl, fun _ => rfl⟩ .nil)
    (.cons ⟨wellFormed_of_make made, rfl, fun _ => rfl⟩ .nil)
  refine returns.congr fun a member => congrArg (Prod.mk 0) ?_
  obtain ⟨-, small⟩ := mem_places_singleton.mp member
  -- both are what the rule finds when it looks for the places again
  have same := (origins_part wf parted there (Nat.le_refl _)).symm.trans (run _)
  have each := List.map_inj_left.mp (Except.ok.inj same) a.2
  exact (each (List.mem_range.mpr (size ▸ small))).symm

omit wf parted there in
/-- What a split computes is made part by part. -/
theorem compute_eq_ok_iff_made {d : Computed} :
    (Parts.parting ⟨blocks.outer, blocks.inner, lengths⟩).compute [x]
        (lengths.map (x.shape.set axis ·)) = .ok d
      ↔ ∃ outputs, d = ⟨outputs, (Parts.parting ⟨blocks.outer, blocks.inner, lengths⟩).rule, false⟩
        ∧ List.Forall₂ (fun (entry : Nat × Nat) o =>
          x.makePart axis blocks lengths entry.1 entry.2 = .ok o) lengths.zipIdx outputs := by
  rw [Routing.compute_eq_ok_iff, List.zipIdx_map]
  simp only [List.forall₂_map_left_iff]
  rfl

omit there in
/-- Slices of the boxes compute what the split does, part by part. -/
theorem slices_of_made {outputs : List Content}
    (made : List.Forall₂ (fun (entry : Nat × Nat) o =>
      x.makePart axis blocks lengths entry.1 entry.2 = .ok o) lengths.zipIdx outputs) :
    List.Forall₂ (fun box o => x.slice box.1 box.2 = .ok (.single o (Box.rule box.1)))
      (Box.parts x.shape axis lengths) outputs := by
  rw [Box.parts, List.forall₂_map_left_iff]
  refine forall₂_imp_of_mem made ?_
  rintro ⟨length, p⟩ member output made
  rw [List.mk_mem_zipIdx_iff_getElem?] at member
  exact (slice_part wf parted member).trans (congrArg _ made)

omit there in
/-- Each slice is computed or ended by an element that is not finite; where all are computed, so is
the split. -/
theorem slice_cases :
    (∀ box ∈ Box.parts x.shape axis lengths,
      (∃ o, x.slice box.1 box.2 = .ok (.single o (Box.rule box.1)))
        ∨ x.slice box.1 box.2 = Outcome.stop .nonFinite)
    ∧ (x.values.nonFinite? ≠ none → ∃ box ∈ Box.parts x.shape axis lengths,
        x.slice box.1 box.2 = Outcome.stop .nonFinite) := by
  have each (length p : Nat) (there : lengths[p]? = some length) :
      (∃ o, x.makePart axis blocks lengths length p = .ok o)
        ∨ x.slice (Box.part x.shape axis (Size.total (lengths.take p)) length).1
          (x.shape.set axis length) = Outcome.stop .nonFinite := by
    have among := List.mem_map_of_mem (f := (x.shape.set axis ·)) (List.mem_of_getElem? there)
    rcases make_of_lt (parted.valid _ among) (Buffer.size_tabulate _ _) (parted.small _ among) with
      made | ⟨ended, -⟩
    · exact .inl made
    · exact .inr ((slice_part wf parted there).trans (congrArg _ ended))
  refine ⟨fun box member => ?_, fun infinite => ?_⟩
  · obtain ⟨⟨length, p⟩, entry, rfl⟩ := List.mem_map.mp member
    have there := List.mk_mem_zipIdx_iff_getElem?.mp entry
    refine (each length p there).imp_left ?_
    rintro ⟨o, made⟩
    exact ⟨o, (slice_part wf parted there).trans (congrArg _ made)⟩
  · -- otherwise every part is made, and the split would not end
    by_contra none
    have made : ∀ entry ∈ lengths.zipIdx, ∃ o,
        x.makePart axis blocks lengths entry.1 entry.2 = .ok o := by
      rintro ⟨length, p⟩ member
      refine (each length p (List.mk_mem_zipIdx_iff_getElem?.mp member)).resolve_right ?_
      exact fun ended => none ⟨_, List.mem_map_of_mem member, ended⟩
    obtain ⟨outputs, all, -⟩ := exists_between (Q := fun _ _ => True) <| List.forall₂_same.mpr
      fun entry member => (made entry member).imp fun _ made => ⟨made, trivial⟩
    have success := compute_eq_ok_iff_made.mpr ⟨outputs, rfl, all⟩
    rw [Routing.compute_of_nonFinite parted.exact parted.valid parted.small
      ⟨x, List.mem_singleton_self x, infinite⟩] at success
    cases success

end Content

end LayerNet
