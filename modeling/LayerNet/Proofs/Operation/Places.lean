import LayerNet.Operation.Box
import LayerNet.Operation.Grouping
import LayerNet.Operation.Routing
import LayerNet.Proofs.Operation.Sound
import LayerNet.Proofs.Outcome

/-!
# Operations on places — routings, boxes and groups are sound

A routing's rule gathers, for every operand, as many elements as the operand has, so it is sound
whatever its maps do. Boxes and groups leave rules that add at single positions. There it has to be
seen that the positions lie in the operand: for a box since it fits into the shape
(`Box.origins_spec`), for a group since its members are digits of a position around the axis
(`Grouping.position_lt`).
-/

namespace LayerNet

/-! ## Routings -/

theorem Routing.compute_sound {r : Routing} {inputs : List Content} {shapes : List Shape}
    {c : Computed} (success : r.compute inputs shapes = .ok c) : c.Sound inputs := by
  obtain ⟨outputs, results, success⟩ := Outcome.bind_eq_ok_iff.mp success
  cases success
  refine ⟨fun output member => ?_, fun gradients _ => ⟨_, rfl, ?_⟩⟩
  · obtain ⟨⟨shape, p⟩, -, made⟩ := Outcome.exists_of_mapM_eq_ok results member
    obtain ⟨count, -, made⟩ := Outcome.bind_eq_ok_iff.mp made
    exact Content.wellFormed_of_make made
  · have each : List.Forall₂ (fun (entry : Content × Nat) (input : Content) => entry.1 = input)
        inputs.zipIdx inputs := by
      rw [← List.forall₂_map_left_iff (R := fun a b => a = b), List.zipIdx_map_fst,
        List.forall₂_eq_eq_eq]
    rw [List.forall₂_map_left_iff]
    refine each.imp fun entry input same => ?_
    subst same
    exact Buffer.size_tabulate _ _

namespace Content

variable {x : Content} {c : Computed}

theorem view_sound {shape : Shape} (success : x.view shape = .ok c) : c.Sound [x] := by
  obtain ⟨computed, moved, success⟩ := Outcome.bind_eq_ok_iff.mp success
  cases success
  obtain ⟨outputs, rule⟩ := Routing.compute_sound moved
  exact ⟨outputs, rule⟩

theorem reshaped_sound {shape : Shape} (success : x.reshaped shape = .ok c) : c.Sound [x] := by
  obtain ⟨-, -, success⟩ := Outcome.bind_eq_ok_iff.mp success
  obtain ⟨count, -, success⟩ := Outcome.bind_eq_ok_iff.mp success
  split at success
  · cases success
  · exact view_sound success

theorem squeeze_sound {axis : Int} (success : x.squeeze axis = .ok c) : c.Sound [x] := by
  obtain ⟨axis, -, success⟩ := Outcome.bind_eq_ok_iff.mp success
  dsimp only at success
  split at success
  · cases success
  · split at success
    · cases success
    · exact view_sound success

theorem expand_sound {axis : Int} (success : x.expand axis = .ok c) : c.Sound [x] := by
  obtain ⟨axis, -, success⟩ := Outcome.bind_eq_ok_iff.mp success
  exact view_sound success

theorem concat_sound {xs : List Content} {axis : Int} (success : concat xs axis = .ok c) :
    c.Sound xs := by
  unfold concat at success
  split at success
  · obtain ⟨axis, -, success⟩ := Outcome.bind_eq_ok_iff.mp success
    split at success
    · cases success
    · obtain ⟨blocks, -, success⟩ := Outcome.bind_eq_ok_iff.mp success
      obtain ⟨total, -, success⟩ := Outcome.bind_eq_ok_iff.mp success
      exact Routing.compute_sound success
  · cases success

theorem split_sound {axis : Int} {partition : Partition}
    (success : x.split axis partition = .ok c) : c.Sound [x] := by
  obtain ⟨axis, -, success⟩ := Outcome.bind_eq_ok_iff.mp success
  obtain ⟨lengths, -, success⟩ := Outcome.bind_eq_ok_iff.mp success
  obtain ⟨blocks, -, success⟩ := Outcome.bind_eq_ok_iff.mp success
  exact Routing.compute_sound success

theorem stack_sound {xs : List Content} {axis : Int} (success : stack xs axis = .ok c) :
    c.Sound xs := by
  unfold stack at success
  split at success
  · obtain ⟨axis, -, success⟩ := Outcome.bind_eq_ok_iff.mp success
    split at success
    · cases success
    · obtain ⟨inner, -, success⟩ := Outcome.bind_eq_ok_iff.mp success
      exact Routing.compute_sound success
  · cases success

theorem unstack_sound {axis : Int} (success : x.unstack axis = .ok c) : c.Sound [x] := by
  obtain ⟨axis, -, success⟩ := Outcome.bind_eq_ok_iff.mp success
  split at success
  · cases success
  · obtain ⟨inner, -, success⟩ := Outcome.bind_eq_ok_iff.mp success
    exact Routing.compute_sound success

end Content

/-! ## Boxes -/

/-- Coordinates in a box that fits into a shape lie, moved by the offsets, in the shape. -/
theorem Box.onAxes_of_fits {offsets sizes : List Nat} {shape : Shape}
    (inside : Box.fits offsets sizes shape = true) {indices : List Nat}
    (onAxes : List.Forall₂ (· < ·) indices sizes) :
    List.Forall₂ (· < ·) (List.zipWith (· + ·) indices offsets) shape := by
  unfold fits at inside
  simp only [Bool.and_eq_true, beq_iff_eq, List.all_eq_true, decide_eq_true_eq] at inside
  obtain ⟨⟨rank, rank'⟩, corners⟩ := inside
  induction onAxes generalizing offsets shape with
  | nil =>
    cases shape with
    | nil => exact .nil
    | cons length shape => cases rank'
  | @cons index size indices sizes below onAxes ih =>
    cases shape with
    | nil => cases rank'
    | cons length shape =>
      cases offsets with
      | nil => cases rank
      | cons offset offsets =>
        have corner := corners (offset, size, length) List.mem_cons_self
        refine .cons ?_ (ih (fun entry member => corners entry (List.mem_cons_of_mem _ member))
          (Nat.succ.inj rank) (Nat.succ.inj rank'))
        show index + offset < length
        have : offset + size ≤ length := corner
        omega

/-- Every place of a box that fits into a content has an origin in it, and no two have the same. -/
theorem Box.exists_origin {x : Content} (wf : x.WellFormed) {offsets sizes : List Nat}
    (inside : Box.fits offsets sizes x.shape = true) (inhabited : 0 ∉ sizes) :
    ∃ place : Nat → Nat,
      (∀ count, Box.origins offsets x.strides sizes count = .ok ((List.range count).map place))
        ∧ (∀ i, place i < x.count)
        ∧ ∀ i < sizes.prod, ∀ j < sizes.prod, place i = place j → i = j := by
  choose indices run onAxes using fun i => Shape.coordinates_spec i inhabited
  have moved (i : Nat) := Box.onAxes_of_fits inside (onAxes i)
  refine ⟨fun i => Box.origin offsets x.strides (indices i), fun count => ?_, fun i => ?_, ?_⟩
  · refine Outcome.mapM_eq_ok_iff.mpr ?_
    rw [List.forall₂_map_right_iff, List.forall₂_same]
    intro i _
    rw [run i]
    rfl
  · rw [wf.count]
    exact Shape.position_lt wf.strides (moved i)
  · intro i small j small' same
    have corners := Shape.position_injective wf.strides (moved i) (moved j) same
    have ranks : offsets.length = sizes.length := by
      simp only [fits, Bool.and_eq_true, beq_iff_eq] at inside
      exact inside.1.1.trans inside.1.2.symm
    have both : indices i = indices j := by
      have lengths := (onAxes i).length_eq
      have lengths' := (onAxes j).length_eq
      refine List.ext_getElem (lengths.trans lengths'.symm) fun k small small' => ?_
      have corner := congrArg (fun indices => indices[k]?) corners
      have offset : k < offsets.length := by omega
      simpa [List.getElem?_zipWith, small, small', offset] using corner
    exact Shape.coordinates_injective small small' (run i) (both ▸ run j)

/-- The places of a box that fits into a content are positions in it. -/
theorem Box.origins_spec {x : Content} (wf : x.WellFormed) {offsets sizes : List Nat}
    (inside : Box.fits offsets sizes x.shape = true) (inhabited : 0 ∉ sizes) (count : Nat) :
    ∃ places, Box.origins offsets x.strides sizes count = .ok places
      ∧ ∀ place ∈ places, place < x.count := by
  obtain ⟨place, run, below, -⟩ := Box.exists_origin wf inside inhabited
  refine ⟨_, run count, fun p member => ?_⟩
  obtain ⟨i, -, rfl⟩ := List.mem_map.mp member
  exact below i

theorem Content.slice_sound {x : Content} (wf : x.WellFormed) {offsets sizes : List Nat}
    {c : Computed} (success : x.slice offsets sizes = .ok c) : c.Sound [x] := by
  unfold slice at success
  split at success
  · cases success
  next fits =>
    have inside : Box.fits offsets sizes x.shape = true := by simpa using fits
    obtain ⟨count, -, success⟩ := Outcome.bind_eq_ok_iff.mp success
    obtain ⟨places, -, success⟩ := Outcome.bind_eq_ok_iff.mp success
    obtain ⟨output, made, -⟩ := Outcome.bind_eq_ok_iff.mp success
    have valid : Shape.IsValid sizes := (Content.of_make_eq_ok made).2.2.1
    refine Computed.sound_of_make success fun output gradient _ shaped _ _ => ?_
    obtain ⟨places, run, below⟩ := Box.origins_spec wf inside valid.2 gradient.size
    refine ⟨[.sparse (places.zip gradient.toList)], ?_, .cons ?_ .nil⟩
    · show (Box.origins offsets x.strides output.shape gradient.size >>= fun places =>
        pure [Delta.sparse (places.zip gradient.toList)]) = _
      rw [shaped, run]
      rfl
    · exact fun amount member => below _ (List.of_mem_zip member).1

/-! ## Groups -/

namespace Grouping

variable {x : Content} {g : Grouping} {shape : Shape}

/-- What there is to know of a grouping: its blocks take up the content, its groups the axis, and
its results the shape. -/
theorem of_grouping_eq_ok (wf : x.WellFormed) {axis : Int} {members : Nat} {operation : String}
    (success : x.grouping axis members operation = .ok (g, shape)) :
    x.count = g.blocks.outer * g.blocks.length * g.blocks.inner
      ∧ g.blocks.length = g.groups * g.members ∧ 0 < g.members ∧ shape.prod = g.count := by
  unfold Content.grouping at success
  obtain ⟨axis, -, success⟩ := Outcome.bind_eq_ok_iff.mp success
  obtain ⟨blocks, around, success⟩ := Outcome.bind_eq_ok_iff.mp success
  split at success
  · cases success
  next equal =>
    rw [not_or] at equal
    cases success
    refine ⟨wf.count.trans (Shape.prod_eq around), ?_, Nat.pos_of_ne_zero equal.1,
      Shape.prod_set around _⟩
    exact (Nat.div_mul_cancel (Nat.dvd_of_mod_eq_zero (Classical.not_not.mp equal.2))).symm

/-- Every member of every group is a position of the content: the block, the place on the axis and
the place in the run are its digits. -/
theorem position_lt (whole : x.count = g.blocks.outer * g.blocks.length * g.blocks.inner)
    (axis : g.blocks.length = g.groups * g.members) {result : Nat} (inside : result < g.count)
    {position : Nat} (member : position ∈ g.positions result) : position < x.count := by
  obtain ⟨r, small, rfl⟩ := List.mem_map.mp member
  rw [List.mem_range] at small
  have nonempty : 0 < g.blocks.outer * g.groups * g.blocks.inner := Nat.zero_lt_of_lt inside
  have inner : 0 < g.blocks.inner := Nat.pos_of_mul_pos_left nonempty
  have groups : 0 < g.groups := Nat.pos_of_mul_pos_left (Nat.pos_of_mul_pos_right nonempty)
  have block : result / (g.blocks.inner * g.groups) < g.blocks.outer := by
    refine Nat.div_lt_of_lt_mul (Nat.lt_of_lt_of_eq inside ?_)
    rw [Grouping.count, Nat.mul_comm g.blocks.inner, Nat.mul_comm _ g.blocks.outer, Nat.mul_assoc]
  have place : result / g.blocks.inner % g.groups * g.members + r < g.groups * g.members :=
    mul_add_lt (Nat.mod_lt _ groups) small
  have offset : result % g.blocks.inner < g.blocks.inner := Nat.mod_lt _ inner
  have digits := mul_add_lt (mul_add_lt block (axis ▸ place)) offset
  rw [whole]
  refine Nat.lt_of_le_of_lt (Nat.le_of_eq ?_) digits
  rw [Grouping.first, Nat.add_mul, Nat.add_mul]
  omega

theorem positions_eq_cons (members : 0 < g.members) (result : Nat) :
    g.positions result = g.first result :: (g.positions result).tail := by
  obtain ⟨m, count⟩ : ∃ m, g.members = m + 1 := ⟨_, (Nat.succ_pred_eq_of_pos members).symm⟩
  rw [Grouping.positions, count, List.range_succ_eq_map, List.map_cons, Nat.zero_mul,
    Nat.add_zero, List.tail_cons]

/-- The largest member of a group is a member. -/
theorem largest_mem (members : 0 < g.members) (values : Buffer) (result : Nat) :
    g.largest values result ∈ g.positions result := by
  have best (rest : List Nat) (start : Nat) : rest.foldl
      (fun best i => if values.element best < values.element i then i else best) start
        ∈ start :: rest := by
    induction rest generalizing start with
    | nil => exact List.mem_cons_self
    | cons i rest ih =>
      rw [List.foldl_cons]
      rcases List.mem_cons.mp (ih (if values.element start < values.element i then i else start))
        with same | later
      · rw [same]
        split
        · exact List.mem_cons_of_mem _ List.mem_cons_self
        · exact List.mem_cons_self
      · exact List.mem_cons_of_mem _ (List.mem_cons_of_mem _ later)
  rw [positions_eq_cons members]
  exact best _ _

end Grouping

namespace Content

variable {x : Content} {c : Computed}

theorem maxReduce_sound (wf : x.WellFormed) {axis : Int} {members : Nat}
    (success : x.maxReduce axis members = .ok c) : c.Sound [x] := by
  obtain ⟨⟨g, shape⟩, grouped, success⟩ := Outcome.bind_eq_ok_iff.mp success
  obtain ⟨whole, axis, positive, -⟩ := Grouping.of_grouping_eq_ok wf grouped
  refine Computed.sound_of_make success fun output gradient _ _ _ _ => ?_
  refine ⟨_, rfl, .cons (fun amount member => ?_) .nil⟩
  obtain ⟨result, small, winner⟩ := List.mem_map.mp (List.of_mem_zip member).1
  rw [← winner]
  exact Grouping.position_lt whole axis (List.mem_range.mp small)
    (Grouping.largest_mem positive _ _)

theorem meanReduce_sound (wf : x.WellFormed) {axis : Int} {members : Nat}
    (success : x.meanReduce axis members = .ok c) : c.Sound [x] := by
  obtain ⟨⟨g, shape⟩, grouped, success⟩ := Outcome.bind_eq_ok_iff.mp success
  obtain ⟨whole, axis, -, -⟩ := Grouping.of_grouping_eq_ok wf grouped
  refine Computed.sound_of_make success fun output gradient _ _ _ _ => ?_
  refine ⟨_, rfl, .cons (fun amount member => ?_) .nil⟩
  obtain ⟨result, small, shared⟩ := List.mem_flatMap.mp member
  obtain ⟨position, among, rfl⟩ := List.mem_map.mp shared
  exact Grouping.position_lt whole axis (List.mem_range.mp small) among

end Content

end LayerNet
