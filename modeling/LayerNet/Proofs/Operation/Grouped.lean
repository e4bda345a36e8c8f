import LayerNet.Proofs.Coordinates
import LayerNet.Proofs.Operation.Interleaving
import LayerNet.Proofs.Operation.Parting
import LayerNet.Proofs.Operation.Returns

/-!
# Groups — every element belongs to the group of one result

The first elements of all groups are one of several interleaved members, the second elements are
another, and so on (`Grouping.positions_eq`). So a position is located in one member, at the result
whose group it is in (`Grouping.result`), and it is in no other group (`Grouping.mem_positions`).
From that alone the groups partition the positions (`Grouping.partitions`).

On the way back a result's gradient goes to one position of its group, or in equal shares to all.
Since a position is in one group, at most one amount reaches it, that of its own result
(`Grouping.Partitions.reaching_toLargest`, `Grouping.Partitions.reaching_toMembers`).
-/

namespace LayerNet

namespace Grouping

/-- The result whose group a position is in. -/
def result (g : Grouping) (position : Nat) : Nat :=
  (Stacking.locate ⟨g.blocks.inner, g.members⟩ position).2

/-- The groups partition the positions of a shape, into groups of equal size without repetitions.
And the members of a group are neighbours: their coordinates are those of the result, but for the
axis, where a group takes up as many places as it has members. -/
structure Partitions (g : Grouping) (shape : Shape) (axis : Nat) : Prop where
  members : ∀ r < g.count, (g.positions r).length = g.members ∧ (g.positions r).Nodup
  bounded : ∀ r < g.count, ∀ p ∈ g.positions r, p < shape.prod
  disjoint : ∀ r < g.count, ∀ r' < g.count, r ≠ r' → (g.positions r).Disjoint (g.positions r')
  covers : ∀ p < shape.prod, g.result p < g.count ∧ p ∈ g.positions (g.result p)
  coordinates : ∀ r < g.count, ∃ indices group,
    Shape.coordinates r (shape.set axis g.groups) = .ok indices ∧ indices[axis]? = some group
      ∧ (g.positions r).map (Shape.coordinates · shape)
        = (List.range g.members).map fun k => .ok (indices.set axis (group * g.members + k))

theorem length_positions (g : Grouping) (r : Nat) : (g.positions r).length = g.members := by
  simp [positions]

section Geometry

variable {g : Grouping} (whole : g.blocks.length = g.groups * g.members) (members : 0 < g.members)
include whole members

section Members

variable (inner : 0 < g.blocks.inner)
include inner

/-- A position is in one group, that of the result it is located at. -/
theorem mem_positions {r p : Nat} : p ∈ g.positions r ↔ g.result p = r := by
  rw [positions_eq whole, List.mem_map]
  constructor
  · rintro ⟨k, inside, rfl⟩
    rw [result, Stacking.locate_place _ r (List.mem_range.mp inside) inner]
  · rintro rfl
    exact ⟨_, List.mem_range.mpr (Nat.mod_lt _ members), Stacking.place_locate inner⟩

theorem disjoint_positions {r r' : Nat} (differ : r ≠ r') :
    (g.positions r).Disjoint (g.positions r') := by
  intro p member member'
  rw [mem_positions whole members inner] at member member'
  exact differ (member.symm.trans member')

omit whole members in
theorem nodup_positions (r : Nat) : (g.positions r).Nodup := by
  refine List.nodup_range.map fun k k' same => ?_
  exact Nat.eq_of_mul_eq_mul_right inner (Nat.add_left_cancel same)

omit members in
/-- Where a member of a group lies: in the block of the result, on the axis behind the groups and
the members before it, and in the run where the result is. -/
theorem place_spec {k : Nat} (small : k < g.members) (r : Nat) :
    Stacking.place ⟨g.blocks.inner, g.members⟩ k r / (g.blocks.length * g.blocks.inner)
        = r / (g.groups * g.blocks.inner)
      ∧ Stacking.place ⟨g.blocks.inner, g.members⟩ k r / g.blocks.inner % g.blocks.length
        = r / g.blocks.inner % g.groups * g.members + k
      ∧ Stacking.place ⟨g.blocks.inner, g.members⟩ k r % g.blocks.inner = r % g.blocks.inner := by
  have row := Stacking.place_row ⟨g.blocks.inner, g.members⟩ r small inner
  have column := Stacking.place_column ⟨g.blocks.inner, g.members⟩ r small inner
  dsimp only at row column
  have axis : g.blocks.length = g.members * g.groups := whole.trans (Nat.mul_comm _ _)
  refine ⟨?_, ?_, Stacking.place_mod ⟨g.blocks.inner, g.members⟩ k r⟩
  · rw [axis, Nat.mul_comm, ← Nat.div_div_eq_div_mul, ← Nat.div_div_eq_div_mul, row,
      Nat.div_div_eq_div_mul, Nat.mul_comm g.groups]
  · rw [axis, Nat.mod_mul, row, column, Nat.add_comm, Nat.mul_comm g.members]

end Members

section Around

variable {shape : Shape} {axis : Nat} (around : shape.blocks axis = .ok g.blocks)
  (valid : shape.IsValid)
include around valid

omit members in
/-- No axis is empty, and there are groups on this one. -/
theorem groups_pos : 0 < g.groups ∧ 0 < g.blocks.inner := by
  obtain ⟨found, -, inner⟩ := Shape.blocks_spec around
  have length := Shape.pos_of_getElem? valid.2 found
  rw [whole] at length
  refine ⟨Nat.pos_of_mul_pos_right length, ?_⟩
  rw [inner]
  exact Shape.prod_pos fun member => valid.2 (List.mem_of_mem_drop member)

omit members in
/-- The members of a group have the coordinates of the result, but for the axis. -/
theorem coordinates_positions (r : Nat) : ∃ indices group,
    Shape.coordinates r (shape.set axis g.groups) = .ok indices ∧ indices[axis]? = some group
      ∧ (g.positions r).map (Shape.coordinates · shape)
        = (List.range g.members).map fun k => .ok (indices.set axis (group * g.members + k)) := by
  obtain ⟨found, -, behind⟩ := Shape.blocks_spec around
  obtain ⟨inside, -⟩ := List.getElem?_eq_some_iff.mp found
  obtain ⟨groups, inner⟩ := groups_pos whole around valid
  have here := Shape.getElem?_digits (List.getElem?_set_self inside (a := g.groups)) r
  rw [List.drop_set_of_lt (Nat.lt_add_one axis), ← behind] at here
  refine ⟨_, _, Shape.coordinates_eq_digits r (valid.set axis groups).2, here, ?_⟩
  rw [positions_eq whole, List.map_map]
  refine List.map_congr_left fun k small => ?_
  obtain ⟨block, digit, offset⟩ := place_spec whole inner (List.mem_range.mp small) r
  rw [behind] at block digit offset
  have digits := Shape.digits_set found g.groups block offset
  rw [digit, ← behind] at digits
  rw [← digits]
  exact Shape.coordinates_eq_digits _ valid.2

omit members valid in
/-- The groups of all results take up the shape. -/
theorem prod_eq_groups : shape.prod = g.blocks.outer * g.groups * g.members * g.blocks.inner := by
  rw [Shape.prod_eq around, whole, ← Nat.mul_assoc]

omit valid in
theorem count_le : g.count ≤ shape.prod := by
  rw [prod_eq_groups whole around, count]
  exact Nat.mul_le_mul_right _ (Nat.le_mul_of_pos_right _ members)

/-- The groups partition the positions of the shape. -/
theorem partitions : g.Partitions shape axis := by
  obtain ⟨-, positive⟩ := groups_pos whole around valid
  have prod := prod_eq_groups whole around
  refine ⟨fun r _ => ⟨g.length_positions r, nodup_positions positive r⟩, fun r small p member => ?_,
    fun r _ r' _ differ => disjoint_positions whole members positive differ, fun p small => ?_,
    fun r _ => coordinates_positions whole around valid r⟩
  · rw [positions_eq whole] at member
    obtain ⟨k, inside, rfl⟩ := List.mem_map.mp member
    rw [prod]
    exact Stacking.place_lt (l := ⟨g.blocks.inner, g.members⟩) (List.mem_range.mp inside) small
  · rw [prod] at small
    obtain ⟨-, within⟩ := Stacking.locate_lt (l := ⟨g.blocks.inner, g.members⟩) small
    exact ⟨within, (mem_positions whole members positive).mpr rfl⟩

end Around

end Geometry

/-! ## Amounts -/

/-- The gradient of each result, for the largest of its group. -/
def toLargest (g : Grouping) (values gradient : Buffer) : Delta :=
  .sparse (((List.range g.count).map (g.largest values)).zip gradient.toList)

/-- The gradient of each result, in equal shares for the members of its group. -/
def toMembers (g : Grouping) (gradient : Buffer) : Delta :=
  .sparse ((List.range g.count).flatMap fun r =>
    (g.positions r).map fun i => (i, gradient.element r * (1 / Float32.ofNat g.members)))

namespace Partitions

variable {g : Grouping} {shape : Shape} {axis : Nat} (partitions : g.Partitions shape axis)
include partitions

/-- A position is in no group but that of its result. -/
theorem result_eq {r p : Nat} (small : r < g.count) (member : p ∈ g.positions r) :
    g.result p = r := by
  obtain ⟨inside, among⟩ := partitions.covers p (partitions.bounded r small p member)
  by_contra differ
  exact partitions.disjoint _ inside _ small differ among member

/-- All groups, one after the other, have no position twice. -/
theorem nodup_groups : ((List.range g.count).flatMap g.positions).Nodup := by
  rw [List.nodup_flatMap]
  constructor
  · intro r inside
    exact (partitions.members r (List.mem_range.mp inside)).2
  · refine List.nodup_range.imp_of_mem fun {r r'} inside inside' differ => ?_
    exact partitions.disjoint r (List.mem_range.mp inside) r' (List.mem_range.mp inside') differ

section Largest

variable (some : 0 < g.members) (values : Buffer) {gradient : Buffer}
include some

theorem fits_toLargest {x : Content} (count : x.count = shape.prod) :
    (g.toLargest values gradient).Fits x := by
  intro amount member
  obtain ⟨r, small, winner⟩ := List.mem_map.mp (List.of_mem_zip member).1
  rw [← winner, count]
  exact partitions.bounded r (List.mem_range.mp small) _ (largest_mem some values r)

/-- The largest of a group gets the gradient of the result, and no other member gets any. -/
theorem reaching_toLargest (size : gradient.size = g.count) {j : Nat} (inside : j < shape.prod) :
    (g.toLargest values gradient).reaching j
      = if g.largest values (g.result j) = j then [gradient.element (g.result j)] else [] := by
  have own {r : Nat} (small : r < g.count) : g.result (g.largest values r) = r :=
    partitions.result_eq small (largest_mem some values r)
  unfold toLargest
  rw [← size, reaching_zip, size]
  split
  next wins =>
    have within := (partitions.covers j inside).1
    rw [filter_eq_singleton List.nodup_range (List.mem_range.mpr within), List.map_singleton]
    intro r small
    rw [decide_eq_true_eq]
    constructor
    · rintro rfl
      exact (own (List.mem_range.mp small)).symm
    · rintro rfl
      exact wins
  next loses =>
    rw [List.filter_eq_nil_iff.mpr, List.map_nil]
    intro r small same
    rw [decide_eq_true_eq] at same
    subst same
    exact loses (congrArg (g.largest values) (own (List.mem_range.mp small)))

end Largest

theorem fits_toMembers {x : Content} (count : x.count = shape.prod) (gradient : Buffer) :
    (g.toMembers gradient).Fits x := by
  intro amount member
  obtain ⟨r, small, member⟩ := List.mem_flatMap.mp member
  obtain ⟨p, among, rfl⟩ := List.mem_map.mp member
  rw [count]
  exact partitions.bounded r (List.mem_range.mp small) p among

/-- Every position gets one share of the gradient of its result. -/
theorem reaching_toMembers (gradient : Buffer) {j : Nat} (inside : j < shape.prod) :
    (g.toMembers gradient).reaching j
      = [gradient.element (g.result j) * (1 / Float32.ofNat g.members)] := by
  unfold toMembers
  generalize 1 / Float32.ofNat g.members = share
  obtain ⟨within, among⟩ := partitions.covers j inside
  have firsts : ((List.range g.count).flatMap fun r =>
      (g.positions r).map fun i => (i, gradient.element r * share)).map Prod.fst
        = (List.range g.count).flatMap g.positions := by
    simp [List.map_flatMap, Function.comp_def]
  have distinct := List.Nodup.of_map Prod.fst (firsts ▸ partitions.nodup_groups)
  have member : (j, gradient.element (g.result j) * share) ∈ (List.range g.count).flatMap fun r =>
      (g.positions r).map fun i => (i, gradient.element r * share) :=
    List.mem_flatMap.mpr ⟨_, List.mem_range.mpr within, List.mem_map_of_mem among⟩
  rw [Delta.reaching, filter_eq_singleton distinct member, List.map_singleton]
  intro amount given
  obtain ⟨r, small, given⟩ := List.mem_flatMap.mp given
  obtain ⟨i, here, rfl⟩ := List.mem_map.mp given
  obtain rfl := partitions.result_eq (List.mem_range.mp small) here
  simp +contextual [eq_comm]

end Partitions

end Grouping

namespace Content

variable {x : Content} {axis members : Nat} {b : Shape.Blocks}
  (around : x.shape.blocks axis = .ok b) (some : 0 < members) (even : members ∣ b.length)
include around some even

/-- A number of members that divides the axis is accepted. -/
theorem grouping_eq (operation : String) : x.grouping axis members operation
    = .ok (⟨b, members⟩, x.shape.set axis (b.length / members)) := by
  obtain ⟨found, -, -⟩ := Shape.blocks_spec around
  obtain ⟨inside, -⟩ := List.getElem?_eq_some_iff.mp found
  have equal : ¬(members = 0 ∨ b.length % members ≠ 0) := by
    simp [Nat.ne_of_gt some, Nat.mod_eq_zero_of_dvd even]
  unfold grouping
  rw [Shape.axis_eq_ok (show axis < x.shape.rank from inside)]
  dsimp only [bind, Except.bind]
  rw [around]
  dsimp only
  rw [if_neg equal]
  rfl

theorem maxReduce_eq : x.maxReduce axis members
    = (Computed.single · fun seen =>
        .ok [Grouping.toLargest ⟨b, members⟩ x.values (seen.gradient 0)])
      <$> make (Buffer.tabulate (Grouping.count ⟨b, members⟩) fun r =>
        x.values.element (Grouping.largest ⟨b, members⟩ x.values r))
      (x.shape.set axis (b.length / members)) := by
  unfold maxReduce
  rw [grouping_eq around some even]
  dsimp only [bind, Except.bind]
  rw [List.map_map, Buffer.tabulate, ← List.toArray_range, List.map_toArray]
  rfl

theorem meanReduce_eq : x.meanReduce axis members
    = (Computed.single · fun seen =>
        .ok [Grouping.toMembers ⟨b, members⟩ (seen.gradient 0)])
      <$> make (Buffer.tabulate (Grouping.count ⟨b, members⟩)
        (Grouping.mean ⟨b, members⟩ x.values)) (x.shape.set axis (b.length / members)) := by
  unfold meanReduce
  rw [grouping_eq around some even]
  rfl

end Content

end LayerNet
