import LayerNet.Proofs.Operation.Routed
import LayerNet.Proofs.Operation.SampleAxes
import LayerNet.Proofs.Operation.Shapes

/-!
# Exact routings — every element goes somewhere and comes from there

The elements of several contents are places: pairs of an argument number and a flat position
(`places`). A routing is exact for operands and results of given sizes when its two maps lead from
places to places, each back to where the other came from (`Routing.Exact`). So it is a bijection,
and backwards it is exact too.

Laying parts side by side is exact since the parts of an outer block fill it without a gap
(`Parts.find_start`, `Parts.start_find`, both by recursion along the lengths), stacking since a
position of the stack is made of three digits. What an exact routing computes is `MovedBy` it, and
every operation that only moves elements and is no slice computes that.
-/

namespace LayerNet

/-! ## Places -/

/-- The elements of contents of the given sizes, one content after the other. -/
def places (counts : List Nat) : List (Nat × Nat) :=
  counts.zipIdx.flatMap fun (count, p) => (List.range count).map (p, ·)

theorem mem_places {counts : List Nat} {a : Nat × Nat} :
    a ∈ places counts ↔ ∃ count, counts[a.1]? = some count ∧ a.2 < count := by
  obtain ⟨p, i⟩ := a
  simp only [places, List.mem_flatMap, List.mem_map, List.mem_range, Prod.exists, Prod.mk.injEq,
    List.mk_mem_zipIdx_iff_getElem?]
  constructor
  · rintro ⟨count, _, there, _, small, rfl, rfl⟩
    exact ⟨count, there, small⟩
  · rintro ⟨count, there, small⟩
    exact ⟨count, p, there, i, small, rfl, rfl⟩

theorem mem_places_singleton {count : Nat} {a : Nat × Nat} :
    a ∈ places [count] ↔ a.1 = 0 ∧ a.2 < count := by
  obtain ⟨p, i⟩ := a
  rw [mem_places]
  cases p <;> simp

theorem nodup_places (counts : List Nat) : (places counts).Nodup := by
  refine List.pairwise_flatMap.mpr ⟨fun entry _ => ?_, ?_⟩
  · refine List.pairwise_map.mpr (List.nodup_range.imp fun {i j} other same => ?_)
    exact other (Prod.mk.inj same).2
  · have numbers : counts.zipIdx.Pairwise fun a b => a.2 ≠ b.2 := by
      rw [← List.pairwise_map, List.zipIdx_map_snd]
      exact List.nodup_range'
    refine numbers.imp fun {a b} other place here place' there same => ?_
    obtain ⟨i, -, rfl⟩ := List.mem_map.mp here
    obtain ⟨j, -, rfl⟩ := List.mem_map.mp there
    exact other (Prod.mk.inj same).1

/-! ## Exactness -/

namespace Routing

/-- Where an element of the results comes from. -/
def origin (r : Routing) (a : Nat × Nat) : Nat × Nat := r.source a.1 a.2

/-- Where an element of the operands goes. -/
def goal (r : Routing) (a : Nat × Nat) : Nat × Nat := r.target a.1 a.2

/-- Between operands and results of these sizes, the two maps of a routing are each other's
inverse. -/
structure Exact (r : Routing) (operands results : List Nat) : Prop where
  origin : ∀ a ∈ places results, r.origin a ∈ places operands ∧ r.goal (r.origin a) = a
  goal : ∀ a ∈ places operands, r.goal a ∈ places results ∧ r.origin (r.goal a) = a

theorem Exact.reverse {r : Routing} {operands results : List Nat}
    (exact : r.Exact operands results) : r.reverse.Exact results operands where
  origin := exact.goal
  goal := exact.origin

theorem exact_identity (counts : List Nat) : identity.Exact counts counts where
  origin _ member := ⟨member, rfl⟩
  goal _ member := ⟨member, rfl⟩

end Routing

/-! ## Parts side by side -/

namespace Parts

/-- A position of the run of a part is found there. -/
theorem find_start {inner part offset length : Nat} {lengths : List Nat}
    (there : lengths[part]? = some length) (small : offset < length * inner) :
    find inner lengths (Size.total (lengths.take part) * inner + offset) = (part, offset) := by
  induction lengths generalizing part with
  | nil => cases there
  | cons first rest ih =>
    unfold find
    cases part with
    | zero =>
      cases there
      rw [List.take_zero, Size.total, Nat.zero_mul, Nat.zero_add, if_pos small]
    | succ part =>
      rw [List.take_succ_cons, Size.total, Nat.add_mul, Nat.add_assoc, if_neg (by omega),
        Nat.add_sub_cancel_left, ih there]

/-- Where a position of an outer block is found, it is as far into the block as that. -/
theorem start_find {inner position : Nat} {lengths : List Nat}
    (inside : position < Size.total lengths * inner) :
    Size.total (lengths.take (find inner lengths position).1) * inner
      + (find inner lengths position).2 = position := by
  induction lengths generalizing position with
  | nil =>
    rw [Size.total, Nat.zero_mul] at inside
    cases inside
  | cons first rest ih =>
    rw [Size.total, Nat.add_mul] at inside
    unfold find
    split
    · rw [List.take_zero, Size.total, Nat.zero_mul, Nat.zero_add]
    · have behind : position - first * inner < Size.total rest * inner := by omega
      have later := ih behind
      dsimp only
      rw [List.take_succ_cons, Size.total, Nat.add_mul]
      omega

/-- A part ends within its outer block. -/
theorem start_add_lt {l : Parts} {part offset length : Nat}
    (there : l.lengths[part]? = some length) (small : offset < length * l.inner) :
    l.start part + offset < l.row := by
  have run := Size.total_take_add_le there
  calc l.start part + offset < l.start part + length * l.inner := Nat.add_lt_add_left small _
    _ = (Size.total (l.lengths.take part) + length) * l.inner := by rw [start, Nat.add_mul]
    _ ≤ l.row := Nat.mul_le_mul_right l.inner run

variable {l : Parts} {outer : Nat}

/-- An element of the whole is where its part is laid. -/
theorem place_locate {i : Nat} (small : i < outer * l.row) :
    l.place (l.locate i).1 (l.locate i).2 = i := by
  have positive : 0 < l.row := Nat.pos_of_mul_pos_left (Nat.zero_lt_of_lt small)
  have inside : i % l.row < Size.total l.lengths * l.inner := Nat.mod_lt i positive
  obtain ⟨length, there, within⟩ := find_spec inside
  have run : l.run (find l.inner l.lengths (i % l.row)).1 = length * l.inner := by
    rw [Parts.run, List.getD_eq_getElem?_getD, there]
    rfl
  have block := start_find inside
  unfold place locate start
  dsimp only
  rw [run, add_div_of_moved (Nat.zero_lt_of_lt within), Nat.div_eq_of_lt within, Nat.add_zero,
    Nat.mul_add_mod', Nat.mod_eq_of_lt within, Nat.add_assoc, block, Nat.div_add_mod']

/-- An element of a part is found where it is laid. -/
theorem locate_place {part position length : Nat} (there : l.lengths[part]? = some length)
    (small : position < outer * (length * l.inner)) :
    l.place part position < outer * l.row
      ∧ l.locate (l.place part position) = (part, position) := by
  have run : l.run part = length * l.inner := by
    rw [Parts.run, List.getD_eq_getElem?_getD, there]
    rfl
  have positive : 0 < length * l.inner := Nat.pos_of_mul_pos_left (Nat.zero_lt_of_lt small)
  have offset : position % (length * l.inner) < length * l.inner := Nat.mod_lt position positive
  have block : l.start part + position % (length * l.inner) < l.row := start_add_lt there offset
  have row : position / (length * l.inner) < outer :=
    Nat.div_lt_of_lt_mul (Nat.mul_comm _ _ ▸ small)
  have laid : l.place part position = position / (length * l.inner) * l.row
      + (l.start part + position % (length * l.inner)) := by
    rw [place, run, Nat.add_assoc]
  have found : find l.inner l.lengths (l.start part + position % (length * l.inner))
      = (part, position % (length * l.inner)) := find_start there offset
  refine ⟨laid ▸ mul_add_lt row block, ?_⟩
  unfold locate
  rw [laid, add_div_of_moved (Nat.zero_lt_of_lt block), Nat.div_eq_of_lt block, Nat.add_zero,
    Nat.mul_add_mod', Nat.mod_eq_of_lt block, found]
  dsimp only
  rw [run, Nat.div_add_mod']

/-- Laying parts side by side is exact. -/
theorem exact_joining (l : Parts) (outer : Nat) : l.joining.Exact
    (l.lengths.map fun length => outer * (length * l.inner)) [outer * l.row] where
  origin a member := by
    obtain ⟨p, i⟩ := a
    obtain ⟨rfl, small⟩ := mem_places_singleton.mp member
    refine ⟨mem_places.mpr ?_, congrArg (Prod.mk 0) (place_locate small)⟩
    obtain ⟨length, there, -, within⟩ := locate_spec small
    exact ⟨_, by rw [List.getElem?_map]; exact congrArg _ there, within⟩
  goal a member := by
    obtain ⟨p, j⟩ := a
    obtain ⟨count, there, small⟩ := mem_places.mp member
    rw [List.getElem?_map, Option.map_eq_some_iff] at there
    obtain ⟨length, there, rfl⟩ := there
    obtain ⟨inside, found⟩ := locate_place there small
    exact ⟨mem_places_singleton.mpr ⟨rfl, inside⟩, found⟩

end Parts

/-! ## Members interleaved -/

namespace Stacking

variable {l : Stacking}

/-- An element of the stack is where its member is laid. -/
theorem place_locate {i : Nat} (positive : 0 < l.inner) :
    l.place (l.locate i).1 (l.locate i).2 = i := by
  unfold place locate
  dsimp only
  rw [Nat.mul_comm (i / _), Nat.mul_add_div positive, Nat.mul_add_mod,
    Nat.div_eq_of_lt (Nat.mod_lt i positive), Nat.add_zero, Nat.mod_mod, ← Nat.div_div_eq_div_mul,
    Nat.div_add_mod', Nat.div_add_mod']

/-- An element of the stack is an element of a member. -/
theorem locate_lt {outer i : Nat} (small : i < outer * l.members * l.inner) :
    (l.locate i).1 < l.members ∧ (l.locate i).2 < outer * l.inner := by
  have nonempty := Nat.zero_lt_of_lt small
  have inner : 0 < l.inner := Nat.pos_of_mul_pos_left nonempty
  have members : 0 < l.members := Nat.pos_of_mul_pos_left (Nat.pos_of_mul_pos_right nonempty)
  refine ⟨Nat.mod_lt _ members, mul_add_lt (Nat.div_lt_of_lt_mul ?_) (Nat.mod_lt i inner)⟩
  rw [Nat.mul_comm l.inner, Nat.mul_comm _ outer, ← Nat.mul_assoc]
  exact small

/-- An element of a member lies in the stack. -/
theorem place_lt {outer member i : Nat} (inside : member < l.members)
    (small : i < outer * l.inner) : l.place member i < outer * l.members * l.inner := by
  have inner : 0 < l.inner := Nat.pos_of_mul_pos_left (Nat.zero_lt_of_lt small)
  refine mul_add_lt (mul_add_lt (Nat.div_lt_of_lt_mul ?_) inside) (Nat.mod_lt i inner)
  rw [Nat.mul_comm]
  exact small

/-- Stacking members of equal size is exact. -/
theorem exact_joining (l : Stacking) (outer : Nat) : l.joining.Exact
    (List.replicate l.members (outer * l.inner)) [outer * l.members * l.inner] where
  origin a member := by
    obtain ⟨p, i⟩ := a
    obtain ⟨rfl, small⟩ := mem_places_singleton.mp member
    have inner : 0 < l.inner := Nat.pos_of_mul_pos_left (Nat.zero_lt_of_lt small)
    obtain ⟨inside, within⟩ := locate_lt small
    refine ⟨mem_places.mpr ⟨outer * l.inner, ?_, within⟩, congrArg (Prod.mk 0) (place_locate inner)⟩
    exact List.getElem?_replicate_of_lt inside
  goal a member := by
    obtain ⟨p, j⟩ := a
    obtain ⟨count, there, small⟩ := mem_places.mp member
    obtain ⟨inside, same⟩ := List.getElem?_eq_some_iff.mp there
    rw [List.getElem_replicate] at same
    rw [List.length_replicate] at inside
    subst same
    have inner : 0 < l.inner := Nat.pos_of_mul_pos_left (Nat.zero_lt_of_lt small)
    exact ⟨mem_places_singleton.mpr ⟨rfl, place_lt inside small⟩, l.locate_place j inside inner⟩

end Stacking

/-! ## What is moved -/

/-- The results are the operands' elements, moved along an exact routing whose rule is left
behind. -/
structure Computed.MovedBy (r : Routing) (inputs : List Content) (c : Computed) : Prop where
  rule : c.rule = r.rule
  exact : r.Exact (inputs.map Content.count) (c.outputs.map Content.count)
  values : ∀ a ∈ places (c.outputs.map Content.count),
    Routing.fetch (c.outputs.map Content.values) a
      = Routing.fetch (inputs.map Content.values) (r.origin a)

theorem Routing.fetch_of_getElem? {contents : List Content} {p i : Nat} {c : Content}
    (there : contents[p]? = some c) :
    fetch (contents.map Content.values) (p, i) = c.values.element i := by
  rw [fetch, List.getD_eq_getElem?_getD, List.getElem?_map, there]
  rfl

/-- What an exact routing computes is moved along it. -/
theorem Routing.compute_movedBy {r : Routing} {inputs : List Content} {shapes : List Shape}
    {c : Computed} (exact : r.Exact (inputs.map Content.count) (shapes.map List.prod))
    (success : r.compute inputs shapes = .ok c) : c.MovedBy r inputs := by
  obtain ⟨outputs, rfl, made⟩ := compute_eq_ok_iff.mp success
  have counts : outputs.map Content.count = shapes.map List.prod := by
    have pairs : List.Forall₂ (fun (s : Shape × Nat) (o : Content) => s.1.prod = o.count)
        shapes.zipIdx outputs := made.imp fun s o made => by
      rw [Content.count, (Content.of_make_eq_ok made).2.1, gather, Buffer.size_tabulate]
    have firsts : shapes.zipIdx.map (fun s => s.1.prod) = shapes.map List.prod := by
      conv_rhs => rw [← List.zipIdx_map_fst 0 shapes, List.map_map]
      rfl
    rw [← firsts, eq_comm, ← List.forall₂_eq_eq_eq, List.forall₂_map_left_iff,
      List.forall₂_map_right_iff]
    exact pairs
  refine ⟨rfl, counts ▸ exact, fun a member => ?_⟩
  obtain ⟨p, i⟩ := a
  obtain ⟨count, there, small⟩ := mem_places.mp member
  rw [List.getElem?_map, Option.map_eq_some_iff] at there
  obtain ⟨o, there, rfl⟩ := there
  obtain ⟨⟨shape, q⟩, entry, made⟩ := exists_rel_of_getElem? made.flip there
  rw [List.getElem?_zipIdx, Option.map_eq_some_iff] at entry
  obtain ⟨_, -, same⟩ := entry
  obtain ⟨rfl, rfl⟩ := Prod.mk.inj same
  obtain ⟨-, valued, -⟩ := Content.of_make_eq_ok made
  rw [fetch_of_getElem? there]
  rw [Content.count, valued, gather, Buffer.size_tabulate] at small
  rw [valued, gather_eq_tabulate, Buffer.element_tabulate _ small, Nat.zero_add]
  rfl

theorem Shape.axis_eq_ok_iff {axis : Int} {bound a : Nat} {operation : String} :
    Shape.axis axis bound operation = .ok a ↔ axis = a ∧ a < bound := by
  constructor
  · intro success
    obtain ⟨n, rfl⟩ : ∃ n : Nat, axis = n := by
      unfold Shape.axis at success
      split at success
      · cases success
      · exact ⟨axis.toNat, by omega⟩
    obtain ⟨rfl, inside⟩ := of_axis_eq_ok success
    exact ⟨rfl, inside⟩
  · rintro ⟨rfl, inside⟩
    exact axis_eq_ok inside operation

/-- The lengths of the parts of an axis add up to its length. -/
theorem Partition.total_lengths {partition : Partition} {shape : Shape} {axis : Nat}
    {lengths : List Nat} (success : partition.lengths shape axis = .ok lengths) :
    Size.total lengths = shape.extent axis := by
  cases partition with
  | sizes ns =>
    unfold Partition.lengths at success
    dsimp only at success
    split at success
    · cases success
    · obtain ⟨total, sum, success⟩ := Outcome.bind_eq_ok_iff.mp success
      split at success
      · cases success
      next same =>
        cases success
        rw [← Size.sum_eq_ok sum]
        exact Classical.not_not.mp same
  | equal n =>
    unfold Partition.lengths at success
    dsimp only at success
    split at success
    · cases success
    next even =>
      cases success
      rw [not_or, Classical.not_not] at even
      rw [Size.total_replicate, Nat.mul_div_cancel' (Nat.dvd_of_mod_eq_zero even.2)]

namespace Content

variable {x : Content} {c : Computed}

theorem copy_movedBy (wf : x.WellFormed) (success : x.copy = .ok c) :
    c.MovedBy .identity [x] := by
  refine Routing.compute_movedBy ?_ success
  rw [List.map_singleton, List.map_singleton, wf.count]
  exact Routing.exact_identity _

theorem view_movedBy {shape : Shape} (count : shape.prod = x.count)
    (success : x.view shape = .ok c) : c.MovedBy .identity [x] := by
  obtain ⟨computed, moved, success⟩ := Outcome.bind_eq_ok_iff.mp success
  cases success
  have exact : Routing.identity.Exact ([x].map Content.count) ([shape].map List.prod) := by
    rw [List.map_singleton, List.map_singleton, count]
    exact Routing.exact_identity _
  obtain ⟨rule, exact, values⟩ := Routing.compute_movedBy exact moved
  exact ⟨rule, exact, values⟩

theorem reshaped_movedBy {shape : Shape} (success : x.reshaped shape = .ok c) :
    c.MovedBy .identity [x] := by
  obtain ⟨-, -, success⟩ := Outcome.bind_eq_ok_iff.mp success
  obtain ⟨count, elements, success⟩ := Outcome.bind_eq_ok_iff.mp success
  split at success
  · cases success
  next same =>
    refine view_movedBy ?_ success
    rw [← Size.product_eq_ok elements]
    exact Classical.not_not.mp same

theorem squeeze_movedBy (wf : x.WellFormed) {axis : Int} (success : x.squeeze axis = .ok c) :
    c.MovedBy .identity [x] := by
  obtain ⟨a, there, success⟩ := Outcome.bind_eq_ok_iff.mp success
  obtain ⟨-, inside⟩ := Shape.axis_eq_ok_iff.mp there
  dsimp only at success
  split at success
  · cases success
  next unit =>
    split at success
    · cases success
    · refine view_movedBy ?_ success
      have inside : a < x.shape.length := inside
      have length : x.shape[a] = 1 := by
        rw [Classical.not_not, Shape.extent_of_getElem? (List.getElem?_eq_getElem inside)] at unit
        exact unit
      rw [wf.count, ← List.mul_prod_eraseIdx inside fun _ _ => Commute.all _ _, length, Nat.one_mul]

theorem expand_movedBy (wf : x.WellFormed) {axis : Int} (success : x.expand axis = .ok c) :
    c.MovedBy .identity [x] := by
  obtain ⟨a, there, success⟩ := Outcome.bind_eq_ok_iff.mp success
  obtain ⟨-, inside⟩ := Shape.axis_eq_ok_iff.mp there
  refine view_movedBy ?_ success
  rw [wf.count, List.prod_insertIdx (Nat.lt_succ_iff.mp inside) fun _ _ => Commute.all _ _,
    Nat.one_mul]

/-- A joining moves the elements of parts laid side by side. -/
theorem concat_movedBy {xs : List Content} (wf : ∀ x ∈ xs, x.WellFormed) {axis : Int}
    (success : concat xs axis = .ok c) : ∃ (first : Content) (a : Nat) (blocks : Shape.Blocks),
      xs.head? = some first ∧ axis = a ∧ first.shape.blocks a = .ok blocks
        ∧ c.MovedBy (Parts.joining ⟨blocks.outer, blocks.inner, xs.map fun x => x.shape.extent a⟩)
          xs := by
  match xs with
  | [] => cases success
  | first :: rest =>
    obtain ⟨a, there, -⟩ := Outcome.bind_eq_ok_iff.mp success
    obtain ⟨rfl, inside⟩ := Shape.axis_eq_ok_iff.mp there
    obtain ⟨-, alike, blocks, around⟩ := of_concat_eq_ok success
    rw [concat_eq inside alike around rfl] at success
    obtain ⟨total, sum, success⟩ := Outcome.bind_eq_ok_iff.mp success
    refine ⟨first, a, blocks, rfl, rfl, around, Routing.compute_movedBy ?_ success⟩
    have exact := Parts.exact_joining
      ⟨blocks.outer, blocks.inner, (first :: rest).map fun x => x.shape.extent a⟩ blocks.outer
    have whole : List.prod (first.shape.set a total)
        = blocks.outer * Parts.row ⟨blocks.outer, blocks.inner,
          (first :: rest).map fun x => x.shape.extent a⟩ := by
      rw [Shape.prod_set around, Size.sum_eq_ok sum, Parts.row, Nat.mul_assoc]
    have parts : (first :: rest).map Content.count = ((first :: rest).map fun x =>
        x.shape.extent a).map fun length => blocks.outer * (length * blocks.inner) := by
      rw [List.map_map]
      refine List.map_congr_left fun x member => ?_
      obtain ⟨length, shaped⟩ := (agreeExcept_iff inside).mp (alike x member)
      rw [(wf x member).count, Function.comp_apply, shaped, Shape.prod_set around,
        Shape.extent_of_getElem? (List.getElem?_set_self inside), Nat.mul_assoc]
    rw [parts, List.map_singleton, whole]
    exact exact

/-- Parts that take up the length of an axis leave no element out. -/
theorem exact_parting (wf : x.WellFormed) {axis : Nat} {partition : Partition} {lengths : List Nat}
    {blocks : Shape.Blocks} (parted : partition.lengths x.shape axis = .ok lengths)
    (around : x.shape.blocks axis = .ok blocks) :
    (Parts.parting ⟨blocks.outer, blocks.inner, lengths⟩).Exact ([x].map Content.count)
      ((lengths.map (x.shape.set axis ·)).map List.prod) := by
  have exact := (Parts.exact_joining ⟨blocks.outer, blocks.inner, lengths⟩ blocks.outer).reverse
  have whole : x.count = blocks.outer * Parts.row ⟨blocks.outer, blocks.inner, lengths⟩ := by
    rw [wf.count, Shape.prod_eq around, Parts.row, Partition.total_lengths parted,
      Shape.extent_of_getElem? (Shape.blocks_spec around).1, Nat.mul_assoc]
  have parts : (lengths.map (x.shape.set axis ·)).map List.prod
      = lengths.map fun length => blocks.outer * (length * blocks.inner) := by
    rw [List.map_map]
    refine List.map_congr_left fun length _ => ?_
    rw [Function.comp_apply, Shape.prod_set around, Nat.mul_assoc]
  rw [parts, List.map_singleton, whole]
  exact exact

/-- A split moves the elements to parts that were side by side. -/
theorem split_movedBy (wf : x.WellFormed) {axis : Int} {partition : Partition}
    (success : x.split axis partition = .ok c) :
    ∃ (a : Nat) (lengths : List Nat) (blocks : Shape.Blocks), axis = a
      ∧ partition.lengths x.shape a = .ok lengths ∧ x.shape.blocks a = .ok blocks
      ∧ c.MovedBy (Parts.parting ⟨blocks.outer, blocks.inner, lengths⟩) [x] := by
  obtain ⟨a, there, moved⟩ := Outcome.bind_eq_ok_iff.mp success
  obtain ⟨rfl, inside⟩ := Shape.axis_eq_ok_iff.mp there
  obtain ⟨lengths, parted, moved⟩ := Outcome.bind_eq_ok_iff.mp moved
  obtain ⟨blocks, around, moved⟩ := Outcome.bind_eq_ok_iff.mp moved
  exact ⟨a, lengths, blocks, rfl, parted, around,
    Routing.compute_movedBy (exact_parting wf parted around) moved⟩

/-- Members of one shape leave no element of a stack out. -/
theorem exact_stacking {xs : List Content} (wf : ∀ x ∈ xs, x.WellFormed) {shape : Shape}
    (alike : ∀ x ∈ xs, x.shape = shape) {axis : Nat} (inside : axis ≤ shape.rank) :
    (Stacking.joining ⟨(shape.drop axis).prod, xs.length⟩).Exact (xs.map Content.count)
      ([(shape.insertIdx axis xs.length : Shape)].map List.prod) := by
  have halves : (shape.take axis).prod * (shape.drop axis).prod = shape.prod :=
    List.prod_take_mul_prod_drop _ _
  have whole : List.prod (shape.insertIdx axis xs.length)
      = (shape.take axis).prod * xs.length * (shape.drop axis).prod := by
    rw [List.prod_insertIdx inside fun _ _ => Commute.all _ _, ← halves,
      Nat.mul_right_comm, Nat.mul_comm]
  have members : xs.map Content.count = List.replicate xs.length
      ((shape.take axis).prod * (shape.drop axis).prod) := by
    refine List.eq_replicate_iff.mpr ⟨List.length_map _, fun count member => ?_⟩
    obtain ⟨x, among, rfl⟩ := List.mem_map.mp member
    rw [(wf x among).count, alike x among, halves]
  rw [members, List.map_singleton, whole]
  exact Stacking.exact_joining ⟨(shape.drop axis).prod, xs.length⟩ _

/-- Members along an axis leave no element of a tensor out. -/
theorem exact_unstacking (wf : x.WellFormed) {axis : Nat} (inside : axis < x.shape.rank) :
    (Stacking.parting ⟨((x.shape.eraseIdx axis).drop axis).prod, x.shape.extent axis⟩).Exact
      ([x].map Content.count)
      ((List.replicate (x.shape.extent axis) (x.shape.eraseIdx axis : Shape)).map List.prod) := by
  have inside : axis < x.shape.length := inside
  have extent : x.shape.extent axis = x.shape[axis] :=
    Shape.extent_of_getElem? (List.getElem?_eq_getElem inside)
  have halves := List.prod_take_mul_prod_drop (x.shape.eraseIdx axis) axis
  have whole : x.count = ((x.shape.eraseIdx axis).take axis).prod * x.shape.extent axis
      * ((x.shape.eraseIdx axis).drop axis).prod := by
    rw [wf.count, ← List.mul_prod_eraseIdx inside fun _ _ => Commute.all _ _, ← halves, extent,
      Nat.mul_right_comm, Nat.mul_comm]
  rw [List.map_singleton, whole, List.map_replicate, ← halves]
  exact (Stacking.exact_joining ⟨_, x.shape.extent axis⟩ _).reverse

/-- A stack moves the elements of interleaved members. -/
theorem stack_movedBy {xs : List Content} (wf : ∀ x ∈ xs, x.WellFormed) {axis : Int}
    (success : stack xs axis = .ok c) : ∃ l : Stacking, c.MovedBy l.joining xs := by
  match xs with
  | [] => cases success
  | first :: rest =>
    obtain ⟨a, there, moved⟩ := Outcome.bind_eq_ok_iff.mp success
    obtain ⟨rfl, inside⟩ := Shape.axis_eq_ok_iff.mp there
    split at moved
    · cases moved
    next none =>
      obtain ⟨inner, product, moved⟩ := Outcome.bind_eq_ok_iff.mp moved
      obtain rfl := Size.product_eq_ok product
      have alike (x : Content) (member : x ∈ first :: rest) : x.shape = first.shape := by
        rw [List.find?_eq_none] at none
        rcases List.mem_cons.mp member with rfl | later
        · rfl
        · simpa using none x later
      exact ⟨_, Routing.compute_movedBy (exact_stacking wf alike (Nat.lt_succ_iff.mp inside)) moved⟩

/-- The inverse moves the elements to members that were interleaved. -/
theorem unstack_movedBy (wf : x.WellFormed) {axis : Int} (success : x.unstack axis = .ok c) :
    ∃ l : Stacking, c.MovedBy l.parting [x] := by
  obtain ⟨a, there, moved⟩ := Outcome.bind_eq_ok_iff.mp success
  obtain ⟨rfl, inside⟩ := Shape.axis_eq_ok_iff.mp there
  split at moved
  · cases moved
  · obtain ⟨inner, product, moved⟩ := Outcome.bind_eq_ok_iff.mp moved
    obtain rfl := Size.product_eq_ok product
    exact ⟨_, Routing.compute_movedBy (exact_unstacking wf inside) moved⟩

end Content

end LayerNet
