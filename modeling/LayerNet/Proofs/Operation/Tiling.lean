import LayerNet.Proofs.Operation.Interleaving
import LayerNet.Proofs.Operation.Slicing
import LayerNet.Proofs.Operation.Stacks

/-!
# Tiling — tiles, and the parts that a fold adds up

Along an axis, the tiles of a tensor are equal parts side by side (`Parts.locate_replicate`). So
tiling it gives the elements that joining copies of it does (`Content.concat_copies`), and folding
adds up, for each element, those at its position in the parts of a split, the first part first
(`Content.sums_parts`). What was tiled and is folded again is each element added up as often as there
are tiles (`Repetition.fold_tile`).

A tile and a fold of one repetition (`Shape.Blocks.repetition`) are related in the same way on the
way back: each leaves the other as its rule. All is said of the shape with the short axis, whose
blocks both are made of.
-/

namespace LayerNet

/-- The runs of an axis, each repeated. -/
def Shape.Blocks.repetition (b : Blocks) (tiles : Nat) : Repetition :=
  ⟨b.outer, b.length * b.inner, tiles⟩

/-- The elements of contents at each position added up, from the first content to the last. -/
def Content.sums (parts : List Content) (count : Nat) : Buffer :=
  Buffer.tabulate count fun i => Buffer.tally (parts.map fun part => part.values.element i)

/-- Elements whose bytes fit into memory can be counted. -/
theorem Size.lt_limit_of_bytes {count : Nat} (fits : 4 * count ≤ signedMax) : count < limit := by
  unfold signedMax at fits
  unfold limit
  omega

/-- Buffers are tabulated alike by functions that agree on their positions. -/
theorem Buffer.tabulate_congr {size : Nat} {f g : Nat → Float32} (same : ∀ i < size, f i = g i) :
    tabulate size f = tabulate size g := by
  refine Array.map_congr_left fun i inside => ?_
  exact same i (Array.mem_range.mp inside)

namespace Repetition

variable (r : Repetition)

@[simp] theorem size_tile (short : Buffer) : (r.tile short).size = r.long :=
  Buffer.size_tabulate _ _

@[simp] theorem size_fold (long : Buffer) : (r.fold long).size = r.outer * r.run :=
  Buffer.size_tabulate _ _

/-- Tiles have the elements of the short buffer, and no others. -/
theorem nonFinite?_tile {short : Buffer} (size : short.size = r.outer * r.run)
    (some : 0 < r.tiles) : (r.tile short).nonFinite? = none ↔ short.nonFinite? = none := by
  simp only [Buffer.nonFinite?_eq_none_iff, size_tile]
  constructor
  · intro finite j small
    have small : j < r.outer * r.run := size ▸ small
    have positive : 0 < r.run := Nat.pos_of_mul_pos_left (Nat.zero_lt_of_lt small)
    have within : r.copy j 0 < r.long := Stacking.place_lt (l := r.tiling) some small
    have here := finite _ within
    rwa [tile, Buffer.element_tabulate _ within, r.origin_copy some positive] at here
  · intro finite i within
    rw [tile, Buffer.element_tabulate _ within]
    refine finite _ ?_
    rw [size, origin_eq]
    exact (Stacking.locate_lt (l := r.tiling) within).2

/-- The rule of tiling: the gradients of the tiles are added up. -/
def foldRule : Rule := fun seen => .ok [.whole (r.fold (seen.gradient 0))]

/-- The rule of folding: every tile gets the gradient. -/
def tileRule : Rule := fun seen => .ok [.whole (r.tile (seen.gradient 0))]

/-- What was tiled and is folded is each element as often as there are tiles. -/
theorem fold_tile (short : Buffer) : r.fold (r.tile short)
    = Buffer.tabulate (r.outer * r.run) fun i =>
      Buffer.tally (List.replicate r.tiles (short.element i)) := by
  refine Buffer.tabulate_congr fun i small => congrArg Buffer.tally ?_
  have positive : 0 < r.run := Nat.pos_of_mul_pos_left (Nat.zero_lt_of_lt small)
  refine List.eq_replicate_iff.mpr ⟨by simp, fun value member => ?_⟩
  obtain ⟨t, inside, rfl⟩ := List.mem_map.mp member
  rw [List.mem_range] at inside
  have within : r.copy i t < r.long := Stacking.place_lt (l := r.tiling) inside small
  rw [tile, Buffer.element_tabulate _ within, r.origin_copy inside positive]

end Repetition

namespace Content

section Short

variable {shape : Shape} {axis n : Nat} {b : Shape.Blocks} (around : shape.blocks axis = .ok b)
  (some : 0 < n)
include around

/-- The elements under the short axis. -/
theorem prod_short : shape.prod = (b.repetition n).outer * (b.repetition n).run := by
  rw [Shape.prod_eq around, Nat.mul_assoc]
  rfl

/-- The elements under the long axis. -/
theorem prod_long : List.prod (shape.set axis (b.length * n)) = (b.repetition n).long := by
  rw [Shape.prod_set around]
  unfold Shape.Blocks.repetition Repetition.long
  ring

include some

/-- The shape with the long axis is valid, and the tiles take up all its elements. -/
theorem long_spec {x : Content} (wf : x.WellFormed) (same : x.shape = shape) :
    Shape.IsValid (shape.set axis (b.length * n))
      ∧ List.prod (shape.set axis (b.length * n)) = n * x.count
      ∧ b.length * n ≤ n * x.count := by
  subst same
  obtain ⟨found, -, -⟩ := Shape.blocks_spec around
  obtain ⟨inside, -⟩ := List.getElem?_eq_some_iff.mp found
  have length : 0 < b.length :=
    Nat.pos_of_ne_zero fun zero => wf.valid.2 (zero ▸ List.mem_of_getElem? found)
  have valid := wf.valid.set axis (Nat.mul_pos length some)
  have whole : List.prod (x.shape.set axis (b.length * n)) = n * x.count := by
    rw [Shape.prod_set around, wf.count, Shape.prod_eq around]
    ring
  refine ⟨valid, whole, Nat.le_of_dvd ?_ ?_⟩
  · rw [← whole]
    exact Shape.prod_pos valid.2
  · rw [← whole]
    exact List.dvd_prod (List.mem_set inside _)

/-- Tiling repeats the runs of the axis. -/
theorem tile_eq {x : Content} (wf : x.WellFormed) (same : x.shape = shape)
    (fits : 4 * (n * x.count) ≤ Size.signedMax) : x.tile axis n
      = (Computed.single · (b.repetition n).foldRule)
        <$> make ((b.repetition n).tile x.values) (shape.set axis (b.length * n)) := by
  subst same
  obtain ⟨found, -, -⟩ := Shape.blocks_spec around
  obtain ⟨inside, -⟩ := List.getElem?_eq_some_iff.mp found
  have inside : axis < x.shape.rank := inside
  obtain ⟨valid, whole, length⟩ := long_spec around some wf rfl
  have small := Size.lt_limit_of_bytes fits
  have elements : Shape.elements (x.shape.set axis (b.length * n)) = .ok (n * x.count) :=
    (Size.product_of_lt valid.2 (whole ▸ small)).trans (congrArg _ whole)
  have long : (Size.mul b.length n : Checked Nat) = .ok (b.length * n) :=
    Size.mul_of_lt (Nat.lt_of_le_of_lt length small)
  unfold tile
  rw [Shape.axis_eq_ok inside]
  dsimp only [bind, Except.bind]
  rw [checkTiles, if_neg (Nat.ne_of_gt some), around]
  dsimp only
  rw [long]
  dsimp only
  rw [elements]
  dsimp only
  rw [if_neg (Nat.not_lt.mpr fits)]
  show (make ((b.repetition n).tile x.values) _ >>= fun y => pure (Computed.single y _)) = _
  cases make ((b.repetition n).tile x.values) (x.shape.set axis (b.length * n)) <;> rfl

/-- Folding adds the runs of the long axis up. -/
theorem untile_eq {x : Content} (long : x.shape = shape.set axis (b.length * n)) : x.untile axis n
    = (Computed.single · (b.repetition n).tileRule)
      <$> make ((b.repetition n).fold x.values) shape := by
  obtain ⟨found, -, -⟩ := Shape.blocks_spec around
  obtain ⟨inside, length⟩ := List.getElem?_eq_some_iff.mp found
  have bound : axis < x.shape.rank := by
    rw [long, Shape.rank, List.length_set]
    exact inside
  have around' : x.shape.blocks axis = .ok ⟨b.outer, b.length * n, b.inner⟩ :=
    long ▸ Shape.blocks_set around _
  have short : x.shape.set axis b.length = shape := by
    rw [long, List.set_set, ← length, List.set_getElem_self]
  unfold untile
  rw [Shape.axis_eq_ok bound]
  dsimp only [bind, Except.bind]
  rw [checkTiles, if_neg (Nat.ne_of_gt some), around']
  dsimp only
  rw [if_neg (Classical.not_not.mpr (Nat.mul_mod_left _ _)), Nat.mul_div_cancel _ some, short]
  show (make ((b.repetition n).fold x.values) _ >>= fun y => pure (Computed.single y _)) = _
  cases make ((b.repetition n).fold x.values) shape <;> rfl

/-- Joining copies of a content along an axis gives the elements that tiling it does. -/
theorem concat_copies {x : Content} (wf : x.WellFormed) (same : x.shape = shape)
    (small : n * x.count < Size.limit) : Computed.outputs <$> concat (List.replicate n x) axis
      = ([·]) <$> make ((b.repetition n).tile x.values) (shape.set axis (b.length * n)) := by
  subst same
  obtain ⟨found, -, -⟩ := Shape.blocks_spec around
  obtain ⟨inside, length⟩ := List.getElem?_eq_some_iff.mp found
  obtain ⟨valid, whole, fits⟩ := long_spec around some wf rfl
  have bound : axis < Shape.rank (x.shape.set axis (b.length * n)) :=
    inside.trans_eq List.length_set.symm
  have extent : Shape.extent (x.shape.set axis (b.length * n)) axis = b.length * n :=
    Shape.extent_of_getElem? (List.getElem?_set_self inside)
  have long : b.length * n < Size.limit := Nat.lt_of_le_of_lt fits small
  have shapes : (List.replicate n x).map Content.shape = (List.replicate n b.length).map
      ((x.shape.set axis (b.length * n) : Shape).set axis ·) := by
    rw [List.map_replicate, List.map_replicate, List.set_set, ← length, List.set_getElem_self]
  have joins := concat_eq_compute bound (Shape.blocks_set around _)
    (List.ne_nil_of_length_pos (by rwa [List.length_replicate]))
    (by rw [Size.total_replicate, extent, Nat.mul_comm]) (extent.symm ▸ long) shapes
  have elements : Shape.elements (x.shape.set axis (b.length * n))
      = .ok (b.repetition n).long :=
    (Size.product_of_lt valid.2 (whole ▸ small)).trans (congrArg _ (prod_long around))
  rw [joins, Routing.outputs_compute, Routing.results_singleton _ _ elements,
    Routing.gather_eq_tabulate]
  refine congrArg (fun values => ([·]) <$> make values _) (Buffer.tabulate_congr fun i within => ?_)
  -- a position of the whole is found in a tile, where the short buffer has its element
  have within' : i < b.outer * (n * (b.length * b.inner)) := Nat.mul_assoc b.outer n _ ▸ within
  have inside' := (Stacking.locate_lt (l := ⟨b.length * b.inner, n⟩) within).1
  show Routing.fetch ((List.replicate n x).map values) (Parts.locate _ i) = _
  rw [Parts.locate_replicate _ within', (b.repetition n).origin_eq]
  exact Routing.fetch_of_getElem? (List.getElem?_replicate_of_lt inside')

end Short

/-- A fold adds up what stands at one position of the parts of a split. -/
theorem sums_parts {x : Content} {axis n : Nat} {b : Shape.Blocks}
    (around : Shape.blocks (x.shape.set axis b.length) axis = .ok b) {parts : List Content}
    (made : List.Forall₂ (fun (entry : Nat × Nat) o => x.makePart axis
      ⟨b.outer, b.length * n, b.inner⟩ (List.replicate n b.length) entry.1 entry.2 = .ok o)
      (List.replicate n b.length).zipIdx parts) :
    sums parts (b.outer * (b.length * b.inner)) = (b.repetition n).fold x.values := by
  refine Buffer.tabulate_congr fun i small => congrArg Buffer.tally ?_
  have whole : List.prod (x.shape.set axis b.length) = b.outer * (b.length * b.inner) := by
    rw [Shape.prod_eq around, Nat.mul_assoc]
  have elements : List.Forall₂ (fun entry o => x.values.element ((b.repetition n).copy i entry.2)
      = o.values.element i) (List.replicate n b.length).zipIdx parts := by
    refine forall₂_imp_of_mem made ?_
    rintro ⟨length, p⟩ member part made
    rw [List.mk_mem_zipIdx_iff_getElem?, List.getElem?_eq_some_iff] at member
    obtain ⟨inside, same⟩ := member
    rw [List.getElem_replicate] at same
    rw [List.length_replicate] at inside
    subst same
    obtain ⟨-, valued, -⟩ := of_make_eq_ok made
    rw [valued, Routing.gather_eq_tabulate, whole, Buffer.element_tabulate _ small]
    show _ = x.values.element (Parts.place _ p i)
    rw [Parts.place_replicate _ _ inside]
    rfl
  have indices : (List.replicate n b.length).zipIdx.map Prod.snd = List.range n := by
    rw [List.zipIdx_map_snd, List.length_replicate, List.range_eq_range']
  show parts.map _ = (List.range n).map _
  rw [← indices, List.map_map, eq_comm, ← List.forall₂_eq_eq_eq, List.forall₂_map_left_iff,
    List.forall₂_map_right_iff]
  exact elements

end Content

end LayerNet
