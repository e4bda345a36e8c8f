import LayerNet.Proofs.Operation.Tiling
import LayerNet.Proofs.Session.Unary

/-!
# Tiles in a session — tiling, folding, and each the way back of the other

Tiling a tensor yields what joining copies of it does, and folding makes, of each position, the sum
of what stands there in the parts of a split. Tiling and folding transpose each other
(`Session.tiles_agree`).
-/

namespace LayerNet

namespace Session

variable {m : Machine} {x : TensorId} {c : Content}

section Short

variable (regular : m.store.Regular) (recording : m.session.finalized = false)
  (there : m.store.content? x = some c) {axis : Nat} {b : Shape.Blocks}
  (around : c.shape.blocks axis = .ok b) {n : Nat} (some : 0 < n)
  (fits : 4 * (n * c.count) ≤ Size.signedMax)
include regular recording there around some fits

/-- Tiling makes a content of the repeated runs. -/
theorem makes_tile : Makes (apply (.tile x axis n)) m ((b.repetition n).tile c.values)
    (c.shape.set axis (b.length * n)) := by
  obtain ⟨wf, -⟩ := Content.regular_iff.mp (regular.content there)
  obtain ⟨valid, whole, -⟩ := Content.long_spec around some wf rfl
  refine makes_one recording there rfl (fun _ => rfl) (Content.tile_eq around some wf rfl fits)
    valid ?_ ?_
  · rw [Repetition.size_tile, Content.prod_long around]
  · rw [whole]
    exact Size.lt_limit_of_bytes fits

/-- Tiling a tensor agrees with joining copies of it. -/
theorem tile_agrees : Agree (c.values.nonFinite? = none) m (apply (.tile x axis n))
    (apply (.concat (List.replicate n x) axis))
    fun results => results.map Content.shape = [c.shape.set axis (b.length * n)] := by
  obtain ⟨wf, -⟩ := Content.regular_iff.mp (regular.content there)
  obtain ⟨valid, whole, -⟩ := Content.long_spec around some wf rfl
  have small := Size.lt_limit_of_bytes fits
  have sized : c.values.size = (b.repetition n).outer * (b.repetition n).run :=
    wf.count.trans (Content.prod_short around)
  have finite := (b.repetition n).nonFinite?_tile sized some
  have tiles := Content.tile_eq around some wf rfl fits
  have copies := Content.concat_copies around some wf rfl small
  have shows : m.store.Shows (List.replicate n x) (List.replicate n c) := by
    clear * - there
    induction n with
    | zero => exact .nil
    | succ n ih => exact .cons there ih
  have size : ((b.repetition n).tile c.values).size
      = List.prod (c.shape.set axis (b.length * n)) := by
    rw [Repetition.size_tile, Content.prod_long around]
  rcases Content.make_of_lt valid size (whole ▸ small) with ⟨y, made⟩ | ⟨ended, infinite⟩
  · obtain ⟨shaped, -, -, -, here⟩ := Content.of_make_eq_ok made
    rw [made] at tiles copies
    obtain ⟨joined, success, outputs⟩ := except_map_eq_ok_iff.mp copies
    have outputs : joined.outputs = [y] := outputs
    refine ⟨fun _ => ⟨[y], congrArg ([·]) shaped, ?_, ?_⟩, fun infinite =>
      absurd (finite.mp here) infinite⟩
    · exact yields_one recording there (.tile x axis n) rfl tiles
    · rw [← outputs]
      exact yields_all recording shows (.concat · axis) (fun _ => rfl) rfl success
  · rw [ended] at tiles copies
    refine ⟨fun here => absurd (finite.mpr here) infinite, fun _ => ⟨?_, ?_⟩⟩
    · exact ends_one recording there rfl tiles
    · exact ends_all recording shows (.concat · axis) (fun _ => rfl) rfl
        (except_map_eq_error_iff.mp copies)

/-- What was tiled is folded to the sum of as many copies. -/
theorem makes_untile_tile (finite : c.values.nonFinite? = none) :
    Makes (do apply (.untile (← apply1 (.tile x axis n)) axis n)) m
      (Content.sums (List.replicate n c) c.count) c.shape := by
  obtain ⟨wf, small⟩ := Content.regular_iff.mp (regular.content there)
  have sized : c.values.size = (b.repetition n).outer * (b.repetition n).run :=
    wf.count.trans (Content.prod_short around)
  obtain ⟨y, shaped, valued, tiled⟩ := (makes_tile regular recording there around some fits).yields
    (((b.repetition n).nonFinite?_tile sized some).mpr finite)
  refine makes_after tiled fun id m' onward here => ?_
  have sums : Content.sums (List.replicate n c) c.count = (b.repetition n).fold y.values := by
    rw [valued, Repetition.fold_tile, ← sized]
    simp only [Content.sums, List.map_replicate]
    rfl
  have folds := Content.untile_eq around some shaped
  rw [← sums] at folds
  refine makes_one (onward.finalized ▸ recording) here rfl (fun _ => rfl) folds wf.valid ?_
    (wf.count ▸ small)
  rw [Content.sums, Buffer.size_tabulate, wf.count]

omit regular recording in
/-- Folding transposes tiling. -/
theorem transposes_tile (wf : c.WellFormed) :
    Transposes m (.tile x axis n) x c.shape (·.untile axis n) := by
  refine ⟨c.shape.set axis (b.length * n), (b.repetition n).fold, ?_, fun g _ long => ?_⟩
  · refine distributes_whole there rfl (Content.tile_eq around some wf rfl fits) fun g => ?_
    rw [Repetition.size_fold, ← Content.prod_short around, wf.count]
  · dsimp only
    rw [Content.untile_eq around some long]
    cases Content.make ((b.repetition n).fold g.values) c.shape <;> rfl

end Short

section Long

variable (regular : m.store.Regular) (recording : m.session.finalized = false)
  (there : m.store.content? x = some c) {axis : Nat} (inside : axis < c.shape.rank) {n : Nat}
  (some : 0 < n) (even : n ∣ c.shape.extent axis)
include regular there inside even

/-- The blocks of the short axis that a long one is folded to. -/
theorem exists_short : ∃ b : Shape.Blocks, b.length = c.shape.extent axis / n
    ∧ Shape.blocks (c.shape.set axis b.length) axis = .ok b
    ∧ c.shape.blocks axis = .ok ⟨b.outer, b.length * n, b.inner⟩
    ∧ c.shape = (c.shape.set axis b.length : Shape).set axis (b.length * n) := by
  obtain ⟨wf, small⟩ := Content.regular_iff.mp (regular.content there)
  obtain ⟨blocks, around⟩ := Shape.blocks_of_lt wf.valid.2 (wf.count ▸ small) inside
  obtain ⟨found, -, -⟩ := Shape.blocks_spec around
  obtain ⟨within, length⟩ := List.getElem?_eq_some_iff.mp found
  have extent : c.shape.extent axis / n * n = blocks.length := by
    rw [Nat.div_mul_cancel even, Shape.extent_of_getElem? found]
  refine ⟨⟨blocks.outer, c.shape.extent axis / n, blocks.inner⟩, rfl,
    Shape.blocks_set around _, ?_, ?_⟩
  · rw [extent]
    exact around
  · rw [List.set_set, extent, ← length, List.set_getElem_self]

include some

/-- Folding makes the sums of the parts of a split, unless the split is ended by an element that is
not finite. -/
theorem untile_agrees (recording : m.session.finalized = false) :
    (c.values.nonFinite? = none → ∃ parts,
      Yields (apply (.split x axis (.equal n))) m parts ∧ parts.length = n
        ∧ Makes (apply (.untile x axis n)) m (Content.sums parts (c.count / n))
          (c.shape.set axis (c.shape.extent axis / n)))
    ∧ (c.values.nonFinite? ≠ none → Ends (apply (.split x axis (.equal n))) m) := by
  obtain ⟨wf, small⟩ := Content.regular_iff.mp (regular.content there)
  obtain ⟨b, length, around, around', long⟩ := exists_short regular there inside even
  have admits : (Partition.equal n).Admits (c.shape.extent axis) := ⟨some, even⟩
  obtain ⟨blocks, parted, splits⟩ := Content.exists_parted wf small inside admits
  obtain rfl := Except.ok.inj (parted.around.symm.trans around')
  rw [Partition.parts, ← length] at parted splits
  refine ⟨fun finite => ?_, fun infinite => ?_⟩
  · obtain ⟨d, success⟩ := Routing.compute_of_finite parted.exact parted.valid parted.small
      (List.forall_mem_singleton.mpr finite)
    obtain ⟨parts, rfl, made⟩ := Content.compute_eq_ok_iff_made.mp success
    have folds := Content.untile_eq around some long
    have count : c.count / n = b.outer * (b.length * b.inner) := by
      have whole : c.count = b.outer * (b.length * b.inner) * n := by
        rw [wf.count, Shape.prod_eq around']
        ring
      rw [whole, Nat.mul_div_cancel _ some]
    have sums := Content.sums_parts around made
    rw [← sums, ← count] at folds
    have member : (c.shape.set axis b.length : Shape)
        ∈ (List.replicate n b.length).map (c.shape.set axis ·) :=
      List.mem_map_of_mem (List.mem_replicate.mpr ⟨Nat.ne_of_gt some, rfl⟩)
    refine ⟨parts, ?_, ?_, ?_⟩
    · rw [← splits] at success
      exact yields_one recording there (.split x axis (.equal n)) rfl success
    · rw [← made.length_eq, List.length_zipIdx, List.length_replicate]
    · rw [← length]
      refine makes_one recording there rfl (fun _ => rfl) folds (parted.valid _ member) ?_
        (parted.small _ member)
      rw [Content.sums, Buffer.size_tabulate, count, Shape.prod_eq around, Nat.mul_assoc]
  · have ended := Routing.compute_of_nonFinite parted.exact parted.valid parted.small
      ⟨c, List.mem_singleton_self c, infinite⟩
    rw [← splits] at ended
    exact ends_one recording there rfl ended

/-- Tiling transposes folding. -/
theorem transposes_untile (fits : 4 * c.count ≤ Size.signedMax) :
    Transposes m (.untile x axis n) x c.shape (·.tile axis n) := by
  obtain ⟨wf, -⟩ := Content.regular_iff.mp (regular.content there)
  obtain ⟨b, -, around, around', long⟩ := exists_short regular there inside even
  have whole : c.count = (b.repetition n).long := by
    rw [wf.count, long, Content.prod_long around]
  refine ⟨c.shape.set axis b.length, (b.repetition n).tile, ?_, fun g valid short => ?_⟩
  · refine distributes_whole there rfl (Content.untile_eq around some long) fun g => ?_
    rw [Repetition.size_tile, whole]
  · have count : n * g.count = c.count := by
      obtain ⟨-, prod, -⟩ := Content.long_spec around some valid short
      rw [← prod, Content.prod_long around, whole]
    dsimp only
    rw [Content.tile_eq around some valid short (count ▸ fits), ← long]
    cases Content.make ((b.repetition n).tile g.values) c.shape <;> rfl

end Long

/-- The laws of tiles. Along every axis, and for any number of tiles that are not too many elements
to count in memory, tiling a tensor yields what joining as many copies of it does. Where the number
divides the length of the axis, folding makes, at each position, the sum of what stands there in the
equal parts of a split, taken from the first part to the last and starting at zero. So what was tiled
is folded to as many of each element added up. And each operation, replayed, adds to the gradient of
its operand what the other computes from the gradient of its result. -/
theorem tiles_agree (regular : m.store.Regular) (recording : m.session.finalized = false)
    (there : m.store.content? x = some c) {axis : Nat} (inside : axis < c.shape.rank) {n : Nat}
    (some : 0 < n) :
    (4 * (n * c.count) ≤ Size.signedMax →
      Agree (c.values.nonFinite? = none) m (apply (.tile x axis n))
          (apply (.concat (List.replicate n x) axis))
          (fun results => results.map Content.shape
            = [c.shape.set axis (c.shape.extent axis * n)])
        ∧ (c.values.nonFinite? = none →
          Makes (do apply (.untile (← apply1 (.tile x axis n)) axis n)) m
            (Content.sums (List.replicate n c) c.count) c.shape)
        ∧ Transposes m (.tile x axis n) x c.shape (·.untile axis n))
    ∧ (n ∣ c.shape.extent axis →
      (c.values.nonFinite? = none → ∃ parts,
          Yields (apply (.split x axis (.equal n))) m parts ∧ parts.length = n
            ∧ Makes (apply (.untile x axis n)) m (Content.sums parts (c.count / n))
              (c.shape.set axis (c.shape.extent axis / n)))
        ∧ (c.values.nonFinite? ≠ none → Ends (apply (.split x axis (.equal n))) m)
        ∧ (4 * c.count ≤ Size.signedMax →
          Transposes m (.untile x axis n) x c.shape (·.tile axis n))) := by
  obtain ⟨wf, small⟩ := Content.regular_iff.mp (regular.content there)
  obtain ⟨b, around⟩ := Shape.blocks_of_lt wf.valid.2 (wf.count ▸ small) inside
  have extent := Shape.extent_of_getElem? (Shape.blocks_spec around).1
  refine ⟨fun fits => ⟨?_, ?_, ?_⟩, fun even => ?_⟩
  · rw [extent]
    exact tile_agrees regular recording there around some fits
  · exact makes_untile_tile regular recording there around some fits
  · exact transposes_tile there around some fits wf
  · obtain ⟨folds, ends⟩ := untile_agrees regular there inside some even recording
    exact ⟨folds, ends, transposes_untile regular there inside some even⟩

/-- A square tiled twice, folded again, and folded to one row. -/
theorem tiles_agree_square :
    (∃ results, results.map Content.shape = [[4, 2]]
      ∧ Yields (apply (.tile ⟨0⟩ (0 : Nat) 2)) ofSquare results
      ∧ Yields (apply (.concat [⟨0⟩, ⟨0⟩] (0 : Nat))) ofSquare results)
    ∧ (∃ y, y.shape = [2, 2] ∧ y.values = #[2, 4, 6, 8]
      ∧ Yields (do apply (.untile (← apply1 (.tile ⟨0⟩ (0 : Nat) 2)) (0 : Nat) 2)) ofSquare [y])
    ∧ (∃ parts, Yields (apply (.split ⟨0⟩ (0 : Nat) (.equal 2))) ofSquare parts ∧ parts.length = 2
      ∧ Makes (apply (.untile ⟨0⟩ (0 : Nat) 2)) ofSquare (Content.sums parts 2) [1, 2])
    ∧ Transposes ofSquare (.tile ⟨0⟩ (0 : Nat) 2) ⟨0⟩ [2, 2] (·.untile (0 : Nat) 2)
    ∧ Transposes ofSquare (.untile ⟨0⟩ (0 : Nat) 2) ⟨0⟩ [2, 2] (·.tile (0 : Nat) 2) := by
  have finite : Buffer.nonFinite? #[1, 2, 3, 4] = none := by decide +kernel
  have there : ofSquare.store.content? ⟨0⟩ = some ⟨[2, 2], [2, 1], #[1, 2, 3, 4]⟩ := rfl
  have inside : 0 < Shape.rank [2, 2] := by decide
  obtain ⟨tiling, folding⟩ := tiles_agree regular_ofSquare rfl there inside Nat.two_pos
  obtain ⟨agree, makes, back⟩ := tiling (by decide)
  obtain ⟨folds, -, back'⟩ := folding (by decide)
  obtain ⟨y, shaped, valued, yields⟩ := (makes finite).yields (by decide +kernel)
  have doubled : y.values = #[2, 4, 6, 8] := valued.trans (by decide +kernel)
  exact ⟨agree.yields finite, ⟨y, shaped, doubled, yields⟩, folds finite, back, back' (by decide)⟩

end Session

end LayerNet
