import LayerNet.Operation.Grouping
import LayerNet.Operation.Repetition
import LayerNet.Proofs.Operation.Exact

/-!
# Interleaving — one geometry behind several operations

Members of equal size that are interleaved (`Stacking`) are what three other arrangements come to:

* parts of equal length side by side (`Parts.place_replicate`, `Parts.locate_replicate`);
* the tiles of a repetition, each of them a member (`Repetition.origin_eq`);
* the groups of neighbours on an axis, whose first elements are the first member, whose second
  elements are the second, and so on (`Grouping.positions_eq`).

So whatever holds of interleaved members, above all that every element of the whole is one element
of one member (`Stacking.place_locate`, `Stacking.locate_place`), holds of these too.
-/

namespace LayerNet

/-! ## Equal parts -/

namespace Parts

variable (outer inner : Nat) {count length : Nat}

theorem run_replicate {part : Nat} (member : part < count) :
    run ⟨outer, inner, List.replicate count length⟩ part = length * inner := by
  rw [run, List.getD_eq_getElem?_getD, List.getElem?_replicate_of_lt member, Option.getD_some]

theorem row_replicate :
    row ⟨outer, inner, List.replicate count length⟩ = count * (length * inner) := by
  rw [row, Size.total_replicate, Nat.mul_assoc]

/-- Equal parts lie where interleaved members do. -/
theorem place_replicate {part : Nat} (member : part < count) (position : Nat) :
    place ⟨outer, inner, List.replicate count length⟩ part position
      = Stacking.place ⟨length * inner, count⟩ part position := by
  have start : start ⟨outer, inner, List.replicate count length⟩ part
      = part * (length * inner) := by
    rw [Parts.start, List.take_replicate, Nat.min_eq_left (Nat.le_of_lt member),
      Size.total_replicate, Nat.mul_assoc]
  rw [place, Stacking.place, run_replicate _ _ member, row_replicate, start, Nat.add_mul,
    Nat.mul_assoc]

/-- Equal parts are found where interleaved members are. -/
theorem locate_replicate {outer position : Nat}
    (small : position < outer * (count * (length * inner))) :
    locate ⟨outer, inner, List.replicate count length⟩ position
      = Stacking.locate ⟨length * inner, count⟩ position := by
  have nonempty := Nat.zero_lt_of_lt small
  have row : 0 < count * (length * inner) := Nat.pos_of_mul_pos_left nonempty
  have run : 0 < length * inner := Nat.pos_of_mul_pos_left row
  obtain ⟨member, within⟩ := Stacking.locate_lt (l := ⟨length * inner, count⟩)
    (Nat.mul_assoc outer count _ ▸ small)
  have laid := Stacking.place_locate (l := ⟨length * inner, count⟩) (i := position) run
  generalize Stacking.locate ⟨length * inner, count⟩ position = a at member within laid
  rw [← laid, ← place_replicate outer inner member]
  have found := List.getElem?_replicate_of_lt (a := length) member
  have back := locate_place (l := ⟨outer, inner, List.replicate count length⟩) found within
  exact back.2

end Parts

/-! ## Tiles -/

namespace Repetition

variable (r : Repetition)

/-- The members that are interleaved are the tiles. -/
def tiling : Stacking := ⟨r.run, r.tiles⟩

theorem origin_eq (position : Nat) : r.origin position = (r.tiling.locate position).2 := by
  rw [origin, Stacking.locate, tiling, Nat.mul_comm r.tiles]

theorem copy_eq (position tile : Nat) : r.copy position tile = r.tiling.place tile position := rfl

/-- Every tile has the elements of the short buffer. -/
theorem origin_copy {tile : Nat} (member : tile < r.tiles) (positive : 0 < r.run)
    (position : Nat) : r.origin (r.copy position tile) = position := by
  rw [origin_eq, copy_eq, Stacking.locate_place r.tiling position member positive]

end Repetition

/-! ## Groups -/

namespace Grouping

variable {g : Grouping}

/-- The members of a group lie at one position of every interleaved member. -/
theorem positions_eq (whole : g.blocks.length = g.groups * g.members) (result : Nat) :
    g.positions result = (List.range g.members).map fun k =>
      Stacking.place ⟨g.blocks.inner, g.members⟩ k result := by
  refine List.map_congr_left fun k _ => ?_
  have block : result / (g.blocks.inner * g.groups) * g.blocks.length
      + result / g.blocks.inner % g.groups * g.members = result / g.blocks.inner * g.members := by
    rw [whole, ← Nat.div_div_eq_div_mul, ← Nat.mul_assoc, ← Nat.add_mul, Nat.div_add_mod']
  rw [first, Stacking.place, Nat.add_mul, ← block, Nat.add_mul]
  dsimp only
  omega

end Grouping

end LayerNet
