import LayerNet.Operation.Rule

/-!
# Routing — operations that only move elements

Copies, changes of shape, concatenation, splitting, stacking and its inverse compute nothing: every
element of a result is an element of an operand. A routing says which (`Routing.source`), and where
each element of an operand went (`Routing.target`). The results are gathered along the first map;
on the way back each operand gathers, along the second, the gradient of the place it went to.

* `Parts` lays tensors side by side along an axis: per outer block, a run of each part.
* `Stacking` interleaves equal tensors along a new axis.
-/

namespace LayerNet

/-- Where the elements of results come from and where the elements of operands go, as pairs of an
argument number and a flat position. -/
structure Routing where
  source : Nat → Nat → Nat × Nat
  target : Nat → Nat → Nat × Nat

namespace Routing

/-- Every element stays in place. -/
def identity : Routing := ⟨fun p i => (p, i), fun p i => (p, i)⟩

/-- The routing backwards. -/
def reverse (r : Routing) : Routing := ⟨r.target, r.source⟩

/-- The buffer gathered from others. -/
def gather (buffers : List Buffer) (size : Nat) (place : Nat → Nat × Nat) : Buffer :=
  let sources := buffers.toArray
  Buffer.tabulate size fun i =>
    let (p, j) := place i
    Buffer.element (sources.getD p #[]) j

/-- The rule of a routing: the gradients gathered backwards. -/
def rule (r : Routing) : Rule := fun seen =>
  .ok <| seen.inputs.zipIdx.map fun (input, q) =>
    .whole (gather seen.gradients input.count (r.target q))

/-- The results of a routing, with the given shapes. -/
def results (r : Routing) (inputs : List Content) (shapes : List Shape) : Checked (List Content) :=
  let buffers := inputs.map Content.values
  shapes.zipIdx.mapM fun (shape, p) => do
    Content.make (gather buffers (← shape.elements) (r.source p)) shape

/-- The operation that a routing is. -/
def compute (r : Routing) (inputs : List Content) (shapes : List Shape) : Checked Computed := do
  return ⟨← r.results inputs shapes, r.rule, false⟩

end Routing

/-- Tensors side by side along an axis, by their lengths on it. -/
structure Parts where
  outer : Nat
  inner : Nat
  lengths : List Nat
  deriving Repr, DecidableEq

namespace Parts

/-- The elements of one outer block of the whole. -/
def row (l : Parts) : Nat := Size.total l.lengths * l.inner

/-- The elements of one outer block of a part. -/
def run (l : Parts) (part : Nat) : Nat := l.lengths.getD part 0 * l.inner

/-- Where a part begins in an outer block of the whole. -/
def start (l : Parts) (part : Nat) : Nat := Size.total (l.lengths.take part) * l.inner

/-- The position in the whole of an element of a part. -/
def place (l : Parts) (part position : Nat) : Nat :=
  position / l.run part * l.row + l.start part + position % l.run part

/-- The part that holds a position of an outer block, and the position in its run. -/
def find (inner : Nat) : List Nat → Nat → Nat × Nat
  | [], position => (0, position)
  | length :: rest, position =>
    if position < length * inner then (0, position)
    else
      let (part, position) := find inner rest (position - length * inner)
      (part + 1, position)

/-- The part and the position in it of an element of the whole. -/
def locate (l : Parts) (position : Nat) : Nat × Nat :=
  let (part, offset) := find l.inner l.lengths (position % l.row)
  (part, position / l.row * l.run part + offset)

/-- Parts to whole. -/
def joining (l : Parts) : Routing := ⟨fun _ i => l.locate i, fun p i => (0, l.place p i)⟩

/-- Whole to parts. -/
def parting (l : Parts) : Routing := l.joining.reverse

end Parts

/-- Equal tensors interleaved along a new axis. -/
structure Stacking where
  inner : Nat
  members : Nat
  deriving Repr, DecidableEq

namespace Stacking

/-- The position in the stack of an element of a member. -/
def place (l : Stacking) (member position : Nat) : Nat :=
  (position / l.inner * l.members + member) * l.inner + position % l.inner

/-- The member and the position in it of an element of the stack. -/
def locate (l : Stacking) (position : Nat) : Nat × Nat :=
  (position / l.inner % l.members, position / (l.inner * l.members) * l.inner + position % l.inner)

/-- Members to stack. -/
def joining (l : Stacking) : Routing := ⟨fun _ i => l.locate i, fun p i => (0, l.place p i)⟩

/-- Stack to members. -/
def parting (l : Stacking) : Routing := l.joining.reverse

/-- The run that an element of a member is laid in. -/
theorem place_div (l : Stacking) (member position : Nat) (inner_pos : 0 < l.inner) :
    l.place member position / l.inner = position / l.inner * l.members + member := by
  rw [place, Nat.add_comm, Nat.add_mul_div_right _ _ inner_pos,
    Nat.div_eq_of_lt (Nat.mod_lt _ inner_pos), Nat.zero_add]

theorem place_row (l : Stacking) {member : Nat} (position : Nat) (h : member < l.members)
    (inner_pos : 0 < l.inner) :
    l.place member position / l.inner / l.members = position / l.inner := by
  rw [place_div _ _ _ inner_pos, Nat.mul_comm, Nat.mul_add_div (Nat.zero_lt_of_lt h),
    Nat.div_eq_of_lt h, Nat.add_zero]

theorem place_column (l : Stacking) {member : Nat} (position : Nat) (h : member < l.members)
    (inner_pos : 0 < l.inner) : l.place member position / l.inner % l.members = member := by
  rw [place_div _ _ _ inner_pos, Nat.mul_add_mod', Nat.mod_eq_of_lt h]

/-- The place in the run stays the same. -/
theorem place_mod (l : Stacking) (member position : Nat) :
    l.place member position % l.inner = position % l.inner := by
  rw [place, Nat.add_comm, Nat.add_mul_mod_self_right, Nat.mod_mod]

/-- A place in the stack leads back to the member and the position that it is the place of. -/
theorem locate_place (l : Stacking) {member : Nat} (position : Nat) (h : member < l.members)
    (inner_pos : 0 < l.inner) : l.locate (l.place member position) = (member, position) := by
  rw [locate, ← Nat.div_div_eq_div_mul, place_row _ _ h inner_pos, place_column _ _ h inner_pos,
    place_mod, Nat.div_add_mod']

end Stacking

/-! ## Operations -/

/-- How to split an axis: into parts of given lengths, or into equal parts. -/
inductive Partition where
  | sizes (lengths : List Nat)
  | equal (count : Nat)
  deriving Repr, DecidableEq

/-- The lengths of the parts of axis `axis`. -/
def Partition.lengths (partition : Partition) (shape : Shape) (axis : Nat) : Checked (List Nat) :=
  let length := shape.extent axis
  match partition with
  | .equal count =>
    if count = 0 ∨ length % count ≠ 0 then Outcome.fail (.indivisibleSplit length count "split")
    else .ok (List.replicate count (length / count))
  | .sizes lengths => do
    if lengths = [] ∨ 0 ∈ lengths then Outcome.fail (.invalidShape (shape.set axis 0))
    else if (← Size.sum lengths) ≠ length then
      Outcome.fail (.shapeMismatch [length] lengths "split")
    else return lengths

namespace Content

/-- A tensor with the same elements in a buffer of its own. -/
def copy (x : Content) : Checked Computed :=
  Routing.identity.compute [x] [x.shape]

/-- The same buffer under another shape. -/
def view (x : Content) (shape : Shape) : Checked Computed := do
  return { ← Routing.identity.compute [x] [shape] with isView := true }

/-- A view with another shape of the same count. -/
def reshaped (x : Content) (shape : Shape) : Checked Computed := do
  shape.validate
  if (← Shape.elements shape) ≠ x.count then Outcome.fail (.shapeMismatch x.shape shape "reshape")
  else x.view shape

/-- A view without an axis of length one. -/
def squeeze (x : Content) (axis : Int) : Checked Computed := do
  let axis ← Shape.axis axis x.shape.rank "squeeze"
  let size := x.shape.extent axis
  if size ≠ 1 then Outcome.fail (.notUnitAxis axis size x.shape)
  else if x.shape.rank < 2 then Outcome.fail (.rankTooLow x.shape "squeeze")
  else x.view (x.shape.eraseIdx axis)

/-- A view with a new axis of length one. -/
def expand (x : Content) (axis : Int) : Checked Computed := do
  let axis ← Shape.axis axis (x.shape.rank + 1) "expand"
  x.view (x.shape.insertIdx axis 1)

/-- Whether two shapes agree on every axis but one. -/
def agreeExcept (axis : Nat) (a b : Shape) : Bool :=
  a.rank == b.rank && (List.range a.rank).all fun i => i == axis || a[i]? == b[i]?

/-- Tensors joined along an axis, on which alone they may differ. -/
def concat (xs : List Content) (axis : Int) : Checked Computed := do
  let first :: _ := xs | Outcome.fail (.emptyTensorList "concat")
  let axis ← Shape.axis axis first.shape.rank "concat"
  match xs.find? fun x => !agreeExcept axis x.shape first.shape with
  | some other => Outcome.fail (.shapeMismatch first.shape other.shape "concat")
  | none =>
    let blocks ← first.shape.blocks axis
    let lengths := xs.map fun x => x.shape.extent axis
    let total ← Size.sum lengths
    Parts.joining ⟨blocks.outer, blocks.inner, lengths⟩ |>.compute xs [first.shape.set axis total]

/-- A tensor split along an axis. -/
def split (x : Content) (axis : Int) (partition : Partition) : Checked Computed := do
  let axis ← Shape.axis axis x.shape.rank "split"
  let lengths ← partition.lengths x.shape axis
  let blocks ← x.shape.blocks axis
  let shapes := lengths.map (x.shape.set axis ·)
  Parts.parting ⟨blocks.outer, blocks.inner, lengths⟩ |>.compute [x] shapes

/-- Equal tensors joined along a new axis. -/
def stack (xs : List Content) (axis : Int) : Checked Computed := do
  let first :: rest := xs | Outcome.fail (.emptyTensorList "stack")
  let axis ← Shape.axis axis (first.shape.rank + 1) "stack"
  match rest.find? fun x => x.shape ≠ first.shape with
  | some other => Outcome.fail (.shapeMismatch first.shape other.shape "stack")
  | none =>
    let inner ← Size.product (first.shape.drop axis)
    Stacking.joining ⟨inner, xs.length⟩ |>.compute xs [first.shape.insertIdx axis xs.length]

/-- The members of a tensor along an axis, which they lose. -/
def unstack (x : Content) (axis : Int) : Checked Computed := do
  let axis ← Shape.axis axis x.shape.rank "unstack"
  if x.shape.rank < 2 then Outcome.fail (.rankTooLow x.shape "unstack")
  else
    let member := x.shape.eraseIdx axis
    let members := x.shape.extent axis
    let inner ← Size.product (member.drop axis)
    Stacking.parting ⟨inner, members⟩ |>.compute [x] (List.replicate members member)

end Content

end LayerNet
