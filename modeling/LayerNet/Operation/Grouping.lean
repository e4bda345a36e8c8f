import LayerNet.Operation.Rule

/-!
# Grouping — the maximum or the mean of equal groups along an axis

An axis is cut into groups of `members` neighbours, each of which becomes one element of the
result. Of a group's maximum the first position counts, and the gradient goes there alone; a mean
shares its gradient equally among the members.
-/

namespace LayerNet

/-- Groups of neighbours along an axis. -/
structure Grouping where
  blocks : Shape.Blocks
  members : Nat
  deriving Repr, DecidableEq

namespace Grouping

/-- The groups on the axis. -/
def groups (g : Grouping) : Nat := g.blocks.length / g.members

/-- The elements of the result. -/
def count (g : Grouping) : Nat := g.blocks.outer * g.groups * g.blocks.inner

/-- The position of the first member of the group behind a result. -/
def first (g : Grouping) (result : Nat) : Nat :=
  let inner := g.blocks.inner
  result / (inner * g.groups) * g.blocks.length * inner
    + result / inner % g.groups * g.members * inner + result % inner

/-- The positions of the members of the group behind a result. -/
def positions (g : Grouping) (result : Nat) : List Nat :=
  (List.range g.members).map fun r => g.first result + r * g.blocks.inner

/-- The position of the first largest element of a group. -/
def largest (g : Grouping) (values : Buffer) (result : Nat) : Nat :=
  (g.positions result).tail.foldl
    (fun best i => if values.element best < values.element i then i else best) (g.first result)

/-- The mean of a group. -/
def mean (g : Grouping) (values : Buffer) (result : Nat) : Float32 :=
  Buffer.sum ((g.positions result).map values.element) / Float32.ofNat g.members

end Grouping

namespace Content

/-- The groups of `members` along an axis, and the shape of their results. -/
def grouping (x : Content) (axis : Int) (members : Nat) (operation : String) :
    Checked (Grouping × Shape) := do
  let axis ← Shape.axis axis x.shape.rank operation
  let blocks ← x.shape.blocks axis
  if members = 0 ∨ blocks.length % members ≠ 0 then
    Outcome.fail (.indivisibleSplit blocks.length members operation)
  else return (⟨blocks, members⟩, x.shape.set axis (blocks.length / members))

/-- The maximum of every group. -/
def maxReduce (x : Content) (axis : Int) (members : Nat) : Checked Computed := do
  let (g, shape) ← x.grouping axis members "max_reduce"
  let winners := (List.range g.count).map (g.largest x.values)
  let output ← Content.make (winners.map x.values.element).toArray shape
  return Computed.single output fun seen => .ok [.sparse (winners.zip (seen.gradient 0).toList)]

/-- The mean of every group. -/
def meanReduce (x : Content) (axis : Int) (members : Nat) : Checked Computed := do
  let (g, shape) ← x.grouping axis members "mean_reduce"
  let output ← Content.make (Buffer.tabulate g.count (g.mean x.values)) shape
  let share : Float32 := 1 / Float32.ofNat members
  return Computed.single output fun seen =>
    .ok [.sparse ((List.range g.count).flatMap fun result =>
      (g.positions result).map fun i => (i, (seen.gradient 0).element result * share))]

end Content

end LayerNet
