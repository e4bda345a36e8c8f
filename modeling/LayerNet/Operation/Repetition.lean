import LayerNet.Operation.Rule

/-!
# Repetition — tiling an axis and adding the tiles up again

Tiling repeats a tensor along an axis; folding adds equal tiles of an axis, from the left and
starting at zero. Each is the other's way back: what tiling sends to several places is added up,
and what folding added up receives the same amount in every tile.
-/

namespace LayerNet

/-- Runs of a short buffer that stand several times in a row in a long one. -/
structure Repetition where
  outer : Nat
  run : Nat
  tiles : Nat
  deriving Repr, DecidableEq

namespace Repetition

/-- The elements of the long buffer. -/
def long (r : Repetition) : Nat := r.outer * r.tiles * r.run

/-- The position in the short buffer of an element of the long one. -/
def origin (r : Repetition) (position : Nat) : Nat :=
  position / (r.tiles * r.run) * r.run + position % r.run

/-- The position in the long buffer of a tile of an element of the short one. -/
def copy (r : Repetition) (position tile : Nat) : Nat :=
  (position / r.run * r.tiles + tile) * r.run + position % r.run

/-- Every run repeated. -/
def tile (r : Repetition) (short : Buffer) : Buffer :=
  Buffer.tabulate r.long fun i => short.element (r.origin i)

/-- The tiles added up. -/
def fold (r : Repetition) (long : Buffer) : Buffer :=
  Buffer.tabulate (r.outer * r.run) fun i =>
    Buffer.tally ((List.range r.tiles).map fun t => long.element (r.copy i t))

end Repetition

namespace Content

/-- Refuses to tile nothing: the shape would lose the axis. -/
def checkTiles (x : Content) (axis tiles : Nat) : Checked Unit :=
  if tiles = 0 then Outcome.fail (.invalidShape (x.shape.set axis 0)) else .ok ()

/-- A tensor repeated along an axis. -/
def tile (x : Content) (axis : Int) (tiles : Nat) : Checked Computed := do
  let axis ← Shape.axis axis x.shape.rank "tile"
  x.checkTiles axis tiles
  let blocks ← x.shape.blocks axis
  let shape := x.shape.set axis (← Size.mul blocks.length tiles)
  let count ← Shape.elements shape
  if Size.signedMax < 4 * count then Outcome.stop .overflow
  else
    let repetition : Repetition := ⟨blocks.outer, blocks.length * blocks.inner, tiles⟩
    let output ← Content.make (repetition.tile x.values) shape
    return Computed.single output fun seen => .ok [.whole (repetition.fold (seen.gradient 0))]

/-- The equal tiles of an axis added up. -/
def untile (x : Content) (axis : Int) (tiles : Nat) : Checked Computed := do
  let axis ← Shape.axis axis x.shape.rank "untile"
  x.checkTiles axis tiles
  let blocks ← x.shape.blocks axis
  if blocks.length % tiles ≠ 0 then
    Outcome.fail (.indivisibleSplit blocks.length tiles "untile")
  else
    let repetition : Repetition := ⟨blocks.outer, blocks.length / tiles * blocks.inner, tiles⟩
    let output ← Content.make (repetition.fold x.values) (x.shape.set axis (blocks.length / tiles))
    return Computed.single output fun seen => .ok [.whole (repetition.tile (seen.gradient 0))]

end Content

end LayerNet
