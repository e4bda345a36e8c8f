import LayerNet.Operation.Rule

/-!
# Elementwise arithmetic — sums, products, biases and factors

The product's way back multiplies with the values that the other operand has at replay. A bias is a
vector that is added to every row along the last axis; its gradient is the sum of the rows.
-/

namespace LayerNet

namespace Content

/-- Refuses operands of different shapes. -/
def checkSameShape (a b : Content) (operation : String) : Checked Unit :=
  if a.shape = b.shape then .ok () else Outcome.fail (.shapeMismatch a.shape b.shape operation)

/-- The elementwise sum. -/
def add (a b : Content) : Checked Computed := do
  a.checkSameShape b "add"
  let output ← Content.make (Buffer.combine (· + ·) a.values b.values) a.shape
  return Computed.single output fun seen =>
    .ok [.whole (seen.gradient 0), .whole (seen.gradient 0)]

/-- The elementwise product. -/
def mul (a b : Content) : Checked Computed := do
  a.checkSameShape b "mul"
  let output ← Content.make (Buffer.combine (· * ·) a.values b.values) a.shape
  return Computed.single output fun seen =>
    .ok [.whole (Buffer.combine (· * ·) (seen.gradient 0) (seen.input 1).values),
      .whole (Buffer.combine (· * ·) (seen.gradient 0) (seen.input 0).values)]

/-- Every element times a factor. -/
def scale (x : Content) (factor : Float32) : Checked Computed := do
  let output ← Content.make (x.values.map (· * factor)) x.shape
  return Computed.single output fun seen => .ok [.whole ((seen.gradient 0).map (· * factor))]

end Content

/-- The sums over the rows of `width` elements, each from the top. -/
def Buffer.columnSums (b : Buffer) (width : Nat) : Buffer :=
  Buffer.tabulate width fun column =>
    Buffer.tally ((List.range (b.size / width)).map fun row => b.element (row * width + column))

/-- A vector added to every row. -/
def Content.addBias (x bias : Content) : Checked Computed := do
  if bias.shape.rank ≠ 1 ∨ x.shape.getLast? ≠ bias.shape.head? then
    Outcome.fail (.shapeMismatch (x.shape.drop (x.shape.rank - 1)) bias.shape "add_bias")
  else
    let width := bias.count
    let sum (i : Nat) : Float32 := x.values.element i + bias.values.element (i % width)
    let output ← Content.make (Buffer.tabulate x.count sum) x.shape
    return Computed.single output fun seen =>
      .ok [.whole (seen.gradient 0), .whole ((seen.gradient 0).columnSums (seen.input 1).count)]

end LayerNet
