import LayerNet.Operation.Rule

/-!
# Non-linearities — pointwise functions and the softmax of rows

A pointwise function comes with its derivative, as a function of the element before and after. The
softmax divides exponentials by their sum along the last axis, after taking off the row's maximum so
that none of them overflows.
-/

namespace LayerNet

namespace Scalar

/-- The larger of two numbers, of equal ones the second; what is no number counts for nothing. -/
def max (a b : Float32) : Float32 :=
  if a.isNaN then b else if b.isNaN then a else if b < a then a else b

/-- The logistic function, written so that the exponential never overflows. -/
def sigmoid (x : Float32) : Float32 :=
  if 0 ≤ x then 1 / (1 + Float32.exp (-x))
  else
    let e := Float32.exp x
    e / (1 + e)

end Scalar

/-- A function of one element and its derivative, from the element before and after. -/
structure Pointwise where
  function : Float32 → Float32
  derivative : Float32 → Float32 → Float32

namespace Pointwise

/-- Negative elements become zero; at zero the derivative is zero. -/
def relu : Pointwise := ⟨fun x => Scalar.max x 0, fun x _ => if 0 < x then 1 else 0⟩

/-- The logistic function. -/
def sigmoid : Pointwise := ⟨Scalar.sigmoid, fun _ y => y * (1 - y)⟩

/-- The hyperbolic tangent. -/
def tanh : Pointwise := ⟨Float32.tanh, fun _ y => 1 - y * y⟩

/-- The function at every element. -/
def compute (p : Pointwise) (x : Content) : Checked Computed := do
  let output ← Content.make (x.values.map p.function) x.shape
  return Computed.single output fun seen =>
    let slopes := Buffer.combine p.derivative (seen.input 0).values (seen.output 0).values
    .ok [.whole (Buffer.combine (· * ·) (seen.gradient 0) slopes)]

end Pointwise

/-- Quotients of the exponentials of a row by their sum. -/
def softmaxRow (row : List Float32) : List Float32 :=
  let top := row.foldl Scalar.max (-1 / 0)
  let exponentials := row.map fun x => Float32.exp (x - top)
  let total := Buffer.sum exponentials
  exponentials.map (· / total)

/-- The softmax of every row. -/
def Buffer.softmax (b : Buffer) (width : Nat) : Buffer :=
  b.mapRows width fun _ row => softmaxRow row

/-- The softmax along the last axis. -/
def Content.softmax (x : Content) : Checked Computed := do
  let width := x.shape.width
  let output ← Content.make (x.values.softmax width) x.shape
  return Computed.single output fun seen =>
    let probabilities := (seen.output 0).values
    .ok [.whole <| (seen.gradient 0).mapRows width fun r row =>
      let ys := probabilities.row width r
      let dot := Buffer.sum (List.zipWith (· * ·) row ys)
      List.zipWith (fun g y => y * (g - dot)) row ys]

end LayerNet
