import LayerNet.Generator
import LayerNet.Tensor

/-!
# Initial contents — constants and random draws

New tensors start from a constant or from random samples. The shape is checked first, then the
settings of the distribution, and last that the buffer is not larger than memory can be addressed.

The two initializers for weights scale by the numbers of inputs and outputs of a layer: `glorot`
draws from an interval, `he` from a normal distribution.
-/

namespace LayerNet

namespace Content

/-- The number of elements of a shape whose buffer can be addressed. -/
def room (shape : Shape) : Checked Nat := do
  let count ← shape.elements
  if Size.signedMax < 4 * count then Outcome.stop .overflow else return count

/-- A tensor of equal elements. -/
def full (shape : Shape) (value : Float32) : Checked Content := do
  shape.validate
  make (Buffer.filled (← room shape) value) shape

/-- A tensor of zeros. -/
def zeros (shape : Shape) : Checked Content := full shape 0

/-- Samples from the interval from `low` up to, but not including, `high`. -/
def uniform (shape : Shape) (low high : Float32) (g : Generator) :
    Checked (Content × Generator) := do
  shape.validate
  if ¬ low < high then Outcome.fail (.unsupported (.interval low high))
  else if !(low.isFinite && high.isFinite && (high - low).isFinite) then Outcome.stop .nonFinite
  else
    let (values, g) := g.uniform low high (← room shape)
    return (← make values shape, g)

/-- Normal samples of mean zero and the given standard deviation. -/
def normal (shape : Shape) (std : Float32) (g : Generator) : Checked (Content × Generator) := do
  shape.validate
  if !std.isFinite then Outcome.fail (.unsupported (.deviation std))
  else
    let (values, g) := g.normal std (← room shape)
    return (← make values shape, g)

end Content

/-- The bound of the interval for weights between `fanIn` inputs and `fanOut` outputs. -/
def glorotLimit (fanIn fanOut : Nat) : Checked Float32 := do
  let fans ← Size.add fanIn fanOut
  return Float32.sqrt (6 / Float32.ofNat (max fans 1))

/-- Weights that keep the variance of values and of gradients alike. -/
def Content.glorot (shape : Shape) (fanIn fanOut : Nat) (g : Generator) :
    Checked (Content × Generator) := do
  let limit ← glorotLimit fanIn fanOut
  uniform shape (-limit) limit g

/-- The standard deviation of weights in front of a rectifier. -/
def heDeviation (fanIn : Nat) : Float32 :=
  Float32.sqrt (2 / Float32.ofNat (max fanIn 1))

/-- Weights in front of a rectifier. -/
def Content.he (shape : Shape) (fanIn : Nat) (g : Generator) : Checked (Content × Generator) :=
  normal shape (heDeviation fanIn) g

end LayerNet
