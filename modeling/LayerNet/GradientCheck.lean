import LayerNet.Session

/-!
# Gradient check — replayed gradients against central differences

The checked function builds a tensor from tensors. The scalar whose gradient is checked is the sum
of its elements, weighted by a given output gradient. The replayed gradient of every element of
every input is compared with the difference quotient over a step to both sides; all sums over
outputs and all comparisons are in 64-bit arithmetic.
-/

namespace LayerNet

/-- Why a gradient check failed. -/
inductive GradientError where
  | mismatch (input element : Nat) (replayed numerical difference : Float)
  | forward (cause : TensorError)
  | backward (cause : TensorError)
  | outputLength (expected actual : Nat)
  | notFinite (input element : Nat)
  | tensor (cause : TensorError)

open Decimal in
/-- The text of an error. -/
def GradientError.message : GradientError → String
  | .mismatch input element replayed numerical difference =>
    s!"Gradient check failed for input tensor at index {input}, element index {element}: "
      ++ "Analytical grad " ++ pointedDouble replayed
      ++ " != Numerical grad " ++ pointedDouble numerical
      ++ ". Difference: " ++ pointedDouble difference
  | .forward cause => "Forward function execution failed during gradient check: " ++ cause.message
  | .backward cause => "Backward pass execution failed during gradient check: " ++ cause.message
  | .outputLength expected actual =>
    s!"Output gradient has {actual} elements but the output has {expected}"
  | .notFinite input element =>
    s!"Numerical gradient is NaN or infinite for input {input}, element {element}"
  | .tensor cause => "Tensor error during intermediate calculation: " ++ cause.message

namespace GradientCheck

/-- The larger of two finite numbers. -/
def larger (a b : Float) : Float := if a < b then b else a

/-- Equal, or finite and apart by at most the tolerance, taken absolutely or relatively to the
larger of the two. -/
def isClose (tolerance a b : Float) : Bool :=
  a == b ||
    (!a.isInf && !b.isInf &&
      (let apart := (a - b).abs
       apart ≤ tolerance || apart ≤ larger a.abs b.abs * tolerance))

/-- The weighted sum of outputs, from the left, starting at negative zero. -/
def weightedSum (values weights : Buffer) : Float :=
  (Array.zipWith (fun (v w : Float32) => v.toFloat * w.toFloat) values weights).foldl (· + ·) (-0.0)

/-- A function to check: it builds a tensor in the session at work. -/
abbrev Subject := List TensorId → Step TensorError TensorId

/-- The weighted sum with one element of one input moved. -/
def sumAt (f : Subject) (inputs : List TensorId) (weights : Buffer) (input element : Nat)
    (shift : Float32) : Step GradientError Float := do
  let id ← Step.lift (Outcome.get inputs[input]?)
  let resting ← Step.tensor id
  let moved := resting.values.modify element (· + shift)
  let content ← Step.mapCause .tensor (Step.lift (Content.make moved resting.shape))
  let shifted ← Step.add content none
  Step.mapCause .tensor (Session.start false)
  let output ← Step.mapCause .forward (f (inputs.set input shifted))
  return weightedSum (← Step.tensor output).values weights

/-- Compares one element of one gradient. -/
def checkElement (f : Subject) (inputs : List TensorId) (weights : Buffer) (epsilon : Float32)
    (tolerance : Float) (input element : Nat) (replayed : Float32) : Step GradientError Unit := do
  let above ← sumAt f inputs weights input element epsilon
  let below ← sumAt f inputs weights input element (-epsilon)
  let numerical := (above - below) / (2 * epsilon.toFloat)
  if !numerical.isFinite then Step.fail (.notFinite input element)
  else if !isClose tolerance replayed.toFloat numerical then
    let difference := (replayed.toFloat - numerical).abs
    Step.fail (.mismatch input element replayed.toFloat numerical difference)
  else pure ()

/-- The replayed gradients of the inputs. -/
def replayed (f : Subject) (inputs : List TensorId) (weights : Buffer) :
    Step GradientError (List Buffer) := do
  inputs.forM fun id => Step.modifyStore fun s => s.dropGradient id
  Step.mapCause .tensor (Session.start false)
  let output ← Step.mapCause .forward (f inputs)
  let tensor ← Step.tensor output
  if tensor.count ≠ weights.size then Step.fail (.outputLength tensor.count weights.size)
  else
    let seeded ← Step.mapCause .tensor (Step.lift (tensor.accumulate weights))
    Step.modifyStore fun s => s.put output seeded
    Step.mapCause .backward Session.finalize
    inputs.mapM fun id => return (← Step.tensor id).gradientOrZeros

/-- Checks the gradients of a function at the given inputs. -/
def check (f : Subject) (inputs : List TensorId) (weights : Buffer) (epsilon : Float32)
    (tolerance : Float) : Step GradientError Unit := do
  let gradients ← replayed f inputs weights
  (gradients.zipIdx).forM fun (gradient, input) =>
    gradient.toList.zipIdx.forM fun (g, element) =>
      checkElement f inputs weights epsilon tolerance input element g

end GradientCheck

end LayerNet
