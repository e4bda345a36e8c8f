import LayerNet.Initial
import LayerNet.Layer.Basic

/-!
# Building layers — shapes checked, parameters drawn

A layer is built for the shape of one sample. What does not fit is refused here, before any tensor
runs through; parameters are drawn and stored on the way (`Building`).
-/

namespace LayerNet

/-- Where new layers store their parameters and what they draw them from. -/
structure Supply where
  store : Store
  words : Generator

/-- A computation that stores and draws parameters. -/
abbrev Building (α : Type) := StateT Supply (Outcome TensorError) α

namespace Building

/-- A computation that needs neither. -/
def lift {α : Type} (x : Checked α) : Building α := liftM x

/-- An error with its cause. -/
def fail {α : Type} (cause : TensorError) : Building α := lift (Outcome.fail cause)

/-- A content drawn at random. -/
def draw (f : Generator → Checked (Content × Generator)) : Building Content := do
  let supply ← get
  let (content, words) ← lift (f supply.words)
  set { supply with words }
  return content

/-- A content stored as a parameter of the given name. -/
def parameter (name : String) (content : Content) : Building TensorId :=
  modifyGet fun supply =>
    let (id, store) := supply.store.add content (some name)
    (id, { supply with store })

/-- A parameter of zeros. -/
def zeros (name : String) (shape : Shape) : Building TensorId := do
  parameter name (← lift (Content.zeros shape))

end Building

namespace Layer

open Building

/-- The entry of a network. -/
def ofInput (shape : Shape) : Checked Layer := do
  shape.validate
  return .input shape

/-- A layer that multiplies each sample, flattened, with a matrix and adds a bias. -/
def ofUnits (inputShape : Shape) (units : Nat) : Building Layer := do
  let fanIn ← lift inputShape.elements
  let weight ← draw (Content.glorot [fanIn, units] fanIn units)
  let bias ← lift (Content.zeros [units])
  let weight ← parameter "fc.weight" weight
  let bias ← parameter "fc.bias" bias
  return .fullyConnected inputShape [units] weight bias

/-- A convolution with square kernels of the given size. -/
def ofFilters (inputShape : Shape) (filters size : Nat) (windowing : Windowing) :
    Building Layer := do
  match inputShape with
  | [height, width, channels] =>
    match ← lift (windowing.extents height width size size) with
    | none => fail (.shapeMismatch [size, size] [height, width] "convolution")
    | some (rows, columns) =>
      let area ← lift (Size.mul size size)
      let fanIn ← lift (Size.mul area channels)
      let kernel ← draw (Content.he [size, size, channels, filters] fanIn)
      let kernel ← parameter "conv.kernel" kernel
      let bias ← zeros "conv.bias" [filters]
      return .convolution inputShape [rows, columns, filters] windowing kernel bias
  | _ => fail (.rankTooLow inputShape "convolution expects [height, width, channels]")

/-- A pooling of square windows that cover the image without a rest. -/
def ofPooling (pooling : Pooling) (size : Nat) (inputShape : Shape) : Checked Layer :=
  match inputShape with
  | [height, width, channels] =>
    match [height, width].find? fun extent => size == 0 || extent % size != 0 with
    | some extent => Outcome.fail (.indivisibleSplit extent size "pooling")
    | none => .ok (.pool pooling size inputShape [height / size, width / size, channels])
  | _ => Outcome.fail (.rankTooLow inputShape "pooling expects [height, width, channels]")

/-- A recurrence over the first axis of a sample. It gives all states, or only the last. -/
def ofStates (inputShape : Shape) (units : Nat) (summarize : Bool) : Building Layer := do
  match inputShape with
  | steps :: frame@(_ :: _) =>
    let features ← lift (Size.product frame)
    let inputWeight ← draw (Content.glorot [features, units] features units)
    let inputWeight ← parameter "rnn.input_weight" inputWeight
    let stateWeight ← draw (Content.glorot [units, units] units units)
    let stateWeight ← parameter "rnn.state_weight" stateWeight
    let bias ← zeros "rnn.bias" [units]
    let outputShape := if summarize then [units] else [steps, units]
    return .recurrent inputShape outputShape summarize inputWeight stateWeight bias
  | _ => fail (.rankTooLow inputShape "recurrent expects [time, features...]")

/-- A layer that strikes out elements while training. -/
def ofKeep (keep : Float32) (shape : Shape) : Checked Layer :=
  if 0 < keep ∧ keep ≤ 1 then .ok (.dropout keep shape)
  else Outcome.fail (.unsupported (.keep keep))

/-- A layer that joins its inputs along the last axis, on which alone they may differ. -/
def ofInputs (inputShapes : List Shape) : Checked Layer := do
  let first :: rest := inputShapes | Outcome.fail (.emptyTensorList "concat layer")
  if first = [] then Outcome.fail (.invalidShape first)
  else
    let last := first.rank - 1
    let width ← rest.foldlM (fun width (other : Shape) => do
      if other.rank ≠ first.rank ∨ other.take last ≠ first.take last then
        Outcome.fail (.shapeMismatch first other "concat layer")
      else Size.add width other.width) first.width
    return .concat inputShapes.length (first.set last width)

end Layer

end LayerNet
