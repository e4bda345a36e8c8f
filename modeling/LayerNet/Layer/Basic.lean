import LayerNet.Layer.Kind
import LayerNet.Operation.Convolution
import LayerNet.Operation.Normalization
import LayerNet.Store

/-!
# Layers — the nodes of a network

A layer knows the shapes of one sample that it takes and gives; the tensors it runs on carry one
more axis in front, the batch. Parameters are tensors in the store, so an optimizer that changes
them changes the layer.

The token of a layer rebuilds it (`Layer.token`). Where it tells the extents of a kernel they are
read off the parameter as it stands.
-/

namespace LayerNet

/-- A layer, its settings and its parameters. -/
inductive Layer where
  | input (shape : Shape)
  | fullyConnected (inputShape outputShape : Shape) (weight bias : TensorId)
  | convolution (inputShape outputShape : Shape) (windowing : Windowing) (kernel bias : TensorId)
  | pool (pooling : Pooling) (size : Nat) (inputShape outputShape : Shape)
  | recurrent (inputShape outputShape : Shape) (summarize : Bool)
      (inputWeight stateWeight bias : TensorId)
  | dropout (keep : Float32) (shape : Shape)
  | scale (factor : Float32) (shape : Shape)
  | normalization (settings : Normalization) (shape : Shape)
  | split (branches : Nat) (shape : Shape)
  | concat (inputs : Nat) (shape : Shape)
  | activation (activation : Activation) (shape : Shape)
  | loss (loss : Loss) (shape : Shape)

namespace Layer

/-- The kind of a layer. -/
def kind : Layer → LayerKind
  | input .. => .input
  | fullyConnected .. => .fullyConnected
  | convolution .. => .convolution
  | pool .max .. => .maxPool
  | pool .average .. => .averagePool
  | recurrent .. => .recurrent
  | dropout .. => .dropout
  | scale .. => .scale
  | normalization .. => .normalization
  | split .. => .split
  | concat .. => .concat
  | activation .. => .activation
  | loss .. => .loss

/-- The shape of one sample of each result. -/
def outputShape : Layer → Shape
  | input shape | dropout _ shape | scale _ shape | normalization _ shape | split _ shape
  | concat _ shape | activation _ shape | loss _ shape => shape
  | fullyConnected _ shape _ _ => shape
  | convolution _ shape _ _ _ => shape
  | pool _ _ _ shape => shape
  | recurrent _ shape _ _ _ _ => shape

/-- How many tensors the layer gives. Only a split gives several. -/
def outputCount : Layer → Nat
  | split branches _ => branches
  | _ => 1

/-- The parameters. -/
def parameters : Layer → List TensorId
  | fullyConnected _ _ weight bias => [weight, bias]
  | convolution _ _ _ kernel bias => [kernel, bias]
  | recurrent _ _ _ inputWeight stateWeight bias => [inputWeight, stateWeight, bias]
  | _ => []

/-- The bias, where there is one. -/
def bias? : Layer → Option TensorId
  | fullyConnected _ _ _ bias | convolution _ _ _ _ bias | recurrent _ _ _ _ _ bias => some bias
  | _ => none

/-- Whether the layer has parameters. -/
def isTrainable (l : Layer) : Bool := !l.parameters.isEmpty

/-- Whether a non-linearity should follow before the next trainable layer. -/
def needsActivation : Layer → Bool
  | fullyConnected .. | convolution .. => true
  | _ => false

/-- The non-linearity of an activation layer. -/
def activation? : Layer → Option Activation
  | activation a _ => some a
  | _ => none

/-- The loss of a loss layer. -/
def loss? : Layer → Option Loss
  | loss l _ => some l
  | _ => none

/-- A pair of extents as tokens write it, after a plus and before its mark. -/
def extentsToken (extents : Nat × Nat) (mark : String) : String :=
  let (rows, columns) := extents
  s!"+{rows}x{columns}({mark})"

/-- The token that rebuilds the layer. -/
def token (store : Store) : Layer → Checked String
  | input shape => return "x".intercalate (shape.map toString)
  | fullyConnected _ shape _ _ => return toString (shape.extent 0) ++ "N"
  | convolution _ _ windowing kernel _ => do
    let shape := (← store.tensor kernel).shape
    let filters ← Outcome.get shape[3]?
    let rows ← Outcome.get shape[0]?
    let columns ← Outcome.get shape[1]?
    let stride := if windowing.stride ≠ (1, 1) then extentsToken windowing.stride "S" else ""
    let padding := if windowing.padding ≠ (0, 0) then extentsToken windowing.padding "P" else ""
    return s!"{filters}C{rows}x{columns}" ++ stride ++ padding
  | pool pooling size _ _ => return s!"{size}x{size}" ++ pooling.token
  | recurrent _ _ summarize _ _ bias => do
    return toString (← store.tensor bias).count ++ (if summarize then "RS" else "R")
  | dropout keep _ => return "D" ++ settingText keep
  | scale factor _ => return "S" ++ settingText factor
  | normalization settings _ =>
    if settings.size = Normalization.standard.size then return "LRN"
    else return "LRN" ++ toString settings.size
  | split .. => return "SPLIT"
  | concat .. => return "CONCAT"
  | activation a _ => return a.token
  | loss l _ => return l.token

/-- The store with the bias filled with a value, where the layer has a bias. -/
def fillBias (l : Layer) (value : Float32) (store : Store) : Store :=
  match l.bias? with
  | some bias => store.fill bias value
  | none => store

end Layer

end LayerNet
