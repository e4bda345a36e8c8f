import LayerNet.Blueprint.Basic
import LayerNet.Layer.Build

/-!
# From blueprints to layers — where a layer stands decides its shapes

A blueprint becomes a layer at a placement: the shapes that its predecessors give, in order, and how
many edges leave it. Only a concatenation takes more than one shape. An input takes its open axes
from the shape it is given; one that is not the source has to agree with it altogether.
-/

namespace LayerNet

/-- Where a layer stands in a network. -/
structure Placement where
  inputShapes : List Shape
  outDegree : Nat
  isSource : Bool

namespace Blueprint

/-- The axes of an input, the open ones taken from a shape of the same rank. -/
def closeDims (dims : List (Option Nat)) (shape : Shape) : Checked Shape :=
  if none ∈ dims ∧ dims.length ≠ shape.rank then
    Outcome.fail (.shapeMismatch shape (dims.map (·.getD 0)) "input declaration")
  else .ok (dims.zipIdx.map fun (dim, i) => dim.getD (shape.extent i))

/-- The layer of an input blueprint. -/
def placeInput (dims : List (Option Nat)) (shape : Shape) (isSource : Bool) : Checked Layer := do
  let declared ← closeDims dims shape
  if !isSource && declared != shape then
    Outcome.fail (.shapeMismatch declared shape "input declaration")
  else Layer.ofInput declared

/-- The layer of a blueprint that takes one shape. -/
def placeOne (blueprint : Blueprint) (shape : Shape) (placement : Placement) : Building Layer :=
  match blueprint with
  | input dims => Building.lift (placeInput dims shape placement.isSource)
  | fullyConnected units => Layer.ofUnits shape units
  | convolution filters size windowing => Layer.ofFilters shape filters size windowing
  | pool pooling size => Building.lift (Layer.ofPooling pooling size shape)
  | recurrent units summarize => Layer.ofStates shape units summarize
  | dropout keep => Building.lift (Layer.ofKeep keep shape)
  | scale factor => return .scale factor shape
  | normalization size =>
    let standard := Normalization.standard
    return .normalization { standard with size := size.getD standard.size } shape
  | split => return .split (max placement.outDegree 1) shape
  | concat => Building.lift (Layer.ofInputs placement.inputShapes)
  | activation a => return .activation a shape
  | loss l => return .loss l shape

/-- The layer of a blueprint at a placement. -/
def instantiate (blueprint : Blueprint) (placement : Placement) : Building Layer :=
  match placement.inputShapes with
  | [shape] => blueprint.placeOne shape placement
  | shapes =>
    if blueprint.isConcat then Building.lift (Layer.ofInputs shapes)
    else Building.fail (.internal (.inputShapes blueprint.title shapes.length))

end Blueprint

end LayerNet
