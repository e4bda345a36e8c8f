import LayerNet.Blueprint.Instantiate
import LayerNet.Component.Basic
import LayerNet.Digraph.Rewiring
import LayerNet.Network.Basic
import LayerNet.Network.Options

/-!
# Building networks — layers for components, and what is added to them

Layers are built in order of execution, because a layer needs the shapes that its predecessors give.
The network has the component graph's nodes and edges. Then losses are added to its sinks and
non-linearities behind the layers that ask for one, and the layers directly in front of a rectifier
get a bias that keeps their units active at first.
-/

namespace LayerNet

/-- A computation that builds parts of a network. -/
abbrev Compiling (α : Type) := StateT Supply (Outcome CompileError) α

namespace Compiling

/-- An error with its cause. -/
def fail {α : Type} (cause : CompileError) : Compiling α :=
  liftM (Outcome.fail cause : Outcome CompileError α)

/-- The building of a part, with its errors told as the compilation's. -/
def ofBuilding {α : Type} (f : TensorError → CompileError) (x : Building α) : Compiling α :=
  fun supply => Outcome.mapCause f (x.run supply)

end Compiling

/-! ## Layers -/

/-- Layers built so far, by the number of their component. -/
abbrev Layers := List (Nat × Layer)

/-- Where a component stands, once its predecessors are built. -/
def placementOf (g : Digraph Component) (key : String) (v : Nat) (layers : Layers)
    (inputShape : Shape) : Outcome CompileError Placement := do
  let predecessors := g.predecessorsInOrder v
  let shapes ← predecessors.mapM fun p =>
    match layers.lookup p with
    | some layer => return layer.outputShape
    | none => Outcome.fail (.tensor (.internal (.builtEarly key)))
  let isSource := predecessors.isEmpty
  return ⟨if isSource then [inputShape] else shapes, g.outDegree v, isSource⟩

/-- Builds the layer of a component. An input at the source tells the network's input shape. -/
def buildLayer (g : Digraph Component) (inputShape : Shape) (built : Layers × Shape) (v : Nat) :
    Compiling (Layers × Shape) := do
  match g.label? v with
  | none => return built
  | some component =>
    let placement ← liftM (placementOf g component.key v built.1 inputShape)
    let layer ←
      Compiling.ofBuilding (.layer component.key) (component.blueprint.instantiate placement)
    let isEntry := placement.isSource && component.blueprint.isInput
    return ((v, layer) :: built.1, if isEntry then layer.outputShape else built.2)

/-- The network of a component graph, before anything is added. -/
def buildNetwork (c : ComponentGraph) (inputShape : Shape) : Compiling Network := do
  let g := c.graph
  let (layers, declared) ← g.executionOrder.foldlM (buildLayer g inputShape) ([], inputShape)
  let nodes ← g.vertices.toList.zipIdx.mapM fun (component, v) =>
    match layers.lookup v with
    | some layer => return (⟨component.key, layer⟩ : Node)
    | none => Compiling.fail (.tensor (.internal (.neverBuilt component.key)))
  return ⟨g.copyWith nodes.toArray, declared⟩

/-! ## Additions -/

namespace Network

/-- The key of an added node. -/
def addedKey (n : Network) (token : String) : String := token ++ "#" ++ toString n.nodeCount

/-- The network with a loss behind a sink that has none. -/
def addLoss (loss : Loss) (n : Network) (sink : Nat) : Network :=
  match n.node? sink with
  | none => n
  | some node =>
    if node.layer.loss?.isSome then n
    else
      let added : Node := ⟨n.addedKey loss.token, .loss loss node.layer.outputShape⟩
      { n with graph := (n.graph.addVertex added).addEdge sink n.nodeCount }

/-- The network with a loss behind every sink. -/
def addLosses (loss : Loss) (n : Network) : Network := n.sinks.foldl (addLoss loss) n

/-- Whether a layer is a maximum pooling. -/
def isMaxPool (l : Layer) : Bool := l.kind = .maxPool

/-- Whether a layer is a non-linearity or a loss. -/
def isActivationOrLoss (l : Layer) : Bool := l.kind = .activation || l.kind = .loss

/-- The node behind which a layer's non-linearity belongs: the layer itself, or the maximum pooling
that alone follows it. -/
def activationPlace (n : Network) (v : Nat) : Nat :=
  match n.graph.successors v with
  | [next] => if n.layerIs isMaxPool next then next else v
  | _ => v

/-- The network with a non-linearity for a layer, unless one, or a loss, follows already. -/
def addActivation (activation : Activation) (n : Network) (v : Nat) : Network :=
  let place := n.activationPlace v
  match n.node? place with
  | none => n
  | some node =>
    if (n.graph.successors place).any (n.layerIs isActivationOrLoss) then n
    else
      let layer := Layer.activation activation node.layer.outputShape
      let added : Node := ⟨n.addedKey activation.token, layer⟩
      { n with graph := n.graph.insertAfter place added }

/-- The network with a non-linearity for every layer that asks for one. -/
def addActivations (activation : Activation) (n : Network) : Network :=
  let asking := (List.range n.nodeCount).filter (n.layerIs Layer.needsActivation)
  asking.foldl (addActivation activation) n

/-- Whether a layer is a rectifier. -/
def isRectifier (l : Layer) : Bool := l.activation? = some .relu

/-- The trainable layers directly in front of a rectifier. -/
def rectified (n : Network) : List Layer :=
  (List.range n.nodeCount).filterMap fun v =>
    match n.node? v with
    | some node =>
      if node.layer.isTrainable && (n.graph.successors v).any (n.layerIs isRectifier) then
        some node.layer
      else none
    | none => none

/-- The store with the bias of all layers in front of a rectifier filled. -/
def fillRectified (n : Network) (bias : Float32) (store : Store) : Store :=
  n.rectified.foldl (fun s layer => layer.fillBias bias s) store

end Network

/-- The network of a component graph under the given options. -/
def ComponentGraph.build (c : ComponentGraph) (options : Options) : Compiling Network := do
  let plain ← buildNetwork c options.inputShape
  let ended := if options.addLosses then plain.addLosses options.loss else plain
  let n := if options.addActivations then ended.addActivations options.activation else ended
  modify fun supply => { supply with store := n.fillRectified options.rectifierBias supply.store }
  return n

end LayerNet
