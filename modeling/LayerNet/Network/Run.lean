import LayerNet.Layer.Forward
import LayerNet.Network.Basic

/-!
# Running networks — tensors travel along edges

Nodes run in order of execution, so every node runs after its predecessors. A node's results wait on
its outgoing edges until the nodes at their ends take them; what the sinks give is the result.
-/

namespace LayerNet

/-- Tensors on their way along edges, and what the sinks have given. -/
structure Traffic where
  waiting : List (Edge × TensorId)
  results : List (Nat × TensorId)

namespace Network

/-- Takes the tensors that wait on the edges into a node. -/
def takeInputs (key : String) (v : Nat) : List Nat → Traffic → Checked (List TensorId × Traffic)
  | [], t => .ok ([], t)
  | p :: rest, t =>
    match t.waiting.lookup (p, v) with
    | none => Outcome.fail (.internal (.missingTensor key))
    | some id => do
      let t := { t with waiting := t.waiting.filter fun (e, _) => e != (p, v) }
      let (ids, t) ← takeInputs key v rest t
      return (id :: ids, t)

/-- Runs one node. A root is handed the network's input. -/
def runNode (n : Network) (input : TensorId) (t : Traffic) (v : Nat) :
    Step TensorError Traffic := do
  match n.node? v with
  | none => return t
  | some node =>
    let predecessors := n.graph.predecessorsInOrder v
    let (inputs, t) ←
      if predecessors.isEmpty then pure ([input], t)
      else Step.lift (takeInputs node.key v predecessors t)
    let outputs ← node.layer.forward inputs
    let successors := n.graph.successorsInOrder v
    if outputs.length ≠ max successors.length 1 then
      Step.fail (.internal (.outputCount node.key outputs.length successors.length))
    else if successors.isEmpty then
      return { t with results := t.results ++ outputs.map fun id => (v, id) }
    else
      return { t with waiting := t.waiting ++ (successors.map fun s => (v, s)).zip outputs }

/-- Runs the network on a batch and gives the results of the sinks in order of creation. -/
def forwardAll (n : Network) (input : TensorId) : Step TensorError (List TensorId) := do
  let t ← n.graph.executionOrder.foldlM (n.runNode input) ⟨[], []⟩
  return (List.range n.nodeCount).flatMap fun v =>
    t.results.filterMap fun (w, id) => if w = v then some id else none

/-- Runs the network on a batch and gives the result of the first sink. -/
def forward (n : Network) (input : TensorId) : Step TensorError TensorId := do
  match ← n.forwardAll input with
  | id :: _ => return id
  | [] => Step.fail (.internal .noSink)

/-- Adds the gradients of the losses to outputs, sink by sink, and gives the sum of the losses. -/
def seedSinks (n : Network) (total : Float32) :
    List (Nat × TensorId × TensorId) → Step TensorError Float32
  | [] => pure total
  | (sink, output, target) :: rest => do
    match n.node? sink with
    | none => Step.lift Outcome.fatal
    | some node =>
      match node.layer.loss? with
      | none => Step.fail (.unsupported (.notLoss node.key))
      | some loss =>
        let value ← loss.seed output target
        seedSinks n (total + value) rest

/-- Adds the gradients of the losses to the outputs of the sinks, one target for each. -/
def seedLoss (n : Network) (outputs targets : List TensorId) : Step TensorError Float32 := do
  let sinks := n.sinks
  if outputs.length ≠ sinks.length ∨ targets.length ≠ sinks.length then
    Step.fail (.unsupported (.lossCounts sinks.length outputs.length targets.length))
  else n.seedSinks 0 (sinks.zip (outputs.zip targets))

end Network

end LayerNet
