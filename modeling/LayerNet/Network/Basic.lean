import LayerNet.Digraph.Order
import LayerNet.Layer.Basic

/-!
# Networks — layers wired together

A node is a layer under a key. A network is a graph of nodes and the shape of one sample that its
root expects. A node receives one tensor per incoming edge, in order of creation of its
predecessors, and hands out one per outgoing edge, in order of creation of its successors.
-/

namespace LayerNet

/-- A layer under a key. -/
structure Node where
  key : String
  layer : Layer

/-- Layers and their edges, and the shape of a sample. -/
structure Network where
  graph : Digraph Node
  inputShape : Shape

namespace Network

/-- The node with a number. -/
def node? (n : Network) (v : Nat) : Option Node := n.graph.label? v

/-- The number of nodes. -/
def nodeCount (n : Network) : Nat := n.graph.size

/-- The number of edges. -/
def edgeCount (n : Network) : Nat := n.graph.edges.length

/-- The nodes in order of creation. -/
def nodes (n : Network) : List Node := n.graph.vertices.toList

/-- The nodes in order of execution. -/
def executed (n : Network) : List Node := n.graph.executionOrder.filterMap n.node?

/-- The kinds of the layers in order of execution. -/
def kinds (n : Network) : List LayerKind := n.executed.map fun node => node.layer.kind

/-- The parameters of the layers in order of execution. -/
def parameters (n : Network) : List TensorId := n.executed.flatMap fun node => node.layer.parameters

/-- The nodes without successors. -/
def sinks (n : Network) : List Nat := n.graph.sinks

/-- The layer compiled under a key. -/
def layer? (n : Network) (key : String) : Option Layer :=
  (n.nodes.find? fun node => node.key == key).map Node.layer

/-- Whether a node's layer satisfies a test. -/
def layerIs (n : Network) (test : Layer → Bool) (v : Nat) : Bool :=
  (n.node? v).any fun node => test node.layer

end Network

end LayerNet
