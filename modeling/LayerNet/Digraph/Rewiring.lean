import LayerNet.Digraph.Basic

/-!
# Rewiring — a vertex inserted into all edges on one side of another

`insertAfter` moves the edges that leave a vertex onto a new vertex behind it; `insertBefore` moves
the edges that enter it onto a new vertex in front. Edges are moved in order of creation of the
vertices at their other ends, and the edge between the two vertices comes last.
-/

namespace LayerNet

namespace Digraph

variable {α : Type}

/-- The graph with a new vertex behind a vertex, from which all its edges now leave. -/
def insertAfter (g : Digraph α) (v : Nat) (a : α) : Digraph α :=
  let inserted := g.size
  let moved := (g.successorsInOrder v).foldl
    (fun g target => (g.removeEdge v target).addEdge inserted target) (g.addVertex a)
  moved.addEdge v inserted

/-- The graph with a new vertex in front of a vertex, into which all its edges now lead. -/
def insertBefore (g : Digraph α) (v : Nat) (a : α) : Digraph α :=
  let inserted := g.size
  let moved := (g.predecessorsInOrder v).foldl
    (fun g source => (g.removeEdge source v).addEdge source inserted) (g.addVertex a)
  moved.addEdge inserted v

end Digraph

end LayerNet
