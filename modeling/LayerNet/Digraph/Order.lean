import LayerNet.Digraph.Basic

/-!
# Orders on graphs — execution, and a vertex on a cycle

`executionOrder` takes vertices off a stack: all roots are put there first, and a vertex is put
there when the last of its predecessors has been taken. On an acyclic graph every vertex is met after
its predecessors; vertices on a cycle are never met.

`cycleVertex?` finds a vertex that lies on a cycle. It lists vertices by the end of a depth-first
search along the edges (`finished`) and searches against the edges from each in turn, the last
finished first: a search that meets a second vertex has found one it can reach and be reached from.

Searches are bounded by the number of times that vertices can be put on the stack.
-/

namespace LayerNet

namespace Digraph

variable {α : Type}

/-- How often vertices can be put on a stack: once at first, and once for every edge. -/
def pushes (g : Digraph α) : Nat := g.size + g.edges.length

/-! ## Execution -/

/-- The successors of a vertex that have no predecessor left to visit. -/
def ready (g : Digraph α) (visited : List Nat) (v : Nat) : List Nat :=
  (g.successors v).filter fun w => (g.predecessors w).all visited.contains

/-- The vertices as they are taken off the stack for the first time. -/
def takeReady (g : Digraph α) : Nat → List Nat → List Nat → List Nat
  | 0, _, _ => []
  | _ + 1, [], _ => []
  | steps + 1, v :: stack, visited =>
    if visited.contains v then takeReady g steps stack visited
    else
      let visited := v :: visited
      v :: takeReady g steps ((g.ready visited v).reverse ++ stack) visited

/-- The order of execution. -/
def executionOrder (g : Digraph α) : List Nat :=
  g.takeReady (g.pushes + 1) g.roots.reverse []

/-! ## Cycles -/

/-- A depth-first search: the stack, the vertices discovered, and those finished, the last first. -/
structure Search where
  stack : List Nat
  discovered : List Nat
  finished : List Nat

/-- Searches along the edges until the stack is empty. A vertex stays on the stack, below the
successors it put there, until it comes up again. -/
def searchAlong (g : Digraph α) : Nat → Search → Search
  | 0, s => s
  | steps + 1, s =>
    match s.stack with
    | [] => s
    | v :: rest =>
      if s.discovered.contains v then
        let finished := if s.finished.contains v then s.finished else v :: s.finished
        searchAlong g steps { s with stack := rest, finished }
      else
        let discovered := v :: s.discovered
        let fresh := (g.successors v).filter fun w => !discovered.contains w
        searchAlong g steps { s with stack := fresh.reverse ++ s.stack, discovered }

/-- The vertices by the end of their search, the last first. -/
def finished (g : Digraph α) : List Nat :=
  let search := (List.range g.size).foldl (fun s v =>
    if s.discovered.contains v then s
    else g.searchAlong (2 * g.pushes + 1) { s with stack := [v] }) ⟨[], [], []⟩
  search.finished

/-- Searches against the edges and gives the vertices that are met for the first time. -/
def searchAgainst (g : Digraph α) : Nat → List Nat → List Nat → List Nat
  | 0, _, _ => []
  | _ + 1, [], _ => []
  | steps + 1, v :: stack, discovered =>
    if discovered.contains v then searchAgainst g steps stack discovered
    else
      let discovered := v :: discovered
      let fresh := (g.predecessors v).filter fun w => !discovered.contains w
      v :: searchAgainst g steps (fresh.reverse ++ stack) discovered

/-- The first vertex that one of the searches meets second. -/
def secondMet (g : Digraph α) (discovered : List Nat) : List Nat → Option Nat
  | [] => none
  | v :: rest =>
    match g.searchAgainst (g.pushes + 1) [v] discovered with
    | _ :: w :: _ => some w
    | met => secondMet g (met ++ discovered) rest

/-- A vertex on a cycle, if there is a cycle. -/
def cycleVertex? (g : Digraph α) : Option Nat := g.secondMet [] g.finished

end Digraph

end LayerNet
