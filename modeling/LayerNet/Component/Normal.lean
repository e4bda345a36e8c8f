import LayerNet.Component.Basic
import LayerNet.Digraph.Rewiring

/-!
# Normal form — fan-out and fan-in made explicit

A network runs on a graph with one root, in which only splits have several successors and only
concatenations several predecessors. `ComponentGraph.normalize` makes an assembled graph one, unless
it has a cycle: modules left open at the end are closed, outer ones first; several roots are put
behind a split; then every vertex that fans out gets a split behind it, and every vertex that fans
in a concatenation in front.
-/

namespace LayerNet

namespace ComponentGraph

/-- Whether a component's blueprint satisfies a test. -/
def blueprintIs (c : ComponentGraph) (test : Blueprint → Bool) (v : Nat) : Bool :=
  (c.graph.label? v).any fun component => test component.blueprint

/-- A new component for a graph. -/
def fresh (c : ComponentGraph) (blueprint : Blueprint) : Component :=
  ⟨c.freshKey none blueprint, blueprint⟩

/-- The graph with edges from given vertices. -/
def linkAll (c : ComponentGraph) (edges : List Edge) : ComponentGraph :=
  { c with graph := edges.foldl (fun g (source, target) => g.addEdge source target) c.graph }

/-- The graph with a module closed by a concatenation, if more than one of its exits is open. -/
def closeModule (c : ComponentGraph) (exits : List Nat) : ComponentGraph :=
  let unfinished := exits.filter fun v => c.graph.outDegree v = 0
  if unfinished.length < 2 then c
  else (c.add none .concat).linkAll (unfinished.map fun v => (v, c.size))

/-- The graph with all modules closed, outer ones before those inside. -/
def closeModules (c : ComponentGraph) : ComponentGraph :=
  { c.exits.foldl closeModule c with exits := [] }

/-- The graph with several roots put behind a split. -/
def joinRoots (c : ComponentGraph) : ComponentGraph :=
  let roots := c.graph.roots
  if roots.length < 2 then c
  else (c.add none .split).linkAll (roots.map fun v => (c.size, v))

/-- The graph with a split behind a vertex that fans out and is none. -/
def splitFanOut (c : ComponentGraph) (v : Nat) : ComponentGraph :=
  if !c.blueprintIs Blueprint.isSplit v && 1 < c.graph.outDegree v then
    { c with graph := c.graph.insertAfter v (c.fresh .split) }
  else c

/-- The graph with a concatenation in front of a vertex that fans in and is none. -/
def joinFanIn (c : ComponentGraph) (v : Nat) : ComponentGraph :=
  if !c.blueprintIs Blueprint.isConcat v && 1 < c.graph.inDegree v then
    { c with graph := c.graph.insertBefore v (c.fresh .concat) }
  else c

/-- The normal form of a graph without cycles. -/
def normalize (c : ComponentGraph) : Except CompileError ComponentGraph :=
  match c.graph.cycleVertex? with
  | some v => .error (.cyclic (c.key v))
  | none =>
    let rooted := c.closeModules.joinRoots
    let vertices := List.range rooted.size
    .ok (vertices.foldl joinFanIn (vertices.foldl splitFanOut rooted))

end ComponentGraph

end LayerNet
