import LayerNet.Blueprint.Basic
import LayerNet.CompileError
import LayerNet.Digraph.Order

/-!
# Component graphs — blueprints wired together

A component is a blueprint under a key of its own. A component graph also remembers the exits of
every module that has several, so that a module left open at the end can be closed.
-/

namespace LayerNet

/-- A blueprint under a key. -/
structure Component where
  key : String
  blueprint : Blueprint

/-- Components and their edges, and the exits of modules with several, the last assembled first. -/
structure ComponentGraph where
  graph : Digraph Component
  exits : List (List Nat)

namespace ComponentGraph

/-- No components. -/
def empty : ComponentGraph := ⟨.empty, []⟩

/-- The number of components. -/
def size (c : ComponentGraph) : Nat := c.graph.size

/-- The key of a component. -/
def key (c : ComponentGraph) (v : Nat) : String := ((c.graph.label? v).map Component.key).getD ""

/-- The key that a new component gets: its name, unless a component has it; else the name, or the
blueprint's title where there is no name, and its number. -/
def freshKey (c : ComponentGraph) (name : Option String) (blueprint : Blueprint) : String :=
  match name with
  | some name =>
    if c.graph.vertices.any fun other => other.key == name then name ++ "#" ++ toString c.size
    else name
  | none => blueprint.title ++ "#" ++ toString c.size

/-- The graph with one more component, whose number is the old size. -/
def add (c : ComponentGraph) (name : Option String) (blueprint : Blueprint) : ComponentGraph :=
  { c with graph := c.graph.addVertex ⟨c.freshKey name blueprint, blueprint⟩ }

/-- The graph with one more edge, which must neither be there nor be a loop. -/
def link (c : ComponentGraph) (source target : Nat) : Except CompileError ComponentGraph :=
  if source = target ∨ c.graph.hasEdge source target then
    .error (.duplicateEdge (c.key source) (c.key target))
  else .ok { c with graph := c.graph.addEdge source target }

end ComponentGraph

end LayerNet
