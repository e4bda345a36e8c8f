/-!
# Directed graphs — vertices in order of creation, edges in two orders

Vertices are numbered in the order in which they were added, and stay. Edges are listed newest first
(`edges`), which is the order in which neighbours are met. Each edge also has a place (`places`): a
new edge takes the next place, and the place of a removed edge is taken by the edge in the last one,
so a copy made place by place meets edges in another order than the graph it was made from.
-/

namespace LayerNet

/-- From a vertex to a vertex. -/
abbrev Edge := Nat × Nat

/-- Labelled vertices and the edges between them. -/
structure Digraph (α : Type) where
  vertices : Array α
  edges : List Edge
  places : List Edge

namespace Digraph

variable {α β : Type}

/-- No vertices. -/
def empty : Digraph α := ⟨#[], [], []⟩

instance : Inhabited (Digraph α) := ⟨empty⟩

/-- The number of vertices, which is also the number of the next one. -/
def size (g : Digraph α) : Nat := g.vertices.size

/-- The label of a vertex. -/
def label? (g : Digraph α) (v : Nat) : Option α := g.vertices[v]?

/-- The graph with one more vertex. -/
def addVertex (g : Digraph α) (a : α) : Digraph α := { g with vertices := g.vertices.push a }

/-- The graph with one more edge. -/
def addEdge (g : Digraph α) (source target : Nat) : Digraph α :=
  { g with edges := (source, target) :: g.edges, places := g.places ++ [(source, target)] }

/-- The list without an element, whose place the last element takes. -/
def fillGap (e : Edge) (places : List Edge) : List Edge :=
  match places.idxOf? e, places.getLast? with
  | some i, some last => (places.set i last).dropLast
  | _, _ => places

/-- The graph without an edge. -/
def removeEdge (g : Digraph α) (source target : Nat) : Digraph α :=
  { g with edges := g.edges.erase (source, target), places := fillGap (source, target) g.places }

/-- Whether there is an edge. -/
def hasEdge (g : Digraph α) (source target : Nat) : Bool := g.edges.contains (source, target)

/-- The vertices that edges lead to, the newest edge first. -/
def successors (g : Digraph α) (v : Nat) : List Nat :=
  g.edges.filterMap fun (source, target) => if source = v then some target else none

/-- The vertices that edges come from, the newest edge first. -/
def predecessors (g : Digraph α) (v : Nat) : List Nat :=
  g.edges.filterMap fun (source, target) => if target = v then some source else none

/-- How many edges leave a vertex. -/
def outDegree (g : Digraph α) (v : Nat) : Nat := (g.successors v).length

/-- How many edges enter a vertex. -/
def inDegree (g : Digraph α) (v : Nat) : Nat := (g.predecessors v).length

/-- The vertices that edges lead to, in order of creation. -/
def successorsInOrder (g : Digraph α) (v : Nat) : List Nat := (g.successors v).mergeSort

/-- The vertices that edges come from, in order of creation. -/
def predecessorsInOrder (g : Digraph α) (v : Nat) : List Nat := (g.predecessors v).mergeSort

/-- The vertices without incoming edges. -/
def roots (g : Digraph α) : List Nat := (List.range g.size).filter fun v => g.inDegree v = 0

/-- The vertices without outgoing edges. -/
def sinks (g : Digraph α) : List Nat := (List.range g.size).filter fun v => g.outDegree v = 0

/-- The same graph with other labels, made place by place. -/
def copyWith (g : Digraph α) (vertices : Array β) : Digraph β :=
  g.places.foldl (fun h (source, target) => h.addEdge source target) ⟨vertices, [], []⟩

/-! ## Sizes and membership -/

@[simp] theorem size_addVertex (g : Digraph α) (a : α) : (g.addVertex a).size = g.size + 1 := by
  simp [size, addVertex]

@[simp] theorem size_addEdge (g : Digraph α) (source target : Nat) :
    (g.addEdge source target).size = g.size := rfl

@[simp] theorem size_removeEdge (g : Digraph α) (source target : Nat) :
    (g.removeEdge source target).size = g.size := rfl

/-- A new vertex has the next number. -/
theorem label?_addVertex (g : Digraph α) (a : α) : (g.addVertex a).label? g.size = some a := by
  simp [label?, addVertex, size]

/-- A new vertex leaves the labels before it as they were. -/
theorem label?_addVertex_of_lt (g : Digraph α) (a : α) {v : Nat} (h : v < g.size) :
    (g.addVertex a).label? v = g.label? v := by
  have before : v ≠ g.vertices.size := Nat.ne_of_lt h
  simp [label?, addVertex, Array.getElem?_push, before]

theorem hasEdge_iff (g : Digraph α) (source target : Nat) :
    g.hasEdge source target = true ↔ (source, target) ∈ g.edges := by
  simp [hasEdge]

/-- Successors are the targets of edges. -/
@[simp] theorem mem_successors (g : Digraph α) (v w : Nat) :
    w ∈ g.successors v ↔ (v, w) ∈ g.edges := by
  simp [successors]

/-- Predecessors are the sources of edges. -/
@[simp] theorem mem_predecessors (g : Digraph α) (v w : Nat) :
    w ∈ g.predecessors v ↔ (w, v) ∈ g.edges := by
  simp only [predecessors, List.mem_filterMap]
  constructor
  · rintro ⟨⟨source, target⟩, edge, taken⟩
    split at taken
    · simp_all
    · simp at taken
  · intro edge
    exact ⟨(w, v), edge, by simp⟩

@[simp] theorem mem_successorsInOrder (g : Digraph α) (v w : Nat) :
    w ∈ g.successorsInOrder v ↔ (v, w) ∈ g.edges := by
  simp [successorsInOrder]

@[simp] theorem mem_predecessorsInOrder (g : Digraph α) (v w : Nat) :
    w ∈ g.predecessorsInOrder v ↔ (w, v) ∈ g.edges := by
  simp [predecessorsInOrder]

/-- A new edge is met first. -/
theorem successors_addEdge (g : Digraph α) (source target v : Nat) :
    (g.addEdge source target).successors v
      = if source = v then target :: g.successors v else g.successors v := by
  by_cases h : source = v <;> simp [successors, addEdge, h]

/-- A vertex is a root when no edge leads to it. -/
theorem mem_roots (g : Digraph α) (v : Nat) :
    v ∈ g.roots ↔ v < g.size ∧ g.predecessors v = [] := by
  simp [roots, inDegree]

/-- A vertex is a sink when no edge leaves it. -/
theorem mem_sinks (g : Digraph α) (v : Nat) :
    v ∈ g.sinks ↔ v < g.size ∧ g.successors v = [] := by
  simp [sinks, outDegree]

end Digraph

end LayerNet
