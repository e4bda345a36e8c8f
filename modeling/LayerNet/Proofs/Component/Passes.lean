import LayerNet.Component.Normal
import LayerNet.Proofs.Component.Invariance
import LayerNet.Proofs.Digraph.Degree
import LayerNet.Proofs.Digraph.Search

/-!
# Passes — each step of normalization only adds splits and concatenations

Normalization closes modules, joins roots, and inserts splits and concatenations, in this order.
Each of these steps, and so each pass, makes of one graph without cycles another that extends it
(`ComponentGraph.Extends`): vertices are added behind those that were there, every added vertex is a
split or a concatenation, and nothing happens to the connections between the vertices before a
number `n`, where a connection may lead through the vertices from `n` on.

The number `n` is the same for all passes of one run: it is the size of the graph that the run
started with. Extensions compose, so a pass over a list of vertices is one induction.
-/

namespace LayerNet

/-- The blueprints that normalization adds. -/
def Blueprint.IsRouting (b : Blueprint) : Prop := b = .split ∨ b = .concat

/-- A well-formed graph without cycles. -/
structure Digraph.IsDag {α : Type} (g : Digraph α) : Prop where
  wellFormed : g.WellFormed
  acyclic : g.Acyclic

namespace ComponentGraph

/-- A graph without cycles that has the vertices of another and, behind them, splits and
concatenations, and the connections of the other between the vertices before `n`. -/
structure Extends (n : Nat) (c c' : ComponentGraph) : Prop where
  dag : c'.graph.IsDag
  vertices : ∃ added : Array Component, c'.graph.vertices = c.graph.vertices ++ added
    ∧ ∀ component ∈ added, component.blueprint.IsRouting
  passages : ∀ u v, u < n → v < n → (c'.graph.Passage n u v ↔ c.graph.Passage n u v)

namespace Extends

variable {n : Nat} {a b c : ComponentGraph}

theorem refl (dag : c.graph.IsDag) : Extends n c c where
  dag := dag
  vertices := ⟨#[], Array.append_empty.symm, fun _ member => absurd member (Array.not_mem_empty _)⟩
  passages _ _ _ _ := Iff.rfl

theorem trans (first : Extends n a b) (second : Extends n b c) : Extends n a c where
  dag := second.dag
  vertices := by
    obtain ⟨added, vertices, routing⟩ := first.vertices
    obtain ⟨added', vertices', routing'⟩ := second.vertices
    refine ⟨added ++ added', by rw [vertices', vertices, Array.append_assoc], ?_⟩
    intro component member
    rcases Array.mem_append.mp member with member | member
    · exact routing component member
    · exact routing' component member
  passages u v small small' :=
    (second.passages u v small small').trans (first.passages u v small small')

/-- A graph with one vertex more, a split or a concatenation. -/
theorem of_push {component : Component} (dag : b.graph.IsDag)
    (pushed : b.graph.vertices = a.graph.vertices.push component)
    (routing : component.blueprint.IsRouting)
    (passages : ∀ u v, u < n → v < n → (b.graph.Passage n u v ↔ a.graph.Passage n u v)) :
    Extends n a b where
  dag := dag
  vertices := by
    refine ⟨#[component], by rw [pushed, Array.push_eq_append], fun other member => ?_⟩
    rw [Array.mem_singleton.mp member]
    exact routing
  passages := passages

theorem size_le (larger : Extends n a b) : a.size ≤ b.size := by
  obtain ⟨added, vertices, -⟩ := larger.vertices
  show a.graph.vertices.size ≤ b.graph.vertices.size
  rw [vertices, Array.size_append]
  exact Nat.le_add_right _ _

/-- The vertices that were there keep their components. -/
theorem label?_eq (larger : Extends n a b) {v : Nat} (old : v < a.size) :
    b.graph.label? v = a.graph.label? v := by
  obtain ⟨added, vertices, -⟩ := larger.vertices
  show b.graph.vertices[v]? = a.graph.vertices[v]?
  rw [vertices, Array.getElem?_append_left old]

/-- The vertices that were not there are splits and concatenations. -/
theorem routing_of_le (larger : Extends n a b) {v : Nat} {component : Component}
    (new : a.size ≤ v) (label : b.graph.label? v = some component) :
    component.blueprint.IsRouting := by
  obtain ⟨added, vertices, routing⟩ := larger.vertices
  have there : b.graph.vertices[v]? = some component := label
  rw [vertices, Array.getElem?_append_right new] at there
  exact routing component (Array.mem_of_getElem? there)

/-- A test of a blueprint that was there has the same answer. -/
theorem blueprintIs_eq (larger : Extends n a b) (test : Blueprint → Bool) {v : Nat}
    (old : v < a.size) : b.blueprintIs test v = a.blueprintIs test v := by
  rw [blueprintIs, blueprintIs, larger.label?_eq old]

end Extends

/-! ## A pass over a list -/

/-- A pass extends a graph when each of its steps does, from any graph that is reached. -/
theorem extends_foldl {α : Type} {n : Nat} {c : ComponentGraph} (dag : c.graph.IsDag)
    {step : ComponentGraph → α → ComponentGraph} (xs : List α)
    (each : ∀ b, Extends n c b → ∀ x ∈ xs, Extends n b (step b x)) :
    Extends n c (xs.foldl step c) := by
  induction xs generalizing c with
  | nil => exact .refl dag
  | cons x xs ih =>
    have first := each c (.refl dag) x List.mem_cons_self
    refine first.trans (ih first.dag fun b reached y member => ?_)
    exact each b (first.trans reached) y (List.mem_cons_of_mem x member)

/-! ## Closing modules -/

section Steps

variable {n : Nat} {c : ComponentGraph} (dag : c.graph.IsDag) (late : n ≤ c.size)
include dag late

/-- A module is closed by a concatenation that nothing follows. -/
theorem extends_closeModule {exits : List Nat} (nodup : exits.Nodup)
    (inside : ∀ v ∈ exits, v < c.size) : Extends n c (c.closeModule exits) := by
  unfold closeModule
  dsimp only
  split
  · exact .refl dag
  · let g := c.graph.addVertex (c.fresh .concat)
    let edges := (exits.filter fun v => c.graph.outDegree v = 0).map fun v => (v, c.size)
    have endsAtNew {e : Edge} (member : e ∈ edges) : e.1 < c.size ∧ e.2 = c.size := by
      obtain ⟨v, open?, rfl⟩ := List.mem_map.mp member
      exact ⟨inside v (List.mem_filter.mp open?).1, rfl⟩
    have old {u v : Nat} (edge : g.Adj u v) : u < c.size ∧ v < c.size :=
      dag.wellFormed.inside u v edge
    have wf : (g.addEdges edges).WellFormed := by
      refine dag.wellFormed.attach _ ?_ fun e member => .inl (endsAtNew member)
      exact (nodup.filter _).map fun u v same => (Prod.mk.inj same).1
    have unchanged (u v : Nat) (other : v ≠ c.size) :
        (g.addEdges edges).Adj u v ↔ c.graph.Adj u v := by
      rw [Digraph.adj_addEdges]
      exact ⟨fun edge => edge.resolve_left fun member => other (endsAtNew member).2, .inr⟩
    have sink (v : Nat) : ¬ (g.addEdges edges).Adj c.size v := by
      rw [Digraph.adj_addEdges]
      rintro (member | edge)
      · exact Nat.lt_irrefl _ (endsAtNew member).1
      · exact Nat.lt_irrefl _ (old edge).1
    refine .of_push ⟨wf, dag.acyclic.of_sink unchanged sink⟩ (Digraph.vertices_addEdges g edges)
      (.inr rfl) fun u v _ small => ?_
    exact Digraph.passage_of_sink unchanged sink (by omega)

/-- Closing all modules extends the graph, since exits of modules stay vertices. -/
theorem extends_closeModules (exits : ∀ xs ∈ c.exits, xs.Nodup ∧ ∀ v ∈ xs, v < c.size) :
    Extends n c c.closeModules := by
  have closed : Extends n c (c.exits.foldl closeModule c) := by
    refine extends_foldl dag _ fun b reached xs member => ?_
    obtain ⟨nodup, inside⟩ := exits xs member
    have le := reached.size_le
    exact extends_closeModule reached.dag (Nat.le_trans late le) nodup
      fun v open? => Nat.lt_of_lt_of_le (inside v open?) le
  exact ⟨closed.dag, closed.vertices, closed.passages⟩

/-! ## Joining roots -/

/-- Several roots are put behind a split that nothing precedes. -/
theorem extends_joinRoots : Extends n c c.joinRoots := by
  unfold joinRoots
  dsimp only
  split
  · exact .refl dag
  · let g := c.graph.addVertex (c.fresh .split)
    let edges := c.graph.roots.map fun v => (c.size, v)
    have startsAtNew {e : Edge} (member : e ∈ edges) : e.1 = c.size ∧ e.2 < c.size := by
      obtain ⟨v, root, rfl⟩ := List.mem_map.mp member
      exact ⟨rfl, ((c.graph.mem_roots v).mp root).1⟩
    have old {u v : Nat} (edge : g.Adj u v) : u < c.size ∧ v < c.size :=
      dag.wellFormed.inside u v edge
    have wf : (g.addEdges edges).WellFormed := by
      refine dag.wellFormed.attach _ ?_ fun e member => .inr (startsAtNew member)
      exact (List.nodup_range.filter _).map fun u v same => (Prod.mk.inj same).2
    have unchanged (u v : Nat) (other : u ≠ c.size) :
        (g.addEdges edges).Adj u v ↔ c.graph.Adj u v := by
      rw [Digraph.adj_addEdges]
      exact ⟨fun edge => edge.resolve_left fun member => other (startsAtNew member).1, .inr⟩
    have root (v : Nat) : ¬ (g.addEdges edges).Adj v c.size := by
      rw [Digraph.adj_addEdges]
      rintro (member | edge)
      · exact Nat.lt_irrefl _ (startsAtNew member).2
      · exact Nat.lt_irrefl _ (old edge).2
    refine .of_push ⟨wf, dag.acyclic.of_root unchanged root⟩ (Digraph.vertices_addEdges g edges)
      (.inl rfl) fun u v small _ => ?_
    exact Digraph.passage_of_root unchanged root (by omega)

/-! ## Inserting splits and concatenations -/

theorem extends_splitFanOut {v : Nat} (inside : v < c.size) : Extends n c (c.splitFanOut v) := by
  unfold splitFanOut
  split
  · have wf := dag.wellFormed
    refine .of_push ⟨wf.insertAfter inside _, dag.acyclic.insertAfter wf inside _⟩
      (Digraph.vertices_insertAfter _ _ _) (.inl rfl) fun x y small small' => ?_
    have size : c.size = c.graph.size := rfl
    exact Digraph.passage_insertAfter wf inside _ late (by omega) (by omega)
  · exact .refl dag

theorem extends_joinFanIn {v : Nat} (inside : v < c.size) : Extends n c (c.joinFanIn v) := by
  unfold joinFanIn
  split
  · have wf := dag.wellFormed
    refine .of_push ⟨wf.insertBefore inside _, dag.acyclic.insertBefore wf inside _⟩
      (Digraph.vertices_insertBefore _ _ _) (.inr rfl) fun x y small small' => ?_
    have size : c.size = c.graph.size := rfl
    exact Digraph.passage_insertBefore wf inside _ late (by omega) (by omega)
  · exact .refl dag

end Steps

/-! ## All passes -/

section Passes

variable {n : Nat} {c : ComponentGraph} (dag : c.graph.IsDag) (late : n ≤ c.size)
include dag late

theorem extends_splitAll {vertices : List Nat} (inside : ∀ v ∈ vertices, v < c.size) :
    Extends n c (vertices.foldl splitFanOut c) :=
  extends_foldl dag vertices fun _ reached v member =>
    extends_splitFanOut reached.dag (Nat.le_trans late reached.size_le)
      (Nat.lt_of_lt_of_le (inside v member) reached.size_le)

theorem extends_joinAll {vertices : List Nat} (inside : ∀ v ∈ vertices, v < c.size) :
    Extends n c (vertices.foldl joinFanIn c) :=
  extends_foldl dag vertices fun _ reached v member =>
    extends_joinFanIn reached.dag (Nat.le_trans late reached.size_le)
      (Nat.lt_of_lt_of_le (inside v member) reached.size_le)

end Passes

/-- Normalization fails exactly when the graph has a cycle. -/
theorem normalize_eq_error_iff {c : ComponentGraph} (wf : c.graph.WellFormed) :
    (∃ cause, c.normalize = .error cause) ↔ ¬ c.graph.Acyclic := by
  rw [← Digraph.cycleVertex?_eq_none_iff wf]
  unfold normalize
  cases c.graph.cycleVertex? with
  | none => exact ⟨fun ⟨_, failed⟩ => (nomatch failed), fun some => absurd rfl some⟩
  | some v => exact ⟨fun _ same => (nomatch same), fun _ => ⟨_, rfl⟩⟩

/-- What the passes make of a graph without cycles. -/
theorem eq_of_normalize_eq_ok {c normal : ComponentGraph} (success : c.normalize = .ok normal) :
    c.graph.cycleVertex? = none
      ∧ normal = (List.range c.closeModules.joinRoots.size).foldl joinFanIn
        ((List.range c.closeModules.joinRoots.size).foldl splitFanOut
          c.closeModules.joinRoots) := by
  unfold normalize at success
  split at success
  · exact nomatch success
  next none => exact ⟨none, (Except.ok.inj success).symm⟩

/-- The normal form of a well-formed graph extends it. -/
theorem extends_normalize {c normal : ComponentGraph} (wf : c.WellFormed)
    (success : c.normalize = .ok normal) : Extends c.size c normal := by
  obtain ⟨none, rfl⟩ := eq_of_normalize_eq_ok success
  have dag : c.graph.IsDag := ⟨wf.graph, (Digraph.cycleVertex?_eq_none_iff wf.graph).mp none⟩
  have closed := extends_closeModules dag (Nat.le_refl c.size) wf.exits
  have rooted := closed.trans (extends_joinRoots closed.dag closed.size_le)
  have split := extends_splitAll rooted.dag rooted.size_le fun v member => List.mem_range.mp member
  refine (rooted.trans split).trans (extends_joinAll split.dag (rooted.trans split).size_le ?_)
  exact fun v member => Nat.lt_of_lt_of_le (List.mem_range.mp member) split.size_le

/-- Statements that can be evaluated to a normal form have one. -/
theorem exists_of_isSome {statements : List Statement}
    (evaluates : ((assemble statements).toOption.bind
      fun assembled => assembled.components.normalize.toOption).isSome = true) :
    ∃ assembled normal, assemble statements = .ok assembled
      ∧ assembled.components.normalize = .ok normal := by
  cases success : assemble statements with
  | error _ =>
    rw [success] at evaluates
    exact nomatch evaluates
  | ok assembled =>
    rw [success] at evaluates
    change assembled.components.normalize.toOption.isSome = true at evaluates
    cases done : assembled.components.normalize with
    | error _ =>
      rw [done] at evaluates
      exact nomatch evaluates
    | ok normal => exact ⟨assembled, normal, rfl, done⟩

end ComponentGraph

end LayerNet
