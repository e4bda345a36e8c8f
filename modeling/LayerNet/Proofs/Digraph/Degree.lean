import LayerNet.Proofs.Digraph.Rewiring

/-!
# Branching and merging — the vertices with several edges on one side, and a vertex at the end

A vertex branches when edges leave it for two different vertices, and merges when edges enter it
from two (`Branches`, `Merges`); in a well-formed graph this is a degree above one. An insertion
behind a vertex takes its branching over to the new vertex, and nothing else branches or merges that
did not before (`branches_insertAfter`, `merges_insertAfter`). No insertion changes which of the old
vertices are roots, and the new vertex is none (`HasOneRoot.insertAfter`,
`HasOneRoot.insertBefore`).

A new vertex that edges only lead to is on no cycle and in the interior of no path, and so is one
that edges only leave. So linking such a vertex closes no cycle (`Acyclic.of_sink`,
`Acyclic.of_root`) and neither makes nor breaks a passage between the other vertices
(`passage_of_sink`, `passage_of_root`). The graphs are compared by their edges only, so nothing here
depends on how the vertex was added.
-/

namespace LayerNet

/-! ## Degrees -/

namespace Digraph

variable {α : Type}

/-- Edges leave a vertex for two different vertices. -/
def Branches (g : Digraph α) (v : Nat) : Prop := ∃ x y, x ≠ y ∧ g.Adj v x ∧ g.Adj v y

/-- Edges enter a vertex from two different vertices. -/
def Merges (g : Digraph α) (v : Nat) : Prop := ∃ x y, x ≠ y ∧ g.Adj x v ∧ g.Adj y v

/-- Exactly one vertex has no predecessor. -/
def HasOneRoot (g : Digraph α) : Prop := ∃! v, v < g.size ∧ ∀ u, ¬ g.Adj u v

/-- A list without duplicates is longer than one when it has two different members. -/
theorem one_lt_length_iff {xs : List Nat} (nodup : xs.Nodup) :
    1 < xs.length ↔ ∃ x y, x ≠ y ∧ x ∈ xs ∧ y ∈ xs := by
  cases xs with
  | nil => simp
  | cons x xs =>
    obtain ⟨new, -⟩ := List.nodup_cons.mp nodup
    cases xs with
    | nil =>
      simp only [List.length_singleton, Nat.lt_irrefl, List.mem_singleton, false_iff]
      rintro ⟨y, z, different, rfl, rfl⟩
      exact different rfl
    | cons y xs =>
      have different : x ≠ y := fun same => new (same ▸ List.mem_cons_self)
      have longer : 1 < (x :: y :: xs).length := by simp only [List.length_cons]; omega
      refine ⟨fun _ => ?_, fun _ => longer⟩
      exact ⟨x, y, different, List.mem_cons_self, List.mem_cons_of_mem _ List.mem_cons_self⟩

theorem WellFormed.one_lt_outDegree_iff {g : Digraph α} (wf : g.WellFormed) (v : Nat) :
    1 < g.outDegree v ↔ g.Branches v := by
  rw [outDegree, one_lt_length_iff (wf.nodup_successors v)]
  simp only [mem_successors]
  rfl

theorem WellFormed.one_lt_inDegree_iff {g : Digraph α} (wf : g.WellFormed) (v : Nat) :
    1 < g.inDegree v ↔ g.Merges v := by
  rw [inDegree, one_lt_length_iff (wf.nodup_predecessors v)]
  simp only [mem_predecessors]
  rfl

theorem branches_reversed (g : Digraph α) (v : Nat) : g.reversed.Branches v ↔ g.Merges v := by
  simp only [Branches, Merges, adj_reversed]

theorem merges_reversed (g : Digraph α) (v : Nat) : g.reversed.Merges v ↔ g.Branches v := by
  simp only [Branches, Merges, adj_reversed]

theorem mem_roots_iff (g : Digraph α) (v : Nat) :
    v ∈ g.roots ↔ v < g.size ∧ ∀ u, ¬ g.Adj u v := by
  rw [mem_roots, List.eq_nil_iff_forall_not_mem]
  simp only [mem_predecessors]
  rfl

/-- A graph keeps its one root when a vertex is added that is none, and the others are roots as
before. -/
theorem HasOneRoot.of_entered {g h : Digraph α} (one : g.HasOneRoot) (size : h.size = g.size + 1)
    (entered : ∀ v, (∃ u, h.Adj u v) ↔ v = g.size ∨ ∃ u, g.Adj u v) : h.HasOneRoot := by
  obtain ⟨root, ⟨inside, unentered⟩, only⟩ := one
  refine ⟨root, ⟨by omega, fun u edge => ?_⟩, fun v ⟨small, alone⟩ => ?_⟩
  · rcases (entered root).mp ⟨u, edge⟩ with same | ⟨w, edge⟩
    · omega
    · exact unentered w edge
  · have old : v ≠ g.size := fun same => by
      obtain ⟨u, edge⟩ := (entered v).mpr (.inl same)
      exact alone u edge
    refine only v ⟨by omega, fun u edge => ?_⟩
    obtain ⟨w, edge⟩ := (entered v).mpr (.inr ⟨u, edge⟩)
    exact alone w edge

section Insertion

variable {g : Digraph α} (wf : g.WellFormed) {v : Nat} (inside : v < g.size) (a : α)
include wf inside

/-- Behind a vertex, only the new vertex may branch that did not before, and the vertex itself does
not any more. -/
theorem branches_insertAfter {w : Nat} (branches : (g.insertAfter v a).Branches w) :
    w = g.size ∨ (w ≠ v ∧ g.Branches w) := by
  obtain ⟨x, y, different, first, second⟩ := branches
  rw [adj_insertAfter wf inside] at first second
  by_cases new : w = g.size
  · exact .inl new
  · rcases first with ⟨rfl, rfl⟩ | ⟨same, -⟩ | ⟨other, first⟩
    · -- only one edge leaves the vertex
      rcases second with ⟨-, rfl⟩ | ⟨same, -⟩ | ⟨other, -⟩
      · exact absurd rfl different
      · exact absurd same new
      · exact absurd rfl other
    · exact absurd same new
    · rcases second with ⟨same, -⟩ | ⟨same, -⟩ | ⟨-, second⟩
      · exact absurd same other
      · exact absurd same new
      · exact .inr ⟨other, x, y, different, first, second⟩

/-- Behind a vertex, nothing merges that did not before: where an edge came from the vertex, one
comes from the new vertex now. -/
theorem merges_insertAfter {w : Nat} (merges : (g.insertAfter v a).Merges w) : g.Merges w := by
  obtain ⟨x, y, different, first, second⟩ := merges
  rw [adj_insertAfter wf inside] at first second
  have old {u w : Nat} (edge : g.Adj u w) : w ≠ g.size :=
    Nat.ne_of_lt (wf.inside u w edge).2
  rcases first with ⟨rfl, rfl⟩ | ⟨rfl, first⟩ | ⟨otherX, first⟩
  · rcases second with ⟨rfl, -⟩ | ⟨-, second⟩ | ⟨-, second⟩
    · exact absurd rfl different
    · exact absurd rfl (old second)
    · exact absurd rfl (old second)
  · rcases second with ⟨-, rfl⟩ | ⟨rfl, -⟩ | ⟨otherY, second⟩
    · exact absurd rfl (old first)
    · exact absurd rfl different
    · exact ⟨v, y, Ne.symm otherY, first, second⟩
  · rcases second with ⟨-, rfl⟩ | ⟨rfl, second⟩ | ⟨-, second⟩
    · exact absurd rfl (old first)
    · exact ⟨x, v, otherX, first, second⟩
    · exact ⟨x, y, different, first, second⟩

theorem merges_insertBefore {w : Nat} (merges : (g.insertBefore v a).Merges w) :
    w = g.size ∨ (w ≠ v ∧ g.Merges w) := by
  rw [← reversed_insertAfter, ← branches_reversed, reversed_reversed] at merges
  have branches := branches_insertAfter wf.reversed inside a merges
  rwa [size_reversed, branches_reversed] at branches

theorem branches_insertBefore {w : Nat} (branches : (g.insertBefore v a).Branches w) :
    g.Branches w := by
  rw [← reversed_insertAfter, ← merges_reversed, reversed_reversed] at branches
  exact (merges_reversed g w).mp (merges_insertAfter wf.reversed inside a branches)

theorem HasOneRoot.insertAfter (one : g.HasOneRoot) : (g.insertAfter v a).HasOneRoot := by
  have size : (g.insertAfter v a).size = g.size + 1 := by
    rw [Digraph.size, vertices_insertAfter, Array.size_push]
    rfl
  refine one.of_entered size fun w => ?_
  simp only [adj_insertAfter wf inside]
  constructor
  · rintro ⟨u, ⟨-, new⟩ | ⟨-, edge⟩ | ⟨-, edge⟩⟩
    · exact .inl new
    · exact .inr ⟨v, edge⟩
    · exact .inr ⟨u, edge⟩
  · rintro (new | ⟨u, edge⟩)
    · exact ⟨v, .inl ⟨rfl, new⟩⟩
    · by_cases same : u = v
      · exact ⟨g.size, .inr (.inl ⟨rfl, same ▸ edge⟩)⟩
      · exact ⟨u, .inr (.inr ⟨same, edge⟩)⟩

/-- A vertex inserted in front of one that has predecessors is not a root. -/
theorem HasOneRoot.insertBefore (one : g.HasOneRoot) (entered : ∃ u, g.Adj u v) :
    (g.insertBefore v a).HasOneRoot := by
  have size : (g.insertBefore v a).size = g.size + 1 := by
    rw [Digraph.size, vertices_insertBefore, Array.size_push]
    rfl
  refine one.of_entered size fun w => ?_
  simp only [adj_insertBefore wf inside]
  constructor
  · rintro ⟨u, ⟨rfl, -⟩ | ⟨new, -⟩ | ⟨-, edge⟩⟩
    · exact .inr entered
    · exact .inl new
    · exact .inr ⟨u, edge⟩
  · rintro (new | ⟨u, edge⟩)
    · obtain ⟨u, edge⟩ := entered
      exact ⟨u, .inr (.inl ⟨new, edge⟩)⟩
    · by_cases same : w = v
      · exact ⟨g.size, .inl ⟨same, rfl⟩⟩
      · exact ⟨u, .inr (.inr ⟨same, edge⟩)⟩

end Insertion

end Digraph

/-! ## Linking -/

namespace Digraph

variable {α : Type}

/-! ## Several edges -/

/-- The graph with more edges, the first one the oldest of them. -/
def addEdges (g : Digraph α) (edges : List Edge) : Digraph α :=
  edges.foldl (fun g (source, target) => g.addEdge source target) g

theorem vertices_addEdges (g : Digraph α) (edges : List Edge) :
    (g.addEdges edges).vertices = g.vertices := by
  induction edges generalizing g with
  | nil => rfl
  | cons e edges ih => exact ih (g.addEdge e.1 e.2)

theorem adj_addEdges (g : Digraph α) (edges : List Edge) (u v : Nat) :
    (g.addEdges edges).Adj u v ↔ (u, v) ∈ edges ∨ g.Adj u v := by
  induction edges generalizing g with
  | nil => exact ⟨.inr, fun edge => edge.resolve_left List.not_mem_nil⟩
  | cons e edges ih =>
    obtain ⟨source, target⟩ := e
    show ((g.addEdge source target).addEdges edges).Adj u v ↔ _
    rw [ih, adj_addEdge, List.mem_cons, Prod.mk.injEq]
    constructor
    · rintro (later | first | old)
      · exact .inl (.inr later)
      · exact .inl (.inl first)
      · exact .inr old
    · rintro ((first | later) | old)
      · exact .inr (.inl first)
      · exact .inl later
      · exact .inr (.inr old)

/-- New edges between different vertices of a graph, none of them twice, keep it well formed. -/
theorem WellFormed.addEdges {g : Digraph α} (wf : g.WellFormed) {edges : List Edge}
    (nodup : edges.Nodup) (inside : ∀ e ∈ edges, e.1 < g.size ∧ e.2 < g.size)
    (different : ∀ e ∈ edges, e.1 ≠ e.2) (fresh : ∀ e ∈ edges, ¬ g.Adj e.1 e.2) :
    (g.addEdges edges).WellFormed := by
  induction edges generalizing g with
  | nil => exact wf
  | cons e edges ih =>
    obtain ⟨new, nodup⟩ := List.nodup_cons.mp nodup
    obtain ⟨insideHead, inside⟩ := List.forall_mem_cons.mp inside
    obtain ⟨differentHead, different⟩ := List.forall_mem_cons.mp different
    obtain ⟨freshHead, fresh⟩ := List.forall_mem_cons.mp fresh
    refine ih (wf.addEdge insideHead.1 insideHead.2 differentHead freshHead) nodup inside different
      fun e' member edge => ?_
    rcases (adj_addEdge g e.1 e.2 e'.1 e'.2).mp edge with ⟨source, target⟩ | old
    · exact new (Prod.ext source target ▸ member)
    · exact fresh e' member old

/-- Edges between a new vertex and vertices that were there, none of them twice, keep a graph well
formed. -/
theorem WellFormed.attach {g : Digraph α} (wf : g.WellFormed) (a : α) {edges : List Edge}
    (nodup : edges.Nodup)
    (ends : ∀ e ∈ edges, (e.1 < g.size ∧ e.2 = g.size) ∨ (e.1 = g.size ∧ e.2 < g.size)) :
    ((g.addVertex a).addEdges edges).WellFormed := by
  refine (wf.addVertex a).addEdges nodup (fun e member => ?_) (fun e member => ?_)
    fun e member edge => ?_
  · have := ends e member
    rw [size_addVertex]
    omega
  · have := ends e member
    omega
  · have := ends e member
    have := wf.inside e.1 e.2 edge
    omega

/-! ## A new sink -/

section OfSink

variable {g h : Digraph α} {new : Nat} (edges : ∀ u v, v ≠ new → (h.Adj u v ↔ g.Adj u v))
  (sink : ∀ v, ¬ h.Adj new v)
include edges sink

/-- A vertex that edges only lead to is on no cycle. -/
theorem Acyclic.of_sink (acyclic : g.Acyclic) : h.Acyclic := by
  have onward {u v : Nat} (path : Relation.TransGen h.Adj u v) :
      v ≠ new → Relation.TransGen g.Adj u v := by
    induction path with
    | single edge => exact fun old => .single ((edges _ _ old).mp edge)
    | tail _ edge ih =>
      intro old
      exact (ih fun same => sink _ (same ▸ edge)).tail ((edges _ _ old).mp edge)
  intro v cycle
  refine acyclic v (onward cycle fun same => ?_)
  obtain ⟨w, edge, -⟩ := Relation.TransGen.head'_iff.mp cycle
  exact sink w (same ▸ edge)

/-- No passage between other vertices goes through a vertex that edges only lead to. -/
theorem passage_of_sink {n u v : Nat} (old : v ≠ new) : h.Passage n u v ↔ g.Passage n u v := by
  have ne_new {w : Nat} (rest : h.Passage n w v) : w ≠ new := by
    rintro rfl
    cases rest with
    | edge edge => exact sink _ edge
    | through edge _ _ => exact sink _ edge
  constructor
  · intro path
    induction path with
    | edge edge => exact .edge ((edges _ _ old).mp edge)
    | through edge high rest ih =>
      exact .through ((edges _ _ (ne_new rest)).mp edge) high (ih old ne_new)
  · intro path
    induction path with
    | edge edge => exact .edge ((edges _ _ old).mpr edge)
    | @through u w v edge high rest ih =>
      have rest := ih old ne_new
      exact .through ((edges _ _ (ne_new rest)).mpr edge) high rest

end OfSink

/-! ## A new root -/

section OfRoot

variable {g h : Digraph α} {new : Nat} (edges : ∀ u v, u ≠ new → (h.Adj u v ↔ g.Adj u v))
  (root : ∀ v, ¬ h.Adj v new)
include edges root

/-- A vertex that edges only leave is on no cycle. -/
theorem Acyclic.of_root (acyclic : g.Acyclic) : h.Acyclic := by
  have turned : h.reversed.Acyclic := acyclic.reversed.of_sink
    (fun u v old => by simpa only [adj_reversed] using edges v u old)
    (fun v edge => root v ((adj_reversed h new v).mp edge))
  exact h.reversed_reversed ▸ turned.reversed

/-- No passage between other vertices goes through a vertex that edges only leave. -/
theorem passage_of_root {n u v : Nat} (old : u ≠ new) : h.Passage n u v ↔ g.Passage n u v := by
  rw [← passage_reversed h, ← passage_reversed g]
  exact passage_of_sink (fun u v old => by simpa only [adj_reversed] using edges v u old)
    (fun v edge => root v ((adj_reversed h new v).mp edge)) old

end OfRoot

end Digraph

end LayerNet
