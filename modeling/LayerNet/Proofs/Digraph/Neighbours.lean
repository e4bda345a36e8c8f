import LayerNet.Proofs.Digraph.Degree
import Mathlib.Data.List.Sort

/-!
# Neighbours — what a vertex is joined to after a change

When a vertex is inserted behind another, it takes the other's place among the predecessors of the
vertices that came after (`predecessors_insertAfter`), and the number of successors of all other
vertices stays (`outDegree_insertAfter_of_ne`). A copy with other labels has the same edges, so
every vertex has the same neighbours, if in another order (`adj_copyWith`).
-/

namespace LayerNet

namespace Digraph

variable {α β : Type}

/-- In well-formed graphs, vertices with the same predecessors list the same ones. -/
theorem perm_predecessors {g : Digraph α} {h : Digraph β} (wf : g.WellFormed) (wf' : h.WellFormed)
    {v w : Nat} (same : ∀ u, h.Adj u w ↔ g.Adj u v) :
    (h.predecessors w).Perm (g.predecessors v) := by
  rw [List.perm_ext_iff_of_nodup (wf'.nodup_predecessors w) (wf.nodup_predecessors v)]
  intro u
  rw [mem_predecessors, mem_predecessors]
  exact same u

/-- They have the same edges when all vertices are joined alike. -/
theorem perm_edges {g : Digraph α} {h : Digraph β} (wf : g.WellFormed) (wf' : h.WellFormed)
    (same : ∀ u v, h.Adj u v ↔ g.Adj u v) : h.edges.Perm g.edges := by
  rw [List.perm_ext_iff_of_nodup wf'.simple wf.simple]
  exact fun e => same e.1 e.2

theorem outDegree_eq {g : Digraph α} {h : Digraph β} (wf : g.WellFormed) (wf' : h.WellFormed)
    {v w : Nat} (same : ∀ u, h.Adj w u ↔ g.Adj v u) : h.outDegree w = g.outDegree v := by
  refine List.Perm.length_eq ?_
  rw [List.perm_ext_iff_of_nodup (wf'.nodup_successors w) (wf.nodup_successors v)]
  intro u
  rw [mem_successors, mem_successors]
  exact same u

/-- Sorting by insertion gives the same order, and evaluates by its equations. -/
theorem successorsInOrder_eq_insertionSort (g : Digraph α) (v : Nat) :
    g.successorsInOrder v = (g.successors v).insertionSort (· ≤ ·) :=
  List.mergeSort_eq_insertionSort (· ≤ ·) (g.successors v)

theorem predecessorsInOrder_eq_insertionSort (g : Digraph α) (v : Nat) :
    g.predecessorsInOrder v = (g.predecessors v).insertionSort (· ≤ ·) :=
  List.mergeSort_eq_insertionSort (· ≤ ·) (g.predecessors v)

/-- The successors of a vertex in order are the numbers in order that it has edges to. -/
theorem WellFormed.successorsInOrder_eq {g : Digraph α} (wf : g.WellFormed) {v : Nat}
    {xs : List Nat} (sorted : xs.Pairwise (· < ·)) (same : ∀ w, g.Adj v w ↔ w ∈ xs) :
    g.successorsInOrder v = xs := by
  have perm : (g.successors v).Perm xs := by
    rw [List.perm_ext_iff_of_nodup (wf.nodup_successors v) sorted.nodup]
    exact fun w => (mem_successors g v w).trans (same w)
  rw [successorsInOrder_eq_insertionSort]
  exact ((List.perm_insertionSort _ _).trans perm).eq_of_pairwise'
    (List.pairwise_insertionSort _ _) (sorted.imp Nat.le_of_lt)

/-- The order of creation is an order of the predecessors. -/
theorem predecessorsInOrder_perm (g : Digraph α) (v : Nat) :
    (g.predecessorsInOrder v).Perm (g.predecessors v) :=
  List.mergeSort_perm _ _

/-- No predecessor comes twice, so the order is strict. -/
theorem WellFormed.pairwise_predecessorsInOrder {g : Digraph α} (wf : g.WellFormed) (v : Nat) :
    (g.predecessorsInOrder v).Pairwise (· < ·) := by
  have perm := g.predecessorsInOrder_perm v
  have nodup := perm.nodup_iff.mpr (wf.nodup_predecessors v)
  rw [predecessorsInOrder_eq_insertionSort] at nodup ⊢
  refine ((List.pairwise_insertionSort _ _).and nodup).imp ?_
  rintro x y ⟨le, different⟩
  exact Nat.lt_of_le_of_ne le different

theorem WellFormed.inDegree_eq {g : Digraph α} (wf : g.WellFormed) {v : Nat} {xs : List Nat}
    (nodup : xs.Nodup) (same : ∀ u, g.Adj u v ↔ u ∈ xs) : g.inDegree v = xs.length := by
  refine List.Perm.length_eq ?_
  rw [List.perm_ext_iff_of_nodup (wf.nodup_predecessors v) nodup]
  exact fun u => (mem_predecessors g v u).trans (same u)

/-- One vertex alone follows another. -/
theorem WellFormed.successors_eq_singleton_iff {g : Digraph α} (wf : g.WellFormed) {v x : Nat} :
    g.successors v = [x] ↔ ∀ w, g.Adj v w ↔ w = x := by
  rw [← List.perm_singleton,
    List.perm_ext_iff_of_nodup (wf.nodup_successors v) (List.nodup_singleton x)]
  simp only [mem_successors, List.mem_singleton]
  rfl

theorem WellFormed.predecessors_eq_singleton_iff {g : Digraph α} (wf : g.WellFormed) {v x : Nat} :
    g.predecessors v = [x] ↔ ∀ u, g.Adj u v ↔ u = x := by
  rw [← List.perm_singleton,
    List.perm_ext_iff_of_nodup (wf.nodup_predecessors v) (List.nodup_singleton x)]
  simp only [mem_predecessors, List.mem_singleton]
  rfl

theorem outDegree_eq_zero_iff (g : Digraph α) (v : Nat) :
    g.outDegree v = 0 ↔ ∀ w, ¬ g.Adj v w := by
  rw [outDegree, List.length_eq_zero_iff, List.eq_nil_iff_forall_not_mem]
  simp only [mem_successors]
  rfl

/-! ## Behind an insertion -/

theorem label?_insertAfter_of_lt (g : Digraph α) (v : Nat) (a : α) {w : Nat} (old : w < g.size) :
    (g.insertAfter v a).label? w = g.label? w := by
  have before : w ≠ g.vertices.size := Nat.ne_of_lt old
  rw [label?, vertices_insertAfter, Array.getElem?_push, if_neg before]
  rfl

theorem label?_insertAfter (g : Digraph α) (v : Nat) (a : α) :
    (g.insertAfter v a).label? g.size = some a := by
  rw [label?, vertices_insertAfter, Array.getElem?_push]
  exact if_pos rfl

theorem size_insertAfter (g : Digraph α) (v : Nat) (a : α) :
    (g.insertAfter v a).size = g.size + 1 := by
  rw [Digraph.size, vertices_insertAfter, Array.size_push]
  rfl

section InsertAfter

variable {g : Digraph α} (wf : g.WellFormed) {v : Nat} (inside : v < g.size) (a : α)
include wf inside

/-- The new vertex takes the place of the one it was inserted behind. -/
theorem predecessors_insertAfter {w : Nat} (old : w ≠ g.size) :
    ((g.insertAfter v a).predecessors w).Perm
      ((g.predecessors w).map fun u => if u = v then g.size else u) := by
  have below {u : Nat} (member : u ∈ g.predecessors w) : u ≠ g.size :=
    Nat.ne_of_lt (wf.inside u w ((mem_predecessors g w u).mp member)).1
  rw [List.perm_ext_iff_of_nodup ((wf.insertAfter inside a).nodup_predecessors w)
    ((wf.nodup_predecessors w).map_on ?_)]
  · intro u
    rw [mem_predecessors, List.mem_map]
    refine (adj_insertAfter wf inside a u w).trans ⟨?_, ?_⟩
    · rintro (⟨-, absurd⟩ | ⟨rfl, edge⟩ | ⟨other, edge⟩)
      · exact (old absurd).elim
      · exact ⟨v, (mem_predecessors g w v).mpr edge, if_pos rfl⟩
      · exact ⟨u, (mem_predecessors g w u).mpr edge, if_neg other⟩
    · rintro ⟨x, member, rfl⟩
      have edge := (mem_predecessors g w x).mp member
      by_cases same : x = v
      · subst same
        exact .inr (.inl ⟨if_pos rfl, edge⟩)
      · rw [if_neg same]
        exact .inr (.inr ⟨same, edge⟩)
  · intro x member y member' same
    split at same
    · split at same
      · simp_all
      · exact absurd same.symm (below member')
    · split at same
      · exact absurd same (below member)
      · exact same

theorem predecessors_insertAfter_new : (g.insertAfter v a).predecessors g.size = [v] := by
  rw [(wf.insertAfter inside a).predecessors_eq_singleton_iff]
  intro u
  refine (adj_insertAfter wf inside a u g.size).trans ⟨?_, fun same => .inl ⟨same, rfl⟩⟩
  rintro (⟨same, -⟩ | ⟨-, edge⟩ | ⟨-, edge⟩)
  · exact same
  · exact absurd (wf.inside _ _ edge).2 (Nat.lt_irrefl _)
  · exact absurd (wf.inside _ _ edge).2 (Nat.lt_irrefl _)

/-- Only the new vertex follows the one it was inserted behind. -/
theorem successors_insertAfter : (g.insertAfter v a).successors v = [g.size] := by
  rw [(wf.insertAfter inside a).successors_eq_singleton_iff]
  intro u
  refine (adj_insertAfter wf inside a v u).trans ⟨?_, fun same => .inl ⟨rfl, same⟩⟩
  rintro (⟨-, same⟩ | ⟨same, -⟩ | ⟨other, -⟩)
  · exact same
  · exact absurd same (Nat.ne_of_lt inside)
  · exact absurd rfl other

theorem outDegree_insertAfter_new : (g.insertAfter v a).outDegree g.size = g.outDegree v := by
  refine outDegree_eq wf (wf.insertAfter inside a) fun u => ?_
  refine (adj_insertAfter wf inside a g.size u).trans ⟨?_, fun edge => .inr (.inl ⟨rfl, edge⟩)⟩
  rintro (⟨same, -⟩ | ⟨-, edge⟩ | ⟨-, edge⟩)
  · exact absurd same.symm (Nat.ne_of_lt inside)
  · exact edge
  · exact absurd (wf.inside _ _ edge).1 (Nat.lt_irrefl _)

theorem outDegree_insertAfter_of_ne {w : Nat} (other : w ≠ v) (old : w ≠ g.size) :
    (g.insertAfter v a).outDegree w = g.outDegree w := by
  refine outDegree_eq wf (wf.insertAfter inside a) fun u => ?_
  refine (adj_insertAfter wf inside a w u).trans ⟨?_, fun edge => .inr (.inr ⟨other, edge⟩)⟩
  rintro (⟨same, -⟩ | ⟨same, -⟩ | ⟨-, edge⟩)
  · exact absurd same other
  · exact absurd same old
  · exact edge

end InsertAfter

/-- Behind a sink, one edge is all there is to an insertion. -/
theorem insertAfter_of_sink {g : Digraph α} {v : Nat} (sink : g.successors v = []) (a : α) :
    g.insertAfter v a = (g.addVertex a).addEdge v g.size := by
  rw [insertAfter, successorsInOrder, sink, List.mergeSort_nil]
  rfl

/-! ## Copies -/

section CopyWith

variable {g : Digraph α} (wf : g.WellFormed) (vertices : Array β)
include wf

theorem adj_copyWith (u v : Nat) : (g.copyWith vertices).Adj u v ↔ g.Adj u v := by
  refine (adj_addEdges ⟨vertices, [], []⟩ g.places u v).trans ?_
  rw [wf.placed.mem_iff]
  exact or_iff_left List.not_mem_nil

theorem wellFormed_copyWith (size : vertices.size = g.size) :
    (g.copyWith vertices).WellFormed := by
  have bare : (⟨vertices, [], []⟩ : Digraph β).WellFormed :=
    ⟨fun u v edge => absurd edge List.not_mem_nil, fun v edge => absurd edge List.not_mem_nil,
      List.nodup_nil, .refl _⟩
  have edge {e : Edge} (member : e ∈ g.places) : g.Adj e.1 e.2 := wf.placed.mem_iff.mp member
  refine bare.addEdges (wf.placed.nodup_iff.mpr wf.simple) (fun e member => ?_)
    (fun e member same => ?_) fun e _ edge => absurd edge List.not_mem_nil
  · show e.1 < vertices.size ∧ e.2 < vertices.size
    rw [size]
    exact wf.inside _ _ (edge member)
  · have loop := edge member
    rw [same] at loop
    exact wf.loopless _ loop

theorem acyclic_copyWith (acyclic : g.Acyclic) : (g.copyWith vertices).Acyclic :=
  fun v cycle => acyclic v (Relation.TransGen.mono
    (fun u v edge => (adj_copyWith wf vertices u v).mp edge) _ _ cycle)

end CopyWith

theorem vertices_copyWith (g : Digraph α) (vertices : Array β) :
    (g.copyWith vertices).vertices = vertices :=
  vertices_addEdges ⟨vertices, [], []⟩ g.places

end Digraph

end LayerNet
