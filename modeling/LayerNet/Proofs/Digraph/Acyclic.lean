import LayerNet.Digraph.Basic
import Mathlib.Data.Finset.Card
import Mathlib.Data.Finset.Max
import Mathlib.Data.List.Perm.Basic
import Mathlib.Logic.Relation

/-!
# Acyclic graphs — no path leads back, and the ranks that say so

A graph is acyclic when no vertex reaches itself along one or more edges (`Acyclic`, stated with
the transitive closure and not with any search). Rewriting passes are easier to follow through
ranks: numbers that grow along every edge (`Ranking`). `acyclic_iff_exists_ranking` is the bridge;
the rank that it takes for a vertex is how many vertices reach it.

`WellFormed` is what every graph of components has: edges join different vertices that are there,
none is there twice, and the edges in order of place are the edges.
-/

namespace LayerNet

namespace Digraph

variable {α β : Type}

/-- An edge of the graph. -/
def Adj (g : Digraph α) (u v : Nat) : Prop := (u, v) ∈ g.edges

instance (g : Digraph α) (u v : Nat) : Decidable (g.Adj u v) :=
  inferInstanceAs (Decidable (_ ∈ _))

/-- No vertex reaches itself along one or more edges. -/
def Acyclic (g : Digraph α) : Prop := ∀ v, ¬ Relation.TransGen g.Adj v v

/-- Numbers that grow along every edge. -/
def Ranking (g : Digraph α) (rank : Nat → Nat) : Prop := ∀ u v, g.Adj u v → rank u < rank v

/-- Edges join two different vertices of the graph, none is there twice, and the edges in order of
place are the edges. -/
structure WellFormed (g : Digraph α) : Prop where
  inside : ∀ u v, g.Adj u v → u < g.size ∧ v < g.size
  loopless : ∀ v, ¬ g.Adj v v
  simple : g.edges.Nodup
  placed : g.places.Perm g.edges

/-! ## Ranks -/

/-- Ranks grow along paths. -/
theorem Ranking.lt_of_reaches {g : Digraph α} {rank : Nat → Nat} (ranked : g.Ranking rank)
    {u v : Nat} (path : Relation.TransGen g.Adj u v) : rank u < rank v := by
  induction path with
  | single edge => exact ranked _ _ edge
  | tail _ edge ih => exact Nat.lt_trans ih (ranked _ _ edge)

/-- A graph with ranks has no cycle. -/
theorem Ranking.acyclic {g : Digraph α} {rank : Nat → Nat} (ranked : g.Ranking rank) :
    g.Acyclic :=
  fun _ cycle => Nat.lt_irrefl _ (ranked.lt_of_reaches cycle)

/-- Whatever reaches a vertex reaches what the vertex leads to; in an acyclic graph the vertex
itself is new among them. So the number of vertices that reach a vertex is a rank. -/
theorem Acyclic.exists_ranking {g : Digraph α} (acyclic : g.Acyclic) (wf : g.WellFormed) :
    ∃ rank, g.Ranking rank := by
  classical
  let above (v : Nat) : Finset Nat := (Finset.range g.size).filter (Relation.TransGen g.Adj · v)
  refine ⟨fun v => (above v).card, fun u v edge => Finset.card_lt_card ?_⟩
  refine Finset.ssubset_iff_of_subset ?_ |>.mpr ⟨u, ?_, ?_⟩
  · intro x member
    obtain ⟨small, path⟩ := Finset.mem_filter.mp member
    exact Finset.mem_filter.mpr ⟨small, path.tail edge⟩
  · exact Finset.mem_filter.mpr ⟨Finset.mem_range.mpr (wf.inside u v edge).1, .single edge⟩
  · intro member
    exact acyclic u (Finset.mem_filter.mp member).2

/-- A graph is acyclic exactly when its vertices have ranks. -/
theorem acyclic_iff_exists_ranking {g : Digraph α} (wf : g.WellFormed) :
    g.Acyclic ↔ ∃ rank, g.Ranking rank :=
  ⟨fun acyclic => acyclic.exists_ranking wf, fun ⟨_, ranked⟩ => ranked.acyclic⟩

/-- An acyclic graph with a vertex has a root: the vertex of the least rank has no predecessor. -/
theorem Acyclic.exists_root {g : Digraph α} (acyclic : g.Acyclic) (wf : g.WellFormed)
    (inhabited : 0 < g.size) : ∃ v, v ∈ g.roots := by
  obtain ⟨rank, ranked⟩ := acyclic.exists_ranking wf
  obtain ⟨v, member, least⟩ := Finset.exists_min_image (Finset.range g.size) rank
    ⟨0, Finset.mem_range.mpr inhabited⟩
  refine ⟨v, (g.mem_roots v).mpr ⟨Finset.mem_range.mp member, ?_⟩⟩
  refine List.eq_nil_iff_forall_not_mem.mpr fun u predecessor => ?_
  have edge : g.Adj u v := (g.mem_predecessors v u).mp predecessor
  have lower := least u (Finset.mem_range.mpr (wf.inside u v edge).1)
  exact absurd (ranked u v edge) (Nat.not_lt.mpr lower)

/-! ## Degrees -/

/-- How many edges satisfy that they leave a vertex. -/
theorem outDegree_eq_countP (g : Digraph α) (v : Nat) :
    g.outDegree v = g.edges.countP fun e : Edge => e.1 = v := by
  unfold outDegree successors
  induction g.edges with
  | nil => rfl
  | cons e edges ih =>
    by_cases leaves : e.1 = v <;> simp [leaves, ih]

/-- The successors of a vertex are no two the same. -/
theorem WellFormed.nodup_successors {g : Digraph α} (wf : g.WellFormed) (v : Nat) :
    (g.successors v).Nodup := by
  refine List.Nodup.filterMap ?_ wf.simple
  rintro ⟨u, w⟩ ⟨u', w'⟩ b first second
  simp only [Option.mem_def, Option.ite_none_right_eq_some, Option.some.injEq] at first second
  rw [Prod.mk.injEq]
  exact ⟨first.1.trans second.1.symm, first.2.trans second.2.symm⟩

/-- The predecessors of a vertex are no two the same. -/
theorem WellFormed.nodup_predecessors {g : Digraph α} (wf : g.WellFormed) (v : Nat) :
    (g.predecessors v).Nodup := by
  refine List.Nodup.filterMap ?_ wf.simple
  rintro ⟨u, w⟩ ⟨u', w'⟩ b first second
  simp only [Option.mem_def, Option.ite_none_right_eq_some, Option.some.injEq] at first second
  rw [Prod.mk.injEq]
  exact ⟨first.2.trans second.2.symm, first.1.trans second.1.symm⟩

/-! ## Adding vertices and edges -/

@[simp] theorem adj_addVertex (g : Digraph α) (a : α) (u v : Nat) :
    (g.addVertex a).Adj u v ↔ g.Adj u v := Iff.rfl

@[simp] theorem adj_addEdge (g : Digraph α) (source target u v : Nat) :
    (g.addEdge source target).Adj u v ↔ (u = source ∧ v = target) ∨ g.Adj u v := by
  simp [Adj, addEdge]

/-- A graph without edges is well formed. -/
theorem wellFormed_empty : (empty : Digraph α).WellFormed where
  inside _ _ edge := absurd edge List.not_mem_nil
  loopless _ edge := absurd edge List.not_mem_nil
  simple := List.nodup_nil
  placed := .refl _

/-- A new vertex keeps a graph well formed. -/
theorem WellFormed.addVertex {g : Digraph α} (wf : g.WellFormed) (a : α) :
    (g.addVertex a).WellFormed where
  inside u v edge := by
    have := wf.inside u v edge
    rw [size_addVertex]
    omega
  loopless := wf.loopless
  simple := wf.simple
  placed := wf.placed

/-- A new edge between two different vertices of a graph keeps it well formed. -/
theorem WellFormed.addEdge {g : Digraph α} (wf : g.WellFormed) {source target : Nat}
    (sourceInside : source < g.size) (targetInside : target < g.size) (different : source ≠ target)
    (fresh : ¬ g.Adj source target) : (g.addEdge source target).WellFormed where
  inside u v edge := by
    rw [size_addEdge]
    rcases (adj_addEdge g source target u v).mp edge with ⟨rfl, rfl⟩ | old
    · exact ⟨sourceInside, targetInside⟩
    · exact wf.inside u v old
  loopless v edge := by
    rcases (adj_addEdge g source target v v).mp edge with ⟨rfl, rfl⟩ | old
    · exact different rfl
    · exact wf.loopless v old
  simple := List.nodup_cons.mpr ⟨fresh, wf.simple⟩
  placed := (List.perm_append_singleton _ _).trans (wf.placed.cons _)

/-! ## Removing edges -/

/-- Filling the gap of an element leaves the other elements, in some order. -/
theorem fillGap_perm (e : Edge) (places : List Edge) :
    (fillGap e places).Perm (places.erase e) := by
  rw [List.erase_eq_eraseIdx]
  unfold fillGap
  cases found : places.idxOf? e with
  | none => exact .refl _
  | some i =>
    obtain ⟨small, -, -⟩ := List.idxOf?_eq_some_iff.mp found
    obtain ⟨init, last, rfl⟩ : ∃ init last, places = init ++ [last] :=
      ⟨_, _, (List.dropLast_concat_getLast (List.ne_nil_of_length_pos (by omega))).symm⟩
    rw [List.length_append, List.length_singleton] at small
    simp only [List.getLast?_append, List.getLast?_singleton, Option.some_or]
    rcases Nat.lt_or_ge i init.length with inner | outer
    · rw [List.set_append_left _ _ inner, List.dropLast_concat,
        List.eraseIdx_append_of_lt_length inner]
      exact (List.set_perm_cons_eraseIdx inner last).trans
        (List.perm_append_singleton _ _).symm
    · obtain rfl : i = init.length := by omega
      rw [List.set_append_right _ _ (Nat.le_refl _), Nat.sub_self, List.set_cons_zero,
        List.dropLast_concat, List.eraseIdx_append_of_length_le (Nat.le_refl _), Nat.sub_self,
        List.eraseIdx_cons_zero, List.append_nil]

/-- Only the removed edge goes. -/
theorem WellFormed.adj_removeEdge {g : Digraph α} (wf : g.WellFormed) (source target u v : Nat) :
    (g.removeEdge source target).Adj u v ↔ ¬ (u = source ∧ v = target) ∧ g.Adj u v := by
  show (u, v) ∈ g.edges.erase (source, target) ↔ _
  rw [wf.simple.mem_erase_iff, ne_eq, Prod.mk.injEq]
  rfl

/-- Removing an edge keeps a graph well formed. -/
theorem WellFormed.removeEdge {g : Digraph α} (wf : g.WellFormed) (source target : Nat) :
    (g.removeEdge source target).WellFormed where
  inside u v edge := wf.inside u v ((wf.adj_removeEdge source target u v).mp edge).2
  loopless v edge := wf.loopless v ((wf.adj_removeEdge source target v v).mp edge).2
  simple := wf.simple.erase _
  placed := (fillGap_perm _ _).trans (wf.placed.erase _)

end Digraph

end LayerNet
