import LayerNet.Digraph.Rewiring
import LayerNet.Proofs.Digraph.Acyclic

/-!
# Rewiring — which edges an insertion moves, and that it keeps all connections

An insertion moves the edges on one side of a vertex, one after the other (`WellFormed.reroute`).
The edges that a graph has afterwards are told once (`adj_insertAfter`); an insertion in front of a
vertex is one behind it in the graph with all edges turned around (`reversed_insertAfter`), so what
is proved of the one side is read off for the other.

A connection that may lead through vertices from some number on is a `Passage`. Inserted vertices
have the last numbers, so an insertion neither makes nor breaks a passage between the vertices
before them (`passage_insertAfter`, `passage_insertBefore`).
-/

namespace LayerNet

namespace Digraph

variable {α : Type}

/-! ## Passages -/

/-- A path of one or more edges whose interior vertices have numbers from `n` on. -/
inductive Passage (g : Digraph α) (n : Nat) : Nat → Nat → Prop where
  | edge {u v : Nat} : g.Adj u v → Passage g n u v
  | through {u w v : Nat} : g.Adj u w → n ≤ w → Passage g n w v → Passage g n u v

/-- Two passages that meet in a vertex with such a number are one. -/
theorem Passage.trans {g : Digraph α} {n u w v : Nat} (first : g.Passage n u w) (high : n ≤ w)
    (second : g.Passage n w v) : g.Passage n u v := by
  induction first with
  | edge edge => exact .through edge high second
  | through edge high' _ ih => exact .through edge high' (ih high second)

/-! ## Moving edges -/

/-- Moving edges leaves the vertices alone. -/
theorem vertices_reroute (old new : Nat → Edge) (xs : List Nat) (g : Digraph α) :
    (xs.foldl (fun h x => (h.removeEdge (old x).1 (old x).2).addEdge (new x).1 (new x).2)
      g).vertices = g.vertices := by
  induction xs generalizing g with
  | nil => rfl
  | cons x xs ih => exact ih _

/-- Edges moved one after the other: the edges that were to be moved are gone, and those that they
were moved to are there. -/
theorem WellFormed.reroute {g : Digraph α} (wf : g.WellFormed) (old new : Nat → Edge)
    (xs : List Nat) (nodup : xs.Nodup) (injective : Function.Injective new)
    (apart : ∀ x y, new x ≠ old y)
    (valid : ∀ x ∈ xs, (new x).1 < g.size ∧ (new x).2 < g.size ∧ (new x).1 ≠ (new x).2)
    (absent : ∀ x ∈ xs, ¬ g.Adj (new x).1 (new x).2) {moved : Digraph α}
    (rerouted : moved = xs.foldl
      (fun h x => (h.removeEdge (old x).1 (old x).2).addEdge (new x).1 (new x).2) g) :
    moved.WellFormed
      ∧ ∀ u v, moved.Adj u v ↔
        (∃ x ∈ xs, new x = (u, v)) ∨ ((∀ x ∈ xs, old x ≠ (u, v)) ∧ g.Adj u v) := by
  induction xs generalizing g with
  | nil =>
    subst rerouted
    exact ⟨wf, fun u v => by simp⟩
  | cons x xs ih =>
    obtain ⟨head, nodup⟩ := List.nodup_cons.mp nodup
    obtain ⟨sourceInside, targetInside, different⟩ := valid x List.mem_cons_self
    have fresh : ¬ (g.removeEdge (old x).1 (old x).2).Adj (new x).1 (new x).2 := fun edge =>
      absent x List.mem_cons_self ((wf.adj_removeEdge _ _ _ _).mp edge).2
    have step (u v : Nat) :
        ((g.removeEdge (old x).1 (old x).2).addEdge (new x).1 (new x).2).Adj u v ↔
          new x = (u, v) ∨ (old x ≠ (u, v) ∧ g.Adj u v) := by
      rw [adj_addEdge, wf.adj_removeEdge, Prod.ext_iff, Ne, Prod.ext_iff, eq_comm (a := u),
        eq_comm (a := v), eq_comm (a := u), eq_comm (a := v)]
    obtain ⟨wf', edges⟩ := ih
      ((wf.removeEdge _ _).addEdge sourceInside targetInside different fresh) nodup
      (fun y member => valid y (List.mem_cons_of_mem x member))
      (fun y member edge => by
        rcases (step _ _).mp edge with same | ⟨-, edge⟩
        · exact head (injective same ▸ member)
        · exact absent y (List.mem_cons_of_mem x member) edge)
      rerouted
    refine ⟨wf', fun u v => ?_⟩
    rw [edges, step]
    constructor
    · rintro (⟨y, member, same⟩ | ⟨kept, same | ⟨other, edge⟩⟩)
      · exact .inl ⟨y, List.mem_cons_of_mem x member, same⟩
      · exact .inl ⟨x, List.mem_cons_self, same⟩
      · exact .inr ⟨List.forall_mem_cons.mpr ⟨other, kept⟩, edge⟩
    · rintro (⟨y, member, same⟩ | ⟨kept, edge⟩)
      · rcases List.mem_cons.mp member with rfl | member
        · exact .inr ⟨fun z _ other => apart y z (same.trans other.symm), .inl same⟩
        · exact .inl ⟨y, member, same⟩
      · obtain ⟨other, kept⟩ := List.forall_mem_cons.mp kept
        exact .inr ⟨kept, .inr ⟨other, edge⟩⟩

/-! ## Inserting behind a vertex -/

theorem vertices_insertAfter (g : Digraph α) (v : Nat) (a : α) :
    (g.insertAfter v a).vertices = g.vertices.push a :=
  vertices_reroute (fun t => (v, t)) (fun t => (g.size, t)) _ (g.addVertex a)

section InsertAfter

variable {g : Digraph α} (wf : g.WellFormed) {v : Nat} (inside : v < g.size) (a : α)
include wf inside

/-- A vertex is inserted behind another: the graph stays well formed, and all edges that left the
vertex leave the new one, which is its only successor. -/
theorem insertAfter_spec : (g.insertAfter v a).WellFormed
    ∧ ∀ x y, (g.insertAfter v a).Adj x y ↔
      (x = v ∧ y = g.size) ∨ (x = g.size ∧ g.Adj v y) ∨ (x ≠ v ∧ g.Adj x y) := by
  have below {x y : Nat} (edge : g.Adj x y) : x < g.size ∧ y < g.size := wf.inside x y edge
  obtain ⟨moved, rerouted⟩ : ∃ moved, moved = (g.successorsInOrder v).foldl
    (fun h t => (h.removeEdge v t).addEdge g.size t) (g.addVertex a) := ⟨_, rfl⟩
  have inserted : g.insertAfter v a = moved.addEdge v g.size := by rw [rerouted]; rfl
  obtain ⟨wf', edges⟩ := (wf.addVertex a).reroute (fun t => (v, t)) (fun t => (g.size, t))
    (g.successorsInOrder v) ((List.mergeSort_perm _ _).nodup_iff.mpr (wf.nodup_successors v))
    (fun x y same => (Prod.mk.inj same).2)
    (fun x y same => by have := (Prod.mk.inj same).1; omega)
    (fun t member => by
      have := below ((mem_successorsInOrder g v t).mp member)
      rw [size_addVertex]
      show g.size < g.size + 1 ∧ t < g.size + 1 ∧ g.size ≠ t
      omega)
    (fun t _ edge => absurd (below edge).1 (Nat.lt_irrefl _)) rerouted
  have size : moved.size = g.size + 1 := by
    rw [Digraph.size, rerouted]
    exact (congrArg Array.size (vertices_insertAfter g v a)).trans (size_addVertex g a)
  have fresh : ¬ moved.Adj v g.size := by
    rw [edges]
    rintro (⟨t, -, same⟩ | ⟨-, edge⟩)
    · have := (Prod.mk.inj same).1
      omega
    · exact absurd (below edge).2 (Nat.lt_irrefl _)
  rw [inserted]
  refine ⟨wf'.addEdge (by omega) (by omega) (Nat.ne_of_lt inside) fresh, fun x y => ?_⟩
  rw [adj_addEdge, edges]
  simp only [Prod.mk.injEq, mem_successorsInOrder, adj_addVertex, ne_eq]
  constructor
  · rintro (added | ⟨t, edge, rfl, rfl⟩ | ⟨kept, edge⟩)
    · exact .inl added
    · exact .inr (.inl ⟨rfl, edge⟩)
    · exact .inr (.inr ⟨fun same => kept y (same ▸ edge) ⟨same.symm, rfl⟩, edge⟩)
  · rintro (added | ⟨rfl, edge⟩ | ⟨other, edge⟩)
    · exact .inl added
    · exact .inr (.inl ⟨y, edge, rfl, rfl⟩)
    · exact .inr (.inr ⟨fun t _ same => other same.1.symm, edge⟩)

theorem WellFormed.insertAfter : (g.insertAfter v a).WellFormed := (insertAfter_spec wf inside a).1

theorem adj_insertAfter (x y : Nat) : (g.insertAfter v a).Adj x y ↔
    (x = v ∧ y = g.size) ∨ (x = g.size ∧ g.Adj v y) ∨ (x ≠ v ∧ g.Adj x y) :=
  (insertAfter_spec wf inside a).2 x y

/-- An insertion closes no cycle: the new vertex takes a rank just above the one that it was
inserted behind. -/
theorem Acyclic.insertAfter (acyclic : g.Acyclic) : (g.insertAfter v a).Acyclic := by
  obtain ⟨rank, ranked⟩ := acyclic.exists_ranking wf
  have size : v ≠ g.size := Nat.ne_of_lt inside
  have risen : (g.insertAfter v a).Ranking
      fun x => if x = g.size then 2 * rank v + 1 else 2 * rank x := by
    intro x y step
    rcases (adj_insertAfter wf inside a x y).mp step with ⟨rfl, rfl⟩ | ⟨rfl, edge⟩ | ⟨-, edge⟩
    · simp [size]
    · have grows := ranked v y edge
      have := (wf.inside v y edge).2
      simp only [if_true, Nat.ne_of_lt this, if_false]
      omega
    · have grows := ranked x y edge
      have := wf.inside x y edge
      simp only [Nat.ne_of_lt this.1, Nat.ne_of_lt this.2, if_false]
      omega
  exact risen.acyclic

/-- An insertion keeps the passages between the vertices that were there, through the vertices from
some number on: where one leaves the vertex it now takes the new vertex, too. -/
theorem passage_insertAfter {n : Nat} (late : n ≤ g.size) {x y : Nat} (new : x ≠ g.size)
    (new' : y ≠ g.size) :
    (g.insertAfter v a).Passage n x y ↔ g.Passage n x y := by
  have edges := adj_insertAfter wf inside a
  constructor
  · -- the new vertex stands for the one that it was inserted behind
    have collapse {u w : Nat} (path : (g.insertAfter v a).Passage n u w) (old : w ≠ g.size) :
        g.Passage n (if u = g.size then v else u) w := by
      induction path with
      | edge step =>
        rcases (edges _ _).mp step with ⟨-, rfl⟩ | ⟨rfl, edge⟩ | ⟨-, edge⟩
        · exact absurd rfl old
        · rw [if_pos rfl]
          exact .edge edge
        · rw [if_neg (Nat.ne_of_lt (wf.inside _ _ edge).1)]
          exact .edge edge
      | through step high _ ih =>
        have rest := ih old
        rcases (edges _ _).mp step with ⟨rfl, rfl⟩ | ⟨rfl, edge⟩ | ⟨-, edge⟩
        · rw [if_neg (Nat.ne_of_lt inside)]
          rwa [if_pos rfl] at rest
        · rw [if_pos rfl]
          rw [if_neg (Nat.ne_of_lt (wf.inside _ _ edge).2)] at rest
          exact .through edge high rest
        · have small := wf.inside _ _ edge
          rw [if_neg (Nat.ne_of_lt small.1)]
          rw [if_neg (Nat.ne_of_lt small.2)] at rest
          exact .through edge high rest
    intro path
    simpa only [if_neg new] using collapse path new'
  · intro path
    have link {u w : Nat} (edge : g.Adj u w) : (g.insertAfter v a).Passage n u w := by
      by_cases same : u = v
      · subst same
        refine .through ((edges _ _).mpr (.inl ⟨rfl, rfl⟩)) late (.edge ?_)
        exact (edges _ _).mpr (.inr (.inl ⟨rfl, edge⟩))
      · exact .edge ((edges _ _).mpr (.inr (.inr ⟨same, edge⟩)))
    induction path with
    | edge edge => exact link edge
    | through edge high _ ih =>
      exact (link edge).trans high (ih (Nat.ne_of_lt (wf.inside _ _ edge).2) new')

end InsertAfter

/-! ## Edges turned around -/

/-- The graph with all edges turned around. -/
def reversed (g : Digraph α) : Digraph α :=
  ⟨g.vertices, g.edges.map Prod.swap, g.places.map Prod.swap⟩

@[simp] theorem size_reversed (g : Digraph α) : g.reversed.size = g.size := rfl

@[simp] theorem adj_reversed (g : Digraph α) (u v : Nat) : g.reversed.Adj u v ↔ g.Adj v u := by
  unfold Adj reversed
  constructor
  · intro member
    obtain ⟨⟨x, y⟩, edge, same⟩ := List.mem_map.mp member
    obtain ⟨rfl, rfl⟩ := Prod.mk.inj same
    exact edge
  · exact fun edge => List.mem_map.mpr ⟨(v, u), edge, rfl⟩

@[simp] theorem reversed_reversed (g : Digraph α) : g.reversed.reversed = g := by
  simp [reversed]

theorem WellFormed.reversed {g : Digraph α} (wf : g.WellFormed) : g.reversed.WellFormed where
  inside u v edge := (wf.inside v u ((adj_reversed g u v).mp edge)).symm
  loopless v edge := wf.loopless v ((adj_reversed g v v).mp edge)
  simple := wf.simple.map Prod.swap_injective
  placed := wf.placed.map Prod.swap

theorem Acyclic.reversed {g : Digraph α} (acyclic : g.Acyclic) : g.reversed.Acyclic := by
  intro v cycle
  refine acyclic v (Relation.transGen_swap.mp ?_)
  exact Relation.TransGen.mono (fun x y edge => (adj_reversed g x y).mp edge) _ _ cycle

theorem passage_reversed (g : Digraph α) (n u v : Nat) :
    g.reversed.Passage n u v ↔ g.Passage n v u := by
  have turn {g : Digraph α} {u v : Nat} (path : g.Passage n u v) : g.reversed.Passage n v u := by
    induction path with
    | edge edge => exact .edge ((adj_reversed g _ _).mpr edge)
    | through edge high _ ih => exact ih.trans high (.edge ((adj_reversed g _ _).mpr edge))
  exact ⟨fun path => g.reversed_reversed ▸ turn path, turn⟩

theorem successors_reversed (g : Digraph α) (v : Nat) :
    g.reversed.successors v = g.predecessors v := by
  simp [successors, predecessors, reversed, List.filterMap_map]

theorem reversed_addEdge (g : Digraph α) (source target : Nat) :
    (g.addEdge source target).reversed = g.reversed.addEdge target source := by
  simp [reversed, addEdge]

theorem map_swap_fillGap (e : Edge) (places : List Edge) :
    (fillGap e places).map Prod.swap = fillGap e.swap (places.map Prod.swap) := by
  have found : (places.map Prod.swap).idxOf? e.swap = places.idxOf? e := by
    induction places with
    | nil => rfl
    | cons p places ih =>
      simp only [List.map_cons, List.idxOf?_cons, ih, beq_iff_eq, Prod.swap_inj]
  unfold fillGap
  rw [found, List.getLast?_map]
  cases places.idxOf? e <;> cases places.getLast? <;> simp [List.map_dropLast, List.map_set]

theorem reversed_removeEdge (g : Digraph α) (source target : Nat) :
    (g.removeEdge source target).reversed = g.reversed.removeEdge target source := by
  have erased : (g.edges.erase (source, target)).map Prod.swap
      = (g.edges.map Prod.swap).erase (target, source) :=
    List.map_erase Prod.swap_injective g.edges
  simp only [reversed, removeEdge, erased, map_swap_fillGap, Prod.swap_prod_mk]

/-- Inserting a vertex in front of another is inserting it behind the other among edges turned
around. -/
theorem reversed_insertAfter (g : Digraph α) (v : Nat) (a : α) :
    (g.reversed.insertAfter v a).reversed = g.insertBefore v a := by
  have rerouted (xs : List Nat) (h : Digraph α) :
      (xs.foldl (fun h t => (h.removeEdge v t).addEdge g.size t) h.reversed).reversed
        = xs.foldl (fun h s => (h.removeEdge s v).addEdge s g.size) h := by
    induction xs generalizing h with
    | nil => exact reversed_reversed h
    | cons x xs ih =>
      rw [List.foldl_cons, List.foldl_cons, ← ih, reversed_addEdge, reversed_removeEdge]
  unfold insertAfter insertBefore successorsInOrder predecessorsInOrder
  rw [reversed_addEdge, successors_reversed]
  exact congrArg (fun h : Digraph α => h.addEdge g.size v) (rerouted _ (g.addVertex a))

/-! ## Inserting in front of a vertex -/

theorem vertices_insertBefore (g : Digraph α) (v : Nat) (a : α) :
    (g.insertBefore v a).vertices = g.vertices.push a := by
  rw [← reversed_insertAfter]
  exact vertices_insertAfter g.reversed v a

section InsertBefore

variable {g : Digraph α} (wf : g.WellFormed) {v : Nat} (inside : v < g.size) (a : α)
include wf inside

theorem WellFormed.insertBefore : (g.insertBefore v a).WellFormed := by
  rw [← reversed_insertAfter]
  exact (wf.reversed.insertAfter inside a).reversed

theorem adj_insertBefore (x y : Nat) : (g.insertBefore v a).Adj x y ↔
    (y = v ∧ x = g.size) ∨ (y = g.size ∧ g.Adj x v) ∨ (y ≠ v ∧ g.Adj x y) := by
  rw [← reversed_insertAfter, adj_reversed, adj_insertAfter wf.reversed inside]
  simp only [size_reversed, adj_reversed]

theorem Acyclic.insertBefore (acyclic : g.Acyclic) : (g.insertBefore v a).Acyclic := by
  rw [← reversed_insertAfter]
  exact (acyclic.reversed.insertAfter wf.reversed inside a).reversed

theorem passage_insertBefore {n : Nat} (late : n ≤ g.size) {x y : Nat} (new : x ≠ g.size)
    (new' : y ≠ g.size) : (g.insertBefore v a).Passage n x y ↔ g.Passage n x y := by
  rw [← reversed_insertAfter, passage_reversed,
    passage_insertAfter wf.reversed inside a late new' new, passage_reversed]

end InsertBefore

end Digraph

end LayerNet
