import LayerNet.Proofs.Digraph.Degree
import LayerNet.Proofs.Digraph.Neighbours

/-!
# Grafting — vertices put behind others, and the graph without them

Vertices put into a graph have the last numbers. Here each of them was put behind a vertex of the
plain graph, which leads nowhere else any more, and leads on to such vertices itself (`Grafted`). So
the plain edges are those that stayed, and those that now lead through one vertex that was put in.
One insertion keeps this where the vertex that it is behind leads to plain vertices only
(`Grafted.insertAfter`), and a graph with one root keeps it (`Grafted.hasOneRoot`).

What was put in can be taken out: when its sinks are deleted and its other vertices are contracted
into what leads to them, the plain edges are left (`Grafted.pruned_perm`).
-/

namespace LayerNet

namespace Digraph

variable {α β : Type}

/-- What a vertex is contracted into: one that is contracted, into the vertex that leads to it. -/
def mergedInto (g : Digraph α) (contracted : Nat → Bool) (v : Nat) : Nat :=
  if contracted v then (g.predecessors v).headD v else v

/-- The edges left when some vertices are deleted and others are contracted into the vertices that
lead to them: those of deleted vertices go, and so do those within a contraction. -/
def pruned (g : Digraph α) (deleted contracted : Nat → Bool) : List Edge :=
  let kept := g.edges.filter fun e => !deleted e.1 && !deleted e.2
  let merged := kept.map fun e => (g.mergedInto contracted e.1, g.mergedInto contracted e.2)
  merged.filter fun e => e.1 ≠ e.2

/-- Each vertex that a plain graph does not have is the only one behind one of the plain vertices
and leads to plain vertices. The plain edges are those that stayed, and those that lead through one
of the others. -/
structure Grafted (plain : Digraph α) (g : Digraph β) : Prop where
  wellFormed : g.WellFormed
  later : plain.size ≤ g.size
  behind : ∀ a, plain.size ≤ a → a < g.size → ∃ p < plain.size,
    (∀ u, g.Adj u a ↔ u = p) ∧ ∀ w, g.Adj p w ↔ w = a
  onward : ∀ a w, plain.size ≤ a → g.Adj a w → w < plain.size
  edges : ∀ u v, u < plain.size → v < plain.size →
    (plain.Adj u v ↔ g.Adj u v ∨ ∃ a, plain.size ≤ a ∧ g.Adj u a ∧ g.Adj a v)

namespace Grafted

variable {plain : Digraph α} {g : Digraph β}

theorem of_adj (wf : g.WellFormed) (size : g.size = plain.size)
    (same : ∀ u v, g.Adj u v ↔ plain.Adj u v) : plain.Grafted g where
  wellFormed := wf
  later := Nat.le_of_eq size.symm
  behind a after inside := by omega
  onward a w after edge := by
    have := (wf.inside a w edge).1
    omega
  edges u v _ _ := by
    rw [← same]
    refine ⟨.inl, fun either => either.elim id ?_⟩
    rintro ⟨a, after, edge, -⟩
    have := (wf.inside u a edge).2
    omega

section Insertion

variable (grafted : plain.Grafted g) {t : Nat} (old : t < plain.size)
  (free : ∀ w, g.Adj t w → w < plain.size) (label : β)
include grafted old free

/-- The new vertex is behind its vertex alone, and the others are behind theirs. -/
theorem behind_insertAfter (a : Nat) (after : plain.size ≤ a) (inside : a ≤ g.size) :
    ∃ p < plain.size, (∀ u, (g.insertAfter t label).Adj u a ↔ u = p)
      ∧ ∀ w, (g.insertAfter t label).Adj p w ↔ w = a := by
  have wf := grafted.wellFormed
  have later := grafted.later
  have within : t < g.size := Nat.lt_of_lt_of_le old later
  have wf' := wf.insertAfter within label
  by_cases new : a = g.size
  · subst new
    exact ⟨t, old,
      wf'.predecessors_eq_singleton_iff.mp (predecessors_insertAfter_new wf within label),
      wf'.successors_eq_singleton_iff.mp (successors_insertAfter wf within label)⟩
  · obtain ⟨p, before, entered, left⟩ := grafted.behind a after (by omega)
    have other : p ≠ t := by
      rintro rfl
      exact absurd (free a ((left a).mpr rfl)) (Nat.not_lt.mpr after)
    simp only [adj_insertAfter wf within label]
    refine ⟨p, before, fun u => ?_, fun w => ?_⟩
    · rw [← entered u]
      constructor
      · rintro (⟨-, same⟩ | ⟨-, edge⟩ | ⟨-, edge⟩)
        · exact absurd same new
        · exact absurd (free a edge) (Nat.not_lt.mpr after)
        · exact edge
      · intro edge
        exact .inr (.inr ⟨(entered u).mp edge ▸ other, edge⟩)
    · rw [← left w]
      constructor
      · rintro (⟨same, -⟩ | ⟨same, -⟩ | ⟨-, edge⟩)
        · exact absurd same other
        · omega
        · exact edge
      · exact fun edge => .inr (.inr ⟨other, edge⟩)

/-- The edges of the vertex now lead through the new one, and no others do. -/
theorem edges_insertAfter {u v : Nat} (before : u < plain.size) (before' : v < plain.size) :
    plain.Adj u v ↔ (g.insertAfter t label).Adj u v
      ∨ ∃ a, plain.size ≤ a ∧ (g.insertAfter t label).Adj u a
        ∧ (g.insertAfter t label).Adj a v := by
  have later := grafted.later
  have step := adj_insertAfter grafted.wellFormed (Nat.lt_of_lt_of_le old later) label
  have small {x y : Nat} (edge : g.Adj x y) : x < g.size ∧ y < g.size :=
    grafted.wellFormed.inside x y edge
  rw [grafted.edges u v before before']
  constructor
  · rintro (edge | ⟨a, after, edge, edge'⟩)
    · by_cases same : u = t
      · exact .inr ⟨g.size, later, (step _ _).mpr (.inl ⟨same, rfl⟩),
          (step _ _).mpr (.inr (.inl ⟨rfl, same ▸ edge⟩))⟩
      · exact .inl ((step _ _).mpr (.inr (.inr ⟨same, edge⟩)))
    · have other : u ≠ t := by
        rintro rfl
        exact absurd (free a edge) (Nat.not_lt.mpr after)
      exact .inr ⟨a, after, (step _ _).mpr (.inr (.inr ⟨other, edge⟩)),
        (step _ _).mpr (.inr (.inr ⟨by omega, edge'⟩))⟩
  · rintro (edge | ⟨a, after, edge, edge'⟩)
    · rcases (step _ _).mp edge with ⟨-, same⟩ | ⟨same, -⟩ | ⟨-, edge⟩
      · omega
      · omega
      · exact .inl edge
    · rcases (step _ _).mp edge with ⟨rfl, rfl⟩ | ⟨same, -⟩ | ⟨-, edge⟩
      · rcases (step _ _).mp edge' with ⟨same, -⟩ | ⟨-, edge⟩ | ⟨-, edge⟩
        · omega
        · exact .inl edge
        · exact absurd (small edge).1 (Nat.lt_irrefl _)
      · omega
      · rcases (step _ _).mp edge' with ⟨same, -⟩ | ⟨same, -⟩ | ⟨-, edge'⟩
        · omega
        · exact absurd (small edge).2 (Nat.not_lt.mpr (Nat.le_of_eq same.symm))
        · exact .inr ⟨a, after, edge, edge'⟩

/-- A vertex is put behind one of the plain vertices that leads to plain vertices only. -/
theorem insertAfter : plain.Grafted (g.insertAfter t label) := by
  have wf := grafted.wellFormed
  have later := grafted.later
  have inside : t < g.size := Nat.lt_of_lt_of_le old later
  have size : (g.insertAfter t label).size = g.size + 1 := size_insertAfter g t label
  refine ⟨wf.insertAfter inside label, by omega, fun a after below => ?_, fun a w after edge => ?_,
    fun u v before before' => grafted.edges_insertAfter old free label before before'⟩
  · exact grafted.behind_insertAfter old free label a after (by omega)
  · rcases (adj_insertAfter wf inside label a w).mp edge with ⟨rfl, -⟩ | ⟨-, edge⟩ | ⟨-, edge⟩
    · omega
    · exact free w edge
    · exact grafted.onward a w after edge

end Insertion

section Reading

variable (grafted : plain.Grafted g)
include grafted

/-- Edges lead into the same plain vertices, if perhaps from others. -/
theorem entered_iff {v : Nat} (before : v < plain.size) (wf : plain.WellFormed) :
    (∃ u, g.Adj u v) ↔ ∃ u, plain.Adj u v := by
  constructor
  · rintro ⟨u, edge⟩
    by_cases late : plain.size ≤ u
    · obtain ⟨p, low, enter, -⟩ := grafted.behind u late (grafted.wellFormed.inside u v edge).1
      exact ⟨p, (grafted.edges p v low before).mpr (.inr ⟨u, late, (enter p).mpr rfl, edge⟩)⟩
    · exact ⟨u, (grafted.edges u v (Nat.lt_of_not_le late) before).mpr (.inl edge)⟩
  · rintro ⟨u, edge⟩
    rcases (grafted.edges u v (wf.inside u v edge).1 before).mp edge with edge | ⟨a, -, -, edge⟩
    · exact ⟨u, edge⟩
    · exact ⟨a, edge⟩

theorem hasOneRoot (wf : plain.WellFormed) (one : plain.HasOneRoot) : g.HasOneRoot := by
  obtain ⟨root, ⟨inside, unentered⟩, only⟩ := one
  refine ⟨root, ⟨Nat.lt_of_lt_of_le inside grafted.later, fun u edge => ?_⟩, ?_⟩
  · obtain ⟨w, edge⟩ := (grafted.entered_iff inside wf).mp ⟨u, edge⟩
    exact unentered w edge
  · rintro v ⟨below, alone⟩
    by_cases late : plain.size ≤ v
    · obtain ⟨p, -, enter, -⟩ := grafted.behind v late below
      exact absurd ((enter p).mpr rfl) (alone p)
    · have before := Nat.lt_of_not_le late
      refine only v ⟨before, fun u edge => ?_⟩
      obtain ⟨w, edge⟩ := (grafted.entered_iff before wf).mpr ⟨u, edge⟩
      exact alone w edge

variable {deleted contracted : Nat → Bool}
  (late : ∀ v, v < plain.size → deleted v = false ∧ contracted v = false)
  (sinks : ∀ v w, deleted v = true → ¬ g.Adj v w)
  (rest : ∀ v, plain.size ≤ v → v < g.size → deleted v = false → contracted v = true)

omit grafted in
include late in
theorem mergedInto_of_lt {v : Nat} (before : v < plain.size) : g.mergedInto contracted v = v := by
  rw [mergedInto, (late v before).2]
  rfl

include rest in
theorem mergedInto_of_le {v p : Nat} (after : plain.size ≤ v) (below : v < g.size)
    (stays : deleted v = false) (entered : ∀ u, g.Adj u v ↔ u = p) :
    g.mergedInto contracted v = p := by
  rw [mergedInto, rest v after below stays,
    grafted.wellFormed.predecessors_eq_singleton_iff.mpr entered]
  rfl

include late sinks rest

/-- An edge that stays as an edge leads to a plain vertex: from one of those, or through a
contracted vertex that no other edge leads to. -/
theorem mergedInto_cases {u v : Nat} (edge : g.Adj u v) (stays : deleted v = false)
    (apart : g.mergedInto contracted u ≠ g.mergedInto contracted v) :
    v < plain.size ∧ g.mergedInto contracted v = v
      ∧ ((u < plain.size ∧ g.mergedInto contracted u = u)
        ∨ (plain.size ≤ u ∧ g.mergedInto contracted u < plain.size
          ∧ ∀ w, g.Adj (g.mergedInto contracted u) w ↔ w = u)) := by
  have plainly {v : Nat} (before : v < plain.size) : g.mergedInto contracted v = v :=
    mergedInto_of_lt late before
  have inside := grafted.wellFormed.inside u v edge
  have before : v < plain.size := by
    by_contra after
    have after := Nat.le_of_not_lt after
    obtain ⟨p, low, entered, -⟩ := grafted.behind v after inside.2
    obtain rfl := (entered u).mp edge
    have merged := grafted.mergedInto_of_le rest after inside.2 stays entered
    exact apart ((plainly low).trans merged.symm)
  refine ⟨before, plainly before, ?_⟩
  by_cases low : u < plain.size
  · exact .inl ⟨low, plainly low⟩
  · have after := Nat.le_of_not_lt low
    have stays' : deleted u = false := Bool.eq_false_of_not_eq_true fun gone => sinks u v gone edge
    obtain ⟨p, low, entered, left⟩ := grafted.behind u after inside.1
    rw [grafted.mergedInto_of_le rest after inside.1 stays' entered]
    exact .inr ⟨after, low, left⟩

/-- Different edges that stay end up as different edges. -/
theorem eq_of_merged {u u' v v' : Nat} (edge : g.Adj u v) (edge' : g.Adj u' v')
    (stays : deleted v = false) (stays' : deleted v' = false)
    (apart : g.mergedInto contracted u ≠ g.mergedInto contracted v)
    (source : g.mergedInto contracted u = g.mergedInto contracted u')
    (target : g.mergedInto contracted v = g.mergedInto contracted v') : u = u' ∧ v = v' := by
  have apart' : g.mergedInto contracted u' ≠ g.mergedInto contracted v' := source ▸ target ▸ apart
  obtain ⟨before, same, from?⟩ := grafted.mergedInto_cases late sinks rest edge stays apart
  obtain ⟨before', same', from?'⟩ := grafted.mergedInto_cases late sinks rest edge' stays' apart'
  rw [same, same'] at target
  subst target
  refine ⟨?_, rfl⟩
  rcases from? with ⟨low, plainly⟩ | ⟨after, -, left⟩ <;>
    rcases from?' with ⟨low', plainly'⟩ | ⟨after', -, left'⟩
  · rw [← plainly, source, plainly']
  · -- what a contracted vertex is behind has no other edge
    rw [← source, plainly] at left'
    exact absurd ((left' v).mp edge) (by omega)
  · rw [source, plainly'] at left
    exact absurd ((left v).mp edge') (by omega)
  · exact (left' u).mp (source ▸ (left u).mpr rfl)

/-- When the sinks that were put in are deleted, and the other vertices that were put in are
contracted into what leads to them, the plain edges are left. -/
theorem pruned_perm (wf : plain.WellFormed) : (g.pruned deleted contracted).Perm plain.edges := by
  obtain ⟨into, isInto⟩ : ∃ into, into = g.mergedInto contracted := ⟨_, rfl⟩
  obtain ⟨stay, isStay⟩ : ∃ stay, stay =
    (g.edges.filter fun e => !deleted e.1 && !deleted e.2).filter
      fun e => decide (into e.1 ≠ into e.2) := ⟨_, rfl⟩
  have mem_stay (u v : Nat) : (u, v) ∈ stay ↔
      g.Adj u v ∧ (deleted u = false ∧ deleted v = false) ∧ into u ≠ into v := by
    rw [isStay, List.mem_filter, List.mem_filter]
    simp [Adj, and_assoc]
  have pruned : g.pruned deleted contracted = stay.map fun e => (into e.1, into e.2) := by
    rw [Digraph.pruned, isStay, isInto, List.filter_map]
    rfl
  rw [pruned, List.perm_ext_iff_of_nodup ?_ wf.simple]
  · rintro ⟨x, y⟩
    rw [List.mem_map]
    constructor
    · rintro ⟨⟨u, v⟩, member, same⟩
      obtain ⟨edge, ⟨-, stays⟩, apart⟩ := (mem_stay u v).mp member
      obtain ⟨rfl, rfl⟩ := Prod.mk.inj same
      rw [isInto] at apart ⊢
      obtain ⟨before, same, ⟨low, plainly⟩ | ⟨after, low, left⟩⟩ :=
        grafted.mergedInto_cases late sinks rest edge stays apart
      · show plain.Adj _ _
        rw [same, plainly]
        exact (grafted.edges u v low before).mpr (.inl edge)
      · show plain.Adj _ _
        rw [same]
        exact (grafted.edges _ v low before).mpr (.inr ⟨u, after, (left u).mpr rfl, edge⟩)
    · intro edge
      have plainly {v : Nat} (before : v < plain.size) : into v = v :=
        isInto ▸ mergedInto_of_lt late before
      obtain ⟨low, low'⟩ := wf.inside x y edge
      have apart : x ≠ y := fun same => wf.loopless x (same ▸ edge)
      rcases (grafted.edges x y low low').mp edge with edge | ⟨a, after, edge, onward⟩
      · refine ⟨(x, y), (mem_stay x y).mpr ⟨edge, ⟨(late x low).1, (late y low').1⟩, ?_⟩, ?_⟩
        · rwa [plainly low, plainly low']
        · rw [plainly low, plainly low']
      · have stays : deleted a = false :=
          Bool.eq_false_of_not_eq_true fun gone => sinks a y gone onward
        have below := (grafted.wellFormed.inside a y onward).1
        obtain ⟨p, -, entered, -⟩ := grafted.behind a after below
        obtain rfl := (entered x).mp edge
        have merged : into a = x := isInto ▸ grafted.mergedInto_of_le rest after below stays entered
        refine ⟨(a, y), (mem_stay a y).mpr ⟨onward, ⟨stays, (late y low').1⟩, ?_⟩, ?_⟩
        · rwa [merged, plainly low']
        · rw [merged, plainly low']
  · have nodup : stay.Nodup := by
      rw [isStay]
      exact (grafted.wellFormed.simple.filter _).filter _
    refine nodup.map_on ?_
    rintro ⟨u, v⟩ member ⟨u', v'⟩ member' same
    obtain ⟨edge, ⟨-, stays⟩, apart⟩ := (mem_stay u v).mp member
    obtain ⟨edge', ⟨-, stays'⟩, -⟩ := (mem_stay u' v').mp member'
    obtain ⟨source, target⟩ := Prod.mk.inj same
    rw [isInto] at apart source target
    obtain ⟨rfl, rfl⟩ :=
      grafted.eq_of_merged late sinks rest edge edge' stays stays' apart source target
    rfl

end Reading

end Grafted

end Digraph

end LayerNet
