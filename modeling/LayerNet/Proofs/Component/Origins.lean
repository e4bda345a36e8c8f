import LayerNet.Proofs.Component.NormalForm
import LayerNet.Proofs.Digraph.Origins

/-!
# Origins in a normal form — added splits stand in the order of the components they were added for

In a normal form every edge into a concatenation where edges merge can be walked back through added
splits to a component that was there before, and of two added splits the first one was added for the
component that was there first (`origins_of_normalize`).

Closing modules adds concatenations that nothing follows, and joining roots a split that nothing
precedes, so no added component has an origin then (`Ended`, `Rooted`). The first insertion pass
goes through the components in order, so the splits that it adds have their origins in order
(`Numbered`). The second pass adds only concatenations, and leaves all origins as they were.
-/

namespace LayerNet

/-- Whether a component is a split. -/
def Component.isSplit (component : Component) : Bool := component.blueprint.isSplit

namespace ComponentGraph

open LayerNet.Digraph

variable {c : ComponentGraph} {k : Nat}

/-! ## Before the passes -/

/-- The components from `k` on are no splits, and nothing follows them. -/
structure Ended (k : Nat) (c : ComponentGraph) : Prop where
  late : k ≤ c.size
  leaves : ∀ u v, c.graph.Adj u v → u < k
  plain : ∀ v, k ≤ v → ¬ c.graph.Relays Component.isSplit v

/-- The vertices of a graph with one component more and edges to or from it. -/
theorem vertices_attach (c : ComponentGraph) (component : Component) (edges : List Edge) :
    ((c.graph.addVertex component).addEdges edges).vertices = c.graph.vertices.push component :=
  vertices_addEdges _ edges

theorem Ended.closeModule (ended : Ended k c) {exits : List Nat} (inside : ∀ v ∈ exits, v < k) :
    Ended k (c.closeModule exits) := by
  unfold ComponentGraph.closeModule
  dsimp only
  split
  · exact ended
  · let edges := (exits.filter fun v => c.graph.outDegree v = 0).map fun v => (v, c.size)
    have pushed := vertices_attach c (c.fresh .concat) edges
    constructor
    · exact Nat.le_trans ended.late (le_size_push pushed)
    · intro u v edge
      rcases (adj_addEdges _ edges u v).mp edge with added | old
      · obtain ⟨w, open?, same⟩ := List.mem_map.mp added
        obtain ⟨rfl, -⟩ := Prod.mk.inj same
        exact inside w (List.mem_filter.mp open?).1
      · exact ended.leaves u v old
    · intro v after relays
      rcases Relays.of_push pushed relays with ⟨-, isSplit⟩ | old
      · cases isSplit
      · exact ended.plain v after old

theorem Ended.closeModules (wf : c.WellFormed) : Ended c.size c.closeModules := by
  have start : Ended c.size c :=
    ⟨Nat.le_refl _, fun u v edge => (wf.graph.inside u v edge).1,
      fun v after relays => absurd relays.lt (Nat.not_lt.mpr after)⟩
  have run (exits : List (List Nat)) (inside : ∀ xs ∈ exits, ∀ v ∈ xs, v < c.size)
      (b : ComponentGraph) (ended : Ended c.size b) :
      Ended c.size (exits.foldl ComponentGraph.closeModule b) := by
    induction exits generalizing b with
    | nil => exact ended
    | cons xs exits ih =>
      obtain ⟨first, others⟩ := List.forall_mem_cons.mp inside
      exact ih others _ (ended.closeModule first)
  have closed := run c.exits (fun xs member => (wf.exits xs member).2) c start
  exact ⟨closed.late, closed.leaves, closed.plain⟩

/-- Edges can be walked back, and no component from `k` on has an origin. -/
structure Rooted (k : Nat) (c : ComponentGraph) : Prop where
  late : k ≤ c.size
  traceable : c.graph.Traceable Component.isSplit k
  none : ∀ v o, k ≤ v → ¬ c.graph.Origin Component.isSplit k v o

theorem Ended.joinRoots (dag : c.graph.IsDag) (ended : Ended k c) : Rooted k c.joinRoots := by
  unfold ComponentGraph.joinRoots
  dsimp only
  split
  · refine ⟨ended.late, ⟨fun v after relays => absurd relays (ended.plain v after), ?_⟩, ?_⟩
    · exact fun u v edge => .inl ⟨u, .here (ended.leaves u v edge)⟩
    · exact fun v o after origin => ended.plain v after (origin.relays after)
  · let edges := c.graph.roots.map fun v => (c.size, v)
    have pushed := vertices_attach c (c.fresh .split) edges
    have adj (u v : Nat) : ((c.graph.addVertex (c.fresh .split)).addEdges edges).Adj u v ↔
        (u = c.size ∧ v ∈ c.graph.roots) ∨ c.graph.Adj u v := by
      rw [adj_addEdges, List.mem_map]
      refine or_congr ⟨?_, ?_⟩ Iff.rfl
      · rintro ⟨w, root, same⟩
        obtain ⟨rfl, rfl⟩ := Prod.mk.inj same
        exact ⟨rfl, root⟩
      · rintro ⟨rfl, root⟩
        exact ⟨v, root, rfl⟩
    -- the only relay is the new split, which no edge enters
    have alone {u v : Nat} (after : k ≤ v) (relays :
        ((c.graph.addVertex (c.fresh .split)).addEdges edges).Relays Component.isSplit v) :
        ¬ ((c.graph.addVertex (c.fresh .split)).addEdges edges).Adj u v := by
      intro edge
      rcases Relays.of_push pushed relays with ⟨rfl, -⟩ | old
      · rcases (adj u _).mp edge with ⟨-, root⟩ | edge
        · exact Nat.lt_irrefl _ ((c.graph.mem_roots _).mp root).1
        · exact Nat.lt_irrefl _ (dag.wellFormed.inside u _ edge).2
      · exact ended.plain v after old
    refine ⟨?_, ⟨fun v after relays x _ edge => absurd edge (alone after relays), ?_⟩, ?_⟩
    · exact Nat.le_trans ended.late (le_size_push pushed)
    · intro u v edge
      rcases (adj u v).mp edge with ⟨rfl, root⟩ | old
      · refine .inr fun x edge' => ?_
        rcases (adj x v).mp edge' with ⟨rfl, -⟩ | old
        · rfl
        · exact absurd old (((c.graph.mem_roots_iff v).mp root).2 x)
      · exact .inl ⟨u, .here (ended.leaves u v old)⟩
    · intro v o after origin
      cases origin with
      | here old => exact absurd old (Nat.not_lt.mpr after)
      | through _ relays edge _ => exact alone after relays edge

/-! ## Splits -/

/-- Edges can be walked back, and added splits stand in the order of their origins. -/
structure Ordered (k : Nat) (c : ComponentGraph) : Prop where
  traceable : c.graph.Traceable Component.isSplit k
  inOrder : c.graph.InOrderUpTo Component.isSplit k c.size

/-- Added splits stand in the order of their origins, which are before `next`. -/
structure Numbered (k next : Nat) (c : ComponentGraph) : Prop extends Ordered k c where
  below : ∀ v o, k ≤ v → c.graph.Origin Component.isSplit k v o → o < next

theorem Numbered.splitFanOut (dag : c.graph.IsDag) (late : k ≤ c.size) {v : Nat}
    (inside : v < c.size) (numbered : Numbered k v c) : Numbered k (v + 1) (c.splitFanOut v) := by
  have wf := dag.wellFormed
  by_cases fans : c.FansOut v
  · have rewired : c.splitFanOut v = { c with graph := c.graph.insertAfter v (c.fresh .split) } :=
      if_pos ((needsSplit_iff dag v).mpr fans)
    -- what has an origin had it before, or is the new split, and its origin is `v`
    have origins {w o : Nat} (after : k ≤ w)
        (origin : (c.graph.insertAfter v (c.fresh .split)).Origin Component.isSplit k w o) :
        (w = c.size ∧ o = v) ∨ (w < c.size ∧ c.graph.Origin Component.isSplit k w o) := by
      have before := origin.of_insertAfter wf inside late
      by_cases new : w = c.graph.size
      · rw [if_pos new] at before
        refine .inl ⟨new, before.eq_of_lt (Nat.lt_of_not_le fun after => ?_)⟩
        have isSplit : c.blueprintIs Blueprint.isSplit v = true := before.relays after
        rw [fans.1] at isSplit
        cases isSplit
      · rw [if_neg new] at before
        exact .inr ⟨(before.relays after).lt, before⟩
    rw [rewired]
    refine ⟨⟨numbered.traceable.insertAfter wf inside late (.inl rfl), ?_⟩, ?_⟩
    · intro u w o p after later _ first second
      have after' : k ≤ w := Nat.le_of_lt (Nat.lt_of_le_of_lt after later)
      rcases origins after first with ⟨new, -⟩ | ⟨small, first⟩
      · rcases origins after' second with ⟨new', -⟩ | ⟨small, -⟩ <;> omega
      · rcases origins after' second with ⟨-, same⟩ | ⟨small', second⟩
        · rw [same]
          exact numbered.below u o after first
        · exact numbered.inOrder u w o p after later small' first second
    · intro w o after origin
      rcases origins after origin with ⟨-, rfl⟩ | ⟨-, origin⟩
      · exact Nat.lt_succ_self _
      · exact Nat.lt_succ_of_lt (numbered.below w o after origin)
  · have same : c.splitFanOut v = c := if_neg (fans ∘ (needsSplit_iff dag v).mp)
    rw [same]
    exact ⟨numbered.toOrdered,
      fun w o after origin => Nat.lt_succ_of_lt (numbered.below w o after origin)⟩

/-- A pass in order of the components numbers its splits. -/
theorem Rooted.splitAll (dag : c.graph.IsDag) (rooted : Rooted k c) {next : Nat}
    (inside : next ≤ c.size) :
    Numbered k next ((List.range next).foldl ComponentGraph.splitFanOut c) := by
  induction next with
  | zero =>
    have none (v o : Nat) (after : k ≤ v) := rooted.none v o after
    exact ⟨⟨rooted.traceable, fun u v o p after _ _ origin => absurd origin (none u o after)⟩,
      fun v o after origin => absurd origin (none v o after)⟩
  | succ next ih =>
    have before : Extends 0 c ((List.range next).foldl ComponentGraph.splitFanOut c) :=
      extends_splitAll dag (Nat.zero_le _)
        fun v member => Nat.lt_trans (List.mem_range.mp member) inside
    rw [List.range_succ, List.foldl_append]
    exact (ih (Nat.le_of_lt inside)).splitFanOut before.dag
      (Nat.le_trans rooted.late before.size_le) (Nat.lt_of_lt_of_le inside before.size_le)

/-! ## Concatenations -/

theorem Ordered.joinFanIn (dag : c.graph.IsDag) (late : k ≤ c.size) {v : Nat} (inside : v < c.size)
    (ordered : Ordered k c) : Ordered k (c.joinFanIn v) := by
  have wf := dag.wellFormed
  by_cases fans : c.FansIn v
  · have rewired : c.joinFanIn v = { c with graph := c.graph.insertBefore v (c.fresh .concat) } :=
      if_pos ((needsConcat_iff dag v).mpr fans)
    rw [rewired]
    refine ⟨ordered.traceable.insertBefore wf inside rfl late fans.2, ?_⟩
    intro u w o p after later _ first second
    obtain ⟨-, first⟩ :=
      (origin_insertBefore wf inside ordered.traceable rfl late fans.2).mp first
    obtain ⟨small, second⟩ :=
      (origin_insertBefore wf inside ordered.traceable rfl late fans.2).mp second
    exact ordered.inOrder u w o p after later small first second
  · have same : c.joinFanIn v = c := if_neg (fans ∘ (needsConcat_iff dag v).mp)
    rw [same]
    exact ordered

theorem Ordered.joinAll (dag : c.graph.IsDag) (late : k ≤ c.size) (ordered : Ordered k c)
    {xs : List Nat} (inside : ∀ v ∈ xs, v < c.size) :
    Ordered k (xs.foldl ComponentGraph.joinFanIn c) := by
  induction xs generalizing c with
  | nil => exact ordered
  | cons v xs ih =>
    obtain ⟨small, inside⟩ := List.forall_mem_cons.mp inside
    have larger := extends_joinFanIn dag (Nat.zero_le _) small
    exact ih larger.dag (Nat.le_trans late larger.size_le) (ordered.joinFanIn dag late small)
      fun w member => Nat.lt_of_lt_of_le (inside w member) larger.size_le

/-- In the normal form of a well-formed graph, edges can be walked back through added splits to the
components of the graph, and these splits stand in the order of their origins. -/
theorem origins_of_normalize {normal : ComponentGraph} (wf : c.WellFormed)
    (success : c.normalize = .ok normal) : Ordered c.size normal := by
  obtain ⟨none, rfl⟩ := eq_of_normalize_eq_ok success
  have dag : c.graph.IsDag := ⟨wf.graph, (Digraph.cycleVertex?_eq_none_iff wf.graph).mp none⟩
  have closed := extends_closeModules dag (Nat.zero_le _) wf.exits
  have joined := extends_joinRoots closed.dag (Nat.zero_le _)
  have rooted := (Ended.closeModules wf).joinRoots closed.dag
  have split := extends_splitAll joined.dag (Nat.zero_le _) fun v member => List.mem_range.mp member
  have numbered := rooted.splitAll joined.dag (Nat.le_refl _)
  refine numbered.toOrdered.joinAll split.dag (Nat.le_trans rooted.late split.size_le) ?_
  intro v member
  exact Nat.lt_of_lt_of_le (List.mem_range.mp member) split.size_le

end ComponentGraph

end LayerNet
