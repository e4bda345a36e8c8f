import LayerNet.Proofs.Digraph.Search

/-!
# Execution — every vertex once, after all its predecessors

The order of execution meets no vertex before its predecessors and none twice, whatever the graph
(`executionOrder_inOrder`). If the graph has no cycle, it leaves no vertex out
(`mem_executionOrder`).

Both are about the stack. A vertex is put there when all its predecessors have been met, and every
vertex of which this can be said has been met or is on the stack. So when the stack is empty, what
is left out has a predecessor that is left out (`takeReady_closed`), and in a ranked graph there is
no such vertex. The steps suffice because the vertices on the stack, and the edges that leave
vertices not met yet, become fewer with every step.
-/

namespace LayerNet

namespace Digraph

variable {α : Type}

/-- After the vertices met so far, a list meets new ones, each after all its predecessors. -/
def InOrder (g : Digraph α) : List Nat → List Nat → Prop
  | _, [] => True
  | met, v :: rest =>
    v < g.size ∧ v ∉ met ∧ (∀ u, g.Adj u v → u ∈ met) ∧ InOrder g (v :: met) rest

/-- What comes later in the list comes after what has been met by then. -/
theorem InOrder.of_append {g : Digraph α} {met before after : List Nat}
    (ordered : g.InOrder met (before ++ after)) : g.InOrder (before.reverse ++ met) after := by
  induction before generalizing met with
  | nil => exact ordered
  | cons v before ih =>
    obtain ⟨-, -, -, ordered⟩ := ordered
    rw [List.reverse_cons, List.append_assoc]
    exact ih ordered

theorem inOrder_concat_iff {g : Digraph α} {met order : List Nat} {v : Nat} : g.InOrder met (order ++ [v]) ↔
    g.InOrder met order ∧ v < g.size ∧ v ∉ order.reverse ++ met
      ∧ ∀ u, g.Adj u v → u ∈ order.reverse ++ met := by
  induction order generalizing met with
  | nil => simp [InOrder]
  | cons w order ih =>
    simp only [List.cons_append, InOrder, ih, List.reverse_cons, List.append_assoc,
      List.nil_append, and_assoc]

/-- No vertex is met twice. -/
theorem InOrder.nodup {g : Digraph α} {order : List Nat} (ordered : g.InOrder [] order) : order.Nodup := by
  induction order using List.reverseRecOn with
  | nil => exact .nil
  | append_singleton order v ih =>
    obtain ⟨before, -, new, -⟩ := inOrder_concat_iff.mp ordered
    rw [List.append_nil, List.mem_reverse] at new
    rw [List.nodup_append]
    refine ⟨ih before, List.nodup_singleton v, fun u member w last => ?_⟩
    rw [List.mem_singleton.mp last]
    exact fun same => new (same ▸ member)

/-- All vertices that are met are there. -/
theorem InOrder.inside {g : Digraph α} {met order : List Nat} (ordered : g.InOrder met order) :
    ∀ v ∈ order, v < g.size := by
  induction order generalizing met with
  | nil => exact fun v member => absurd member List.not_mem_nil
  | cons w order ih =>
    obtain ⟨inside, -, -, ordered⟩ := ordered
    exact List.forall_mem_cons.mpr ⟨inside, ih ordered⟩

theorem mem_ready (g : Digraph α) (met : List Nat) (v w : Nat) :
    w ∈ g.ready met v ↔ g.Adj v w ∧ ∀ u, g.Adj u w → u ∈ met := by
  simp only [ready, List.mem_filter, mem_successors, List.all_eq_true, mem_predecessors,
    List.contains_iff_mem]
  rfl

theorem length_ready_le (g : Digraph α) (met : List Nat) (v : Nat) :
    (g.ready met v).length ≤ g.outDegree v :=
  List.length_filter_le _ _

theorem takeReady_inOrder {g : Digraph α} (wf : g.WellFormed) (steps : Nat) {stack met : List Nat}
    (due : ∀ w ∈ stack, w < g.size ∧ ∀ u, g.Adj u w → u ∈ met) :
    g.InOrder met (g.takeReady steps stack met) := by
  induction steps generalizing stack met with
  | zero => trivial
  | succ steps ih =>
    cases stack with
    | nil => trivial
    | cons v stack =>
      have below : ∀ w ∈ stack, w < g.size ∧ ∀ u, g.Adj u w → u ∈ met :=
        fun w member => due w (List.mem_cons_of_mem v member)
      unfold takeReady
      by_cases old : met.contains v = true
      · rw [if_pos old]
        exact ih below
      · rw [if_neg old]
        obtain ⟨inside, entered⟩ := due v List.mem_cons_self
        rw [List.contains_iff_mem] at old
        refine ⟨inside, old, entered, ih fun w member => ?_⟩
        rcases List.mem_append.mp member with pushed | member
        · obtain ⟨edge, entered⟩ := (mem_ready g _ v w).mp (List.mem_reverse.mp pushed)
          exact ⟨(wf.inside v w edge).2, entered⟩
        · obtain ⟨inside, entered⟩ := below w member
          exact ⟨inside, fun u edge => List.mem_cons_of_mem v (entered u edge)⟩

/-- A vertex all of whose predecessors are met is met or on the stack. -/
def AllDue (g : Digraph α) (met stack : List Nat) : Prop :=
  ∀ w, w < g.size → (∀ u, g.Adj u w → u ∈ met) → w ∈ met ∨ w ∈ stack

/-- What becomes due with a vertex is behind it. -/
theorem AllDue.visit {g : Digraph α} {v : Nat} {met stack : List Nat}
    (due : g.AllDue met (v :: stack)) :
    g.AllDue (v :: met) ((g.ready (v :: met) v).reverse ++ stack) := by
  intro w inside entered
  rw [List.mem_append, List.mem_reverse, mem_ready]
  by_cases edge : g.Adj v w
  · exact .inr (.inl ⟨edge, entered⟩)
  · have before : ∀ u, g.Adj u w → u ∈ met := fun u edge' =>
      (List.mem_cons.mp (entered u edge')).resolve_left fun same => edge (same ▸ edge')
    rcases due w inside before with member | member
    · exact .inl (List.mem_cons_of_mem v member)
    · rcases List.mem_cons.mp member with rfl | member
      · exact .inl List.mem_cons_self
      · exact .inr (.inr member)

theorem AllDue.skip {g : Digraph α} {v : Nat} {met stack : List Nat} (old : v ∈ met)
    (due : g.AllDue met (v :: stack)) : g.AllDue met stack := by
  intro w inside entered
  rcases due w inside entered with member | member
  · exact .inl member
  · rcases List.mem_cons.mp member with rfl | member
    · exact .inl old
    · exact .inr member

/-- With steps enough, the vertices that come off the stack leave no vertex due. -/
theorem takeReady_closed {g : Digraph α} (steps : Nat) {stack met : List Nat}
    (enough : stack.length + g.edges.countP (fun e : Edge => e.1 ∉ met) ≤ steps)
    (due : g.AllDue met stack) {w : Nat} (inside : w < g.size)
    (entered : ∀ u, g.Adj u w → u ∈ met ∨ u ∈ g.takeReady steps stack met) :
    w ∈ met ∨ w ∈ g.takeReady steps stack met := by
  induction steps generalizing stack met with
  | zero =>
    obtain rfl := List.length_eq_zero_iff.mp (show stack.length = 0 by omega)
    exact due w inside fun u edge => (entered u edge).resolve_right List.not_mem_nil
  | succ steps ih =>
    cases stack with
    | nil => exact due w inside fun u edge => (entered u edge).resolve_right List.not_mem_nil
    | cons v stack =>
      rw [List.length_cons] at enough
      unfold takeReady at entered ⊢
      by_cases old : met.contains v = true
      · rw [if_pos old] at entered ⊢
        exact ih (by omega) (due.skip (List.contains_iff_mem.mp old)) entered
      · rw [if_neg old] at entered ⊢
        rw [List.contains_iff_mem] at old
        simp only [List.mem_cons, or_left_comm, ← or_assoc] at entered ⊢
        have fewer := countP_not_mem_cons (fun e : Edge => e.1) old g.edges
        rw [← outDegree_eq_countP] at fewer
        have pushed := length_ready_le g (v :: met) v
        have closed := ih (by rw [List.length_append, List.length_reverse]; omega) due.visit
          fun u edge => by rw [List.mem_cons]; exact entered u edge
        rwa [List.mem_cons] at closed

theorem executionOrder_inOrder {g : Digraph α} (wf : g.WellFormed) :
    g.InOrder [] g.executionOrder := by
  refine takeReady_inOrder wf _ fun w member => ?_
  obtain ⟨inside, none⟩ := (mem_roots g w).mp (List.mem_reverse.mp member)
  refine ⟨inside, fun u edge => ?_⟩
  have entered := (mem_predecessors g w u).mpr edge
  rw [none] at entered
  exact entered

/-- A vertex has its turn once, and after all its predecessors. -/
theorem due_of_executionOrder {g : Digraph α} (wf : g.WellFormed) {before after : List Nat} {v : Nat}
    (order : g.executionOrder = before ++ v :: after) :
    v < g.size ∧ v ∉ before.reverse ∧ ∀ u, g.Adj u v → u ∈ before.reverse := by
  have ordered := executionOrder_inOrder wf
  rw [order] at ordered
  have turns := ordered.of_append
  rw [List.append_nil] at turns
  obtain ⟨inside, new, entered, -⟩ := turns
  exact ⟨inside, new, entered⟩

/-- The order of execution of a graph without cycles meets every vertex: one of the least rank among
those that it leaves out would have none of its predecessors left out. -/
theorem mem_executionOrder {g : Digraph α} (wf : g.WellFormed) (acyclic : g.Acyclic) {v : Nat}
    (inside : v < g.size) : v ∈ g.executionOrder := by
  have closed : ∀ w, w < g.size → (∀ u, g.Adj u w → u ∈ g.executionOrder) →
      w ∈ g.executionOrder := by
    intro w inside entered
    refine (takeReady_closed (g.pushes + 1) ?_ ?_ inside ?_).resolve_left List.not_mem_nil
    · have roots : g.roots.length ≤ g.size := by
        unfold roots
        exact Nat.le_trans (List.length_filter_le _ _) (Nat.le_of_eq List.length_range)
      have edges := List.countP_le_length (p := fun e : Edge => decide (e.1 ∉ ([] : List Nat)))
        (l := g.edges)
      rw [List.length_reverse, pushes]
      omega
    · intro w inside none
      refine .inr (List.mem_reverse.mpr ((mem_roots g w).mpr ⟨inside, ?_⟩))
      rw [List.eq_nil_iff_forall_not_mem]
      exact fun u member => List.not_mem_nil (none u ((mem_predecessors g w u).mp member))
    · exact fun u edge => .inr (entered u edge)
  obtain ⟨rank, ranked⟩ := acyclic.exists_ranking wf
  induction below : rank v using Nat.strong_induction_on generalizing v with
  | _ n ih =>
    refine closed v inside fun u edge => ih (rank u) ?_ (wf.inside u v edge).1 rfl
    rw [← below]
    exact ranked u v edge

/-! ## All orders -/

/-- An order of all vertices, each after its predecessors. -/
structure Topological (g : Digraph α) (order : List Nat) : Prop where
  ordered : g.InOrder [] order
  complete : ∀ v < g.size, v ∈ order

theorem topological_executionOrder {g : Digraph α} (wf : g.WellFormed) (acyclic : g.Acyclic) :
    g.Topological g.executionOrder where
  ordered := executionOrder_inOrder wf
  complete _ inside := mem_executionOrder wf acyclic inside

theorem Topological.perm_range {g : Digraph α} {order : List Nat} (topological : g.Topological order) :
    order.Perm (List.range g.size) := by
  refine (List.perm_ext_iff_of_nodup topological.ordered.nodup List.nodup_range).mpr fun v => ?_
  rw [List.mem_range]
  exact ⟨topological.ordered.inside v, topological.complete v⟩

/-- Along an edge, the order of execution goes on. -/
theorem idxOf_executionOrder_lt {g : Digraph α} (wf : g.WellFormed) (acyclic : g.Acyclic)
    {u v : Nat} (edge : g.Adj u v) :
    g.executionOrder.idxOf u < g.executionOrder.idxOf v := by
  have inside := (wf.inside u v edge).2
  obtain ⟨before, after, split⟩ := List.append_of_mem (mem_executionOrder wf acyclic inside)
  obtain ⟨-, new, entered⟩ := due_of_executionOrder wf split
  have earlier := List.mem_reverse.mp (entered u edge)
  rw [List.mem_reverse] at new
  rw [split, List.idxOf_append_of_mem earlier, List.idxOf_append_of_notMem new,
    List.idxOf_cons_self]
  exact List.idxOf_lt_length_of_mem earlier

end Digraph

end LayerNet
