import LayerNet.Digraph.Order
import LayerNet.Proofs.Digraph.Acyclic

/-!
# The search for cycles — it finds a vertex exactly when there is a cycle

`cycleVertex?` searches along the edges, lists the vertices by the end of their search, and then
searches against the edges. Two facts about the first search carry the argument.

* Whatever the graph, the bound on the number of steps suffices, and every vertex is finished
  (`mem_finished`). So if no second search meets two vertices, every predecessor of a vertex stands
  before it in the list of finished vertices, and the place in that list is a rank
  (`ranking_of_secondMet_eq_none`).
* In an acyclic graph a vertex is finished after all its successors (`finished_ordered`), so a
  second search finds all predecessors met before (`secondMet_eq_none_of_ordered`).

A loop at a vertex is not met by these searches: the statement is about graphs without loops.
-/

namespace LayerNet

namespace Digraph

variable {α : Type}

/-! ## What is left to meet -/

/-- What a search has left to meet: the vertices that it has not met, and the edges that leave
them. Every vertex that is met for the first time uses up itself and its edges. -/
def unmet (g : Digraph α) (met : List Nat) : Nat :=
  (List.range g.size).countP (fun v => v ∉ met) + g.edges.countP (fun e : Edge => e.1 ∉ met)

/-- Elements that are not in a longer list, and those that are its new head, are the elements that
are not in the list. -/
theorem countP_not_mem_cons {β : Type} (f : β → Nat) {v : Nat} {met : List Nat} (new : v ∉ met)
    (l : List β) :
    l.countP (fun x => f x ∉ v :: met) + l.countP (fun x => f x = v)
      = l.countP (fun x => f x ∉ met) := by
  induction l with
  | nil => rfl
  | cons x l ih =>
    simp only [List.countP_cons, List.mem_cons, not_or, decide_eq_true_eq] at ih ⊢
    by_cases same : f x = v
    · simp only [same, new, not_true_eq_false, false_and, not_false_eq_true, if_true, if_false]
        at ih ⊢
      omega
    · by_cases old : f x ∈ met <;> simp only [same, old] at ih ⊢ <;> simp at ih ⊢ <;> omega

/-- Meeting a vertex uses up the vertex and the edges that leave it. -/
theorem unmet_cons {g : Digraph α} {v : Nat} (inside : v < g.size) {met : List Nat}
    (new : v ∉ met) : g.unmet (v :: met) + g.outDegree v + 1 ≤ g.unmet met := by
  have vertices := countP_not_mem_cons id new (List.range g.size)
  have edges := countP_not_mem_cons (fun e : Edge => e.1) new g.edges
  have one : 0 < (List.range g.size).countP fun x => id x = v :=
    List.countP_pos_iff.mpr ⟨v, List.mem_range.mpr inside, by simp⟩
  rw [outDegree_eq_countP]
  unfold unmet
  simp only [id] at vertices one
  beta_reduce at edges
  omega

/-- At no time is there more left than the vertices and the edges of the graph. -/
theorem unmet_le_pushes (g : Digraph α) (met : List Nat) : g.unmet met ≤ g.pushes := by
  have vertices := List.countP_le_length (p := fun v => decide (v ∉ met)) (l := List.range g.size)
  have edges := List.countP_le_length (p := fun e : Edge => decide (e.1 ∉ met)) (l := g.edges)
  rw [List.length_range] at vertices
  unfold unmet pushes
  omega

/-! ## The search along the edges -/

namespace Search

/-- The search after a vertex on top of the stack that was discovered before: it is finished. -/
def finish (s : Search) (v : Nat) (rest : List Nat) : Search :=
  { s with
    stack := rest
    finished := if s.finished.contains v then s.finished else v :: s.finished }

/-- The successors of a vertex that are not discovered when the vertex is. -/
def fresh (g : Digraph α) (s : Search) (v : Nat) : List Nat :=
  ((g.successors v).filter fun w => !(v :: s.discovered).contains w).reverse

/-- The search after a vertex on top of the stack that was not discovered before. -/
def discover (g : Digraph α) (s : Search) (v : Nat) : Search :=
  { s with stack := fresh g s v ++ s.stack, discovered := v :: s.discovered }

@[simp] theorem mem_finished_finish (s : Search) (v : Nat) (rest : List Nat) (w : Nat) :
    w ∈ (s.finish v rest).finished ↔ w = v ∨ w ∈ s.finished := by
  unfold finish
  by_cases old : v ∈ s.finished
  · simp only [List.contains_iff_mem, old, if_true]
    exact ⟨.inr, fun member => member.elim (fun same => same ▸ old) id⟩
  · simp only [List.contains_iff_mem, old, if_false, List.mem_cons]

@[simp] theorem mem_fresh (g : Digraph α) (s : Search) (v w : Nat) :
    w ∈ fresh g s v ↔ g.Adj v w ∧ w ≠ v ∧ w ∉ s.discovered := by
  simp [fresh, Adj]

theorem length_fresh_le (g : Digraph α) (s : Search) (v : Nat) :
    (fresh g s v).length ≤ g.outDegree v := by
  rw [fresh, List.length_reverse]
  exact List.length_filter_le _ _

end Search

theorem searchAlong_nil (g : Digraph α) (steps : Nat) {s : Search} (empty : s.stack = []) :
    g.searchAlong steps s = s := by
  cases steps with
  | zero => rfl
  | succ steps => simp only [searchAlong, empty]

theorem searchAlong_finish (g : Digraph α) (steps : Nat) {s : Search} {v : Nat} {rest : List Nat}
    (top : s.stack = v :: rest) (old : v ∈ s.discovered) :
    g.searchAlong (steps + 1) s = g.searchAlong steps (s.finish v rest) := by
  simp only [searchAlong, top, List.contains_iff_mem, old, if_true, Search.finish]

theorem searchAlong_discover (g : Digraph α) (steps : Nat) {s : Search} {v : Nat} {rest : List Nat}
    (top : s.stack = v :: rest) (new : v ∉ s.discovered) :
    g.searchAlong (steps + 1) s = g.searchAlong steps (s.discover g v) := by
  simp only [searchAlong, top, List.contains_iff_mem, new, if_false, Search.discover, Search.fresh]

/-- What holds of a search along the edges at any time, whatever the graph. -/
structure Search.Sound (g : Digraph α) (s : Search) : Prop where
  /-- Only vertices of the graph are on the stack. -/
  inside : ∀ v ∈ s.stack, v < g.size
  /-- A discovered vertex is finished, or it is still on the stack. -/
  pending : ∀ v ∈ s.discovered, v ∈ s.finished ∨ v ∈ s.stack

namespace Search.Sound

variable {g : Digraph α} {s : Search}

/-- Finishing a vertex keeps a search sound. -/
theorem finish (sound : s.Sound g) {v : Nat} {rest : List Nat} (top : s.stack = v :: rest) :
    (s.finish v rest).Sound g where
  inside w member := sound.inside w (top ▸ List.mem_cons_of_mem v member)
  pending w discovered := by
    rw [mem_finished_finish]
    rcases sound.pending w discovered with finished | stacked
    · exact .inl (.inr finished)
    · rw [top] at stacked
      rcases List.mem_cons.mp stacked with same | below
      · exact .inl (.inl same)
      · exact .inr below

/-- Discovering a vertex keeps a search sound. -/
theorem discover (wf : g.WellFormed) (sound : s.Sound g) {v : Nat} {rest : List Nat}
    (top : s.stack = v :: rest) : (s.discover g v).Sound g where
  inside w member := by
    rcases List.mem_append.mp member with pushed | old
    · exact (wf.inside v w ((mem_fresh g s v w).mp pushed).1).2
    · exact sound.inside w old
  pending w discovered := by
    rcases List.mem_cons.mp discovered with rfl | old
    · exact .inr (List.mem_append_right _ (top ▸ List.mem_cons_self))
    · exact (sound.pending w old).imp_right (List.mem_append_right _)

end Search.Sound

/-- The steps that a search has left to take at most. -/
def todo (g : Digraph α) (s : Search) : Nat := s.stack.length + g.unmet s.discovered

theorem todo_finish (g : Digraph α) {s : Search} {v : Nat} {rest : List Nat}
    (top : s.stack = v :: rest) : g.todo (s.finish v rest) + 1 = g.todo s := by
  simp only [todo, Search.finish, top, List.length_cons]
  omega

theorem todo_discover {g : Digraph α} {s : Search} {v : Nat} (inside : v < g.size)
    (new : v ∉ s.discovered) : g.todo (s.discover g v) + 1 ≤ g.todo s := by
  have used := unmet_cons inside new
  have pushed := Search.length_fresh_le g s v
  simp only [todo, Search.discover, List.length_append]
  omega

/-- A search with enough steps runs until its stack is empty. What its steps keep, it keeps, and it
discovers everything that was on the stack. -/
theorem searchAlong_spec {g : Digraph α} (wf : g.WellFormed) {P : Search → Prop}
    (finish : ∀ s v rest, s.Sound g → s.stack = v :: rest → v ∈ s.discovered → P s →
      P (s.finish v rest))
    (discover : ∀ s v rest, s.Sound g → s.stack = v :: rest → v ∉ s.discovered → P s →
      P (s.discover g v))
    (steps : Nat) {s : Search} (sound : s.Sound g) (kept : P s) (enough : g.todo s ≤ steps) :
    (g.searchAlong steps s).Sound g ∧ P (g.searchAlong steps s)
      ∧ (g.searchAlong steps s).stack = []
      ∧ (∀ v ∈ s.discovered, v ∈ (g.searchAlong steps s).discovered)
      ∧ ∀ v ∈ s.stack, v ∈ (g.searchAlong steps s).discovered := by
  induction steps generalizing s with
  | zero =>
    have empty : s.stack = [] := List.eq_nil_of_length_eq_zero (by unfold todo at enough; omega)
    exact ⟨sound, kept, empty, fun _ => id, fun v member => absurd member (by simp [empty])⟩
  | succ steps ih =>
    cases top : s.stack with
    | nil =>
      rw [searchAlong_nil g _ top]
      exact ⟨sound, kept, top, fun _ => id, fun v member => absurd member List.not_mem_nil⟩
    | cons v rest =>
      by_cases old : v ∈ s.discovered
      · have fewer := todo_finish g top
        obtain ⟨sound', kept', empty, grown, stacked⟩ :=
          ih (sound.finish top) (finish s v rest sound top old kept) (by omega)
        rw [searchAlong_finish g steps top old]
        refine ⟨sound', kept', empty, grown, fun w member => ?_⟩
        rcases List.mem_cons.mp member with rfl | below
        · exact grown w old
        · exact stacked w below
      · have inside := sound.inside v (top ▸ List.mem_cons_self)
        have fewer := todo_discover inside old
        obtain ⟨sound', kept', empty, grown, stacked⟩ :=
          ih (sound.discover wf top) (discover s v rest sound top old kept) (by omega)
        rw [searchAlong_discover g steps top old]
        refine ⟨sound', kept', empty, fun w member => grown w (List.mem_cons_of_mem v member), ?_⟩
        intro w member
        rcases List.mem_cons.mp member with rfl | below
        · exact grown w List.mem_cons_self
        · exact stacked w (List.mem_append_right _ (top ▸ List.mem_cons_of_mem v below))

/-! ## Every vertex is finished -/

/-- One round of the search: from a vertex that no round before has discovered. -/
def round (g : Digraph α) (s : Search) (v : Nat) : Search :=
  if s.discovered.contains v then s
  else g.searchAlong (2 * g.pushes + 1) { s with stack := [v] }

theorem finished_eq_foldl (g : Digraph α) :
    g.finished = ((List.range g.size).foldl g.round ⟨[], [], []⟩).finished := rfl

/-- Rounds from vertices of the graph keep what their steps keep, and discover the vertices that
they start from. -/
theorem rounds_spec {g : Digraph α} (wf : g.WellFormed) {P : Search → Prop}
    (start : ∀ s v, P s → s.stack = [] → P { s with stack := [v] })
    (finish : ∀ s v rest, s.Sound g → s.stack = v :: rest → v ∈ s.discovered → P s →
      P (s.finish v rest))
    (discover : ∀ s v rest, s.Sound g → s.stack = v :: rest → v ∉ s.discovered → P s →
      P (s.discover g v))
    (vs : List Nat) (inside : ∀ v ∈ vs, v < g.size) {s : Search} (sound : s.Sound g)
    (empty : s.stack = []) (kept : P s) :
    (vs.foldl g.round s).Sound g ∧ P (vs.foldl g.round s) ∧ (vs.foldl g.round s).stack = []
      ∧ (∀ v ∈ s.discovered, v ∈ (vs.foldl g.round s).discovered)
      ∧ ∀ v ∈ vs, v ∈ (vs.foldl g.round s).discovered := by
  induction vs generalizing s with
  | nil => exact ⟨sound, kept, empty, fun _ => id, fun v member => absurd member List.not_mem_nil⟩
  | cons v vs ih =>
    have inside' : ∀ w ∈ vs, w < g.size := fun w member => inside w (List.mem_cons_of_mem v member)
    rw [List.foldl_cons]
    by_cases old : v ∈ s.discovered
    · have skipped : g.round s v = s := by
        simp only [round, List.contains_iff_mem, old, if_true]
      rw [skipped]
      obtain ⟨sound', kept', empty', grown, started⟩ := ih inside' sound empty kept
      refine ⟨sound', kept', empty', grown, fun w member => ?_⟩
      rcases List.mem_cons.mp member with rfl | later
      · exact grown w old
      · exact started w later
    · have taken : g.round s v = g.searchAlong (2 * g.pushes + 1) { s with stack := [v] } := by
        simp only [round, List.contains_iff_mem, old, if_false]
      rw [taken]
      have sound₀ : Search.Sound g { s with stack := [v] } :=
        { inside := by simpa using inside v List.mem_cons_self
          pending := fun w member =>
            (sound.pending w member).imp_right fun stacked => by simp [empty] at stacked }
      have enough : g.todo { s with stack := [v] } ≤ 2 * g.pushes + 1 := by
        have bound := g.unmet_le_pushes s.discovered
        simp only [todo, List.length_singleton]
        omega
      obtain ⟨sound₁, kept₁, empty₁, grown₁, stacked₁⟩ :=
        searchAlong_spec wf finish discover _ sound₀ (start s v kept empty) enough
      obtain ⟨sound', kept', empty', grown, started⟩ := ih inside' sound₁ empty₁ kept₁
      refine ⟨sound', kept', empty', fun w member => grown w (grown₁ w member), fun w member => ?_⟩
      rcases List.mem_cons.mp member with rfl | later
      · exact grown w (stacked₁ w List.mem_cons_self)
      · exact started w later

/-- The search that no step has been taken in is sound. -/
theorem Search.sound_start (g : Digraph α) : Search.Sound g ⟨[], [], []⟩ where
  inside _ member := absurd member List.not_mem_nil
  pending _ member := absurd member List.not_mem_nil

/-- Every vertex is finished, cycles or not. -/
theorem mem_finished {g : Digraph α} (wf : g.WellFormed) {v : Nat} (inside : v < g.size) :
    v ∈ g.finished := by
  obtain ⟨sound, -, empty, -, started⟩ := rounds_spec wf (P := fun _ => True)
    (fun _ _ _ _ => trivial) (fun _ _ _ _ _ _ _ => trivial) (fun _ _ _ _ _ _ _ => trivial)
    (List.range g.size) (fun v member => List.mem_range.mp member) (Search.sound_start g) rfl
    trivial
  rw [finished_eq_foldl]
  rcases sound.pending v (started v (List.mem_range.mpr inside)) with finished | stacked
  · exact finished
  · rw [empty] at stacked
    exact absurd stacked List.not_mem_nil

/-! ## In an acyclic graph, after all its successors -/

/-- What holds of a search along the edges of an acyclic graph: successors are finished first, and
the vertices that are discovered but not finished lie below what they have still to search. -/
structure Search.Ordered (g : Digraph α) (s : Search) : Prop where
  /-- The successors of a finished vertex are finished. -/
  closed : ∀ v ∈ s.finished, ∀ w, g.Adj v w → w ∈ s.finished
  /-- No edge leads from a vertex to one that was finished after it. -/
  sorted : s.finished.Pairwise fun x y => ¬ g.Adj y x
  /-- Above a vertex in progress are vertices that it reaches, its unfinished successors among
  them. -/
  path : ∀ v ∈ s.discovered, v ∉ s.finished → ∃ above below, s.stack = above ++ v :: below
    ∧ (∀ x ∈ above, Relation.TransGen g.Adj v x) ∧ ∀ w, g.Adj v w → w ∈ s.finished ∨ w ∈ above

namespace Search.Ordered

variable {g : Digraph α} {s : Search}

/-- The vertex on top of the stack, if it is in progress, has all its successors finished: there is
nothing above it. -/
theorem successors_finished (ordered : s.Ordered g) (acyclic : g.Acyclic) {v : Nat}
    {rest : List Nat} (top : s.stack = v :: rest) (old : v ∈ s.discovered) {w : Nat}
    (edge : g.Adj v w) : w ∈ s.finished := by
  by_cases finished : v ∈ s.finished
  · exact ordered.closed v finished w edge
  · obtain ⟨above, below, stack, reached, successors⟩ := ordered.path v old finished
    cases above with
    | nil => exact (successors w edge).resolve_right List.not_mem_nil
    | cons x above =>
      obtain ⟨rfl, -⟩ := List.cons.inj (top.symm.trans stack)
      exact absurd (reached v List.mem_cons_self) (acyclic v)

/-- A vertex in progress that is not on top lies below the top. -/
theorem path_tail (ordered : s.Ordered g) {v : Nat} {rest : List Nat} (top : s.stack = v :: rest)
    {u : Nat} (discovered : u ∈ s.discovered) (unfinished : u ∉ s.finished) (other : u ≠ v) :
    ∃ above below, rest = above ++ u :: below ∧ Relation.TransGen g.Adj u v
      ∧ (∀ x ∈ above, Relation.TransGen g.Adj u x)
      ∧ ∀ w, g.Adj u w → w ∈ s.finished ∨ w = v ∨ w ∈ above := by
  obtain ⟨above, below, stack, reached, successors⟩ := ordered.path u discovered unfinished
  cases above with
  | nil => exact absurd (List.cons.inj (top.symm.trans stack)).1.symm other
  | cons x above =>
    obtain ⟨rfl, rfl⟩ := List.cons.inj (top.symm.trans stack)
    refine ⟨above, below, rfl, reached v List.mem_cons_self,
      fun x member => reached x (List.mem_cons_of_mem v member), fun w edge => ?_⟩
    exact (successors w edge).imp_right List.mem_cons.mp

/-- Finishing a vertex keeps the order. -/
theorem finish (ordered : s.Ordered g) (acyclic : g.Acyclic) {v : Nat} {rest : List Nat}
    (top : s.stack = v :: rest) (old : v ∈ s.discovered) : (s.finish v rest).Ordered g where
  closed u finished w edge := by
    rw [mem_finished_finish] at finished ⊢
    rcases finished with rfl | finished
    · exact .inr (ordered.successors_finished acyclic top old edge)
    · exact .inr (ordered.closed u finished w edge)
  sorted := by
    unfold Search.finish
    by_cases finished : v ∈ s.finished
    · simpa only [List.contains_iff_mem, finished, if_true] using ordered.sorted
    · simp only [List.contains_iff_mem, finished, if_false, List.pairwise_cons]
      exact ⟨fun y member edge => finished (ordered.closed y member v edge), ordered.sorted⟩
  path u discovered unfinished := by
    rw [mem_finished_finish, not_or] at unfinished
    obtain ⟨above, below, stack, -, reached, successors⟩ :=
      ordered.path_tail top discovered unfinished.2 unfinished.1
    refine ⟨above, below, stack, reached, fun w edge => ?_⟩
    rw [mem_finished_finish]
    rcases successors w edge with finished | same | member
    · exact .inl (.inr finished)
    · exact .inl (.inl same)
    · exact .inr member

/-- Discovering a vertex keeps the order: a successor in progress would reach the vertex, so all
successors that were discovered before are finished. -/
theorem discover (ordered : s.Ordered g) (acyclic : g.Acyclic) {v : Nat} {rest : List Nat}
    (top : s.stack = v :: rest) (new : v ∉ s.discovered) : (s.discover g v).Ordered g where
  closed := ordered.closed
  sorted := ordered.sorted
  path u discovered unfinished := by
    have pushed : (s.discover g v).stack = Search.fresh g s v ++ v :: rest := by
      rw [← top]
      rfl
    rcases List.mem_cons.mp discovered with rfl | discovered
    · refine ⟨Search.fresh g s u, rest, pushed, fun x member => ?_, fun w edge => ?_⟩
      · exact .single ((mem_fresh g s u x).mp member).1
      · by_cases old : w ∈ s.discovered
        · by_cases finished : w ∈ s.finished
          · exact .inl finished
          · have other : w ≠ u := fun same => new (same ▸ old)
            obtain ⟨-, -, -, back, -⟩ := ordered.path_tail top old finished other
            exact absurd (back.tail edge) (acyclic w)
        · have other : w ≠ u := fun same => acyclic u (.single (same ▸ edge))
          exact .inr ((mem_fresh g s u w).mpr ⟨edge, other, old⟩)
    · have other : u ≠ v := fun same => new (same ▸ discovered)
      obtain ⟨above, below, stack, reaches, reached, successors⟩ :=
        ordered.path_tail top discovered unfinished other
      refine ⟨Search.fresh g s v ++ v :: above, below, ?_, fun x member => ?_, fun w edge => ?_⟩
      · rw [pushed, stack, List.append_assoc, List.cons_append]
      · rcases List.mem_append.mp member with fresh | member
        · exact reaches.tail ((mem_fresh g s v x).mp fresh).1
        · rcases List.mem_cons.mp member with rfl | member
          · exact reaches
          · exact reached x member
      · rcases successors w edge with finished | same | member
        · exact .inl finished
        · exact .inr (List.mem_append_right _ (same ▸ List.mem_cons_self))
        · exact .inr (List.mem_append_right _ (List.mem_cons_of_mem v member))

end Search.Ordered

/-- In an acyclic graph no edge leads from a vertex to one that stands before it in the list of
finished vertices. -/
theorem finished_ordered {g : Digraph α} (wf : g.WellFormed) (acyclic : g.Acyclic) :
    g.finished.Pairwise fun x y => ¬ g.Adj y x := by
  have start (s : Search) (v : Nat) (ordered : s.Ordered g) (empty : s.stack = []) :
      Search.Ordered g { s with stack := [v] } :=
    { closed := ordered.closed
      sorted := ordered.sorted
      path := fun u discovered unfinished => by
        obtain ⟨above, below, stack, -⟩ := ordered.path u discovered unfinished
        rw [empty] at stack
        exact absurd stack.symm (by simp) }
  have none : Search.Ordered g ⟨[], [], []⟩ :=
    { closed := fun _ member => absurd member List.not_mem_nil
      sorted := List.Pairwise.nil
      path := fun _ member => absurd member List.not_mem_nil }
  obtain ⟨-, ordered, -⟩ := rounds_spec wf (P := Search.Ordered g) start
    (fun s v rest _ top old ordered => ordered.finish acyclic top old)
    (fun s v rest _ top new ordered => ordered.discover acyclic top new)
    (List.range g.size) (fun v member => List.mem_range.mp member) (Search.sound_start g) rfl none
  exact ordered.sorted

/-! ## The searches against the edges -/

/-- A search from a vertex that was met before meets nothing. -/
theorem searchAgainst_of_mem (g : Digraph α) (steps : Nat) {v : Nat} {discovered : List Nat}
    (old : v ∈ discovered) : g.searchAgainst (steps + 2) [v] discovered = [] := by
  simp only [searchAgainst, List.contains_iff_mem, old, if_true]

/-- A search from a new vertex meets the vertex; it meets nothing else exactly when all other
predecessors of the vertex were met before. -/
theorem searchAgainst_of_not_mem (g : Digraph α) (steps : Nat) {v : Nat} {discovered : List Nat}
    (new : v ∉ discovered) :
    ((∀ u, g.Adj u v → u = v ∨ u ∈ discovered) ∧ g.searchAgainst (steps + 2) [v] discovered = [v])
      ∨ ((¬ ∀ u, g.Adj u v → u = v ∨ u ∈ discovered)
        ∧ ∃ w rest, g.searchAgainst (steps + 2) [v] discovered = v :: w :: rest) := by
  have search : g.searchAgainst (steps + 2) [v] discovered
      = v :: g.searchAgainst (steps + 1)
        (((g.predecessors v).filter fun w => !(v :: discovered).contains w).reverse ++ [])
        (v :: discovered) := by
    simp only [searchAgainst, List.contains_iff_mem, new, if_false]
  rw [search, List.append_nil]
  generalize stack :
    ((g.predecessors v).filter fun w => !(v :: discovered).contains w).reverse = fresh
  have mem_fresh (u : Nat) : u ∈ fresh ↔ g.Adj u v ∧ ¬ (u = v ∨ u ∈ discovered) := by
    rw [← stack]
    simp [Adj]
  cases fresh with
  | nil =>
    refine .inl ⟨fun u edge => ?_, by simp only [searchAgainst]⟩
    by_contra unmet
    exact absurd ((mem_fresh u).mpr ⟨edge, unmet⟩) List.not_mem_nil
  | cons w fresh =>
    obtain ⟨edge, unmet⟩ := (mem_fresh w).mp List.mem_cons_self
    refine .inr ⟨fun all => unmet (all w edge), w, ?_⟩
    have new' : w ∉ v :: discovered := fun member => unmet (List.mem_cons.mp member)
    simp only [searchAgainst, List.contains_iff_mem, new', if_false, List.cons.injEq, true_and]
    exact ⟨_, rfl⟩

/-- If no search meets two vertices, all predecessors of a vertex were met before it. -/
theorem idxOf_lt_of_secondMet_eq_none {g : Digraph α} (inhabited : 0 < g.size) (vs : List Nat)
    {discovered : List Nat} (none : g.secondMet discovered vs = none) {v : Nat} (member : v ∈ vs)
    (new : v ∉ discovered) {u : Nat} (edge : g.Adj u v) (other : u ≠ v) :
    u ∈ discovered ∨ vs.idxOf u < vs.idxOf v := by
  obtain ⟨steps, bound⟩ : ∃ steps, g.pushes + 1 = steps + 2 :=
    ⟨g.pushes - 1, by unfold pushes; omega⟩
  induction vs generalizing discovered with
  | nil => exact absurd member List.not_mem_nil
  | cons x vs ih =>
    -- a predecessor later in the list stays before the vertex when the list is longer by its head
    have shift (ne : v ≠ x) (before : u = x ∨ vs.idxOf u < vs.idxOf v) :
        (x :: vs).idxOf u < (x :: vs).idxOf v := by
      rw [List.idxOf_cons_ne _ (Ne.symm ne)]
      by_cases same : u = x
      · rw [same, List.idxOf_cons_self]
        omega
      · rw [List.idxOf_cons_ne _ (Ne.symm same)]
        have := before.resolve_left same
        omega
    unfold secondMet at none
    rw [bound] at none
    by_cases old : x ∈ discovered
    · have ne : v ≠ x := fun same => new (same ▸ old)
      rw [searchAgainst_of_mem g steps old] at none
      have member' := (List.mem_cons.mp member).resolve_left ne
      exact (ih none member' new).imp_right fun before => shift ne (.inr before)
    · rcases searchAgainst_of_not_mem g steps old with ⟨all, met⟩ | ⟨-, w, rest, met⟩
      · rw [met] at none
        by_cases same : v = x
        · exact .inl ((all u (same ▸ edge)).resolve_left fun eq => other (eq.trans same.symm))
        · have member' := (List.mem_cons.mp member).resolve_left same
          have new' : v ∉ [x] ++ discovered := by simp [same, new]
          rcases ih none member' new' with met' | before
          · rcases List.mem_cons.mp met' with eq | met'
            · exact .inr (shift same (.inl eq))
            · exact .inl met'
          · exact .inr (shift same (.inr before))
      · rw [met] at none
        exact absurd none (by simp)

/-- In an order in which edges lead forward, no search meets two vertices. -/
theorem secondMet_eq_none_of_ordered {g : Digraph α} (inhabited : 0 < g.size) (vs : List Nat)
    (ordered : vs.Pairwise fun x y => ¬ g.Adj y x) {discovered : List Nat}
    (complete : ∀ u v, v ∈ vs → g.Adj u v → u ∈ discovered ∨ u ∈ vs) :
    g.secondMet discovered vs = none := by
  obtain ⟨steps, bound⟩ : ∃ steps, g.pushes + 1 = steps + 2 :=
    ⟨g.pushes - 1, by unfold pushes; omega⟩
  induction vs generalizing discovered with
  | nil => rfl
  | cons x vs ih =>
    obtain ⟨first, ordered'⟩ := List.pairwise_cons.mp ordered
    unfold secondMet
    rw [bound]
    by_cases old : x ∈ discovered
    · rw [searchAgainst_of_mem g steps old]
      refine ih ordered' fun u v member edge => ?_
      rcases complete u v (List.mem_cons_of_mem x member) edge with met | later
      · exact .inl met
      · rcases List.mem_cons.mp later with rfl | later
        · exact .inl old
        · exact .inr later
    · rcases searchAgainst_of_not_mem g steps old with ⟨-, met⟩ | ⟨missing, -⟩
      · rw [met]
        refine ih ordered' fun u v member edge => ?_
        rcases complete u v (List.mem_cons_of_mem x member) edge with met | later
        · exact .inl (List.mem_cons_of_mem x met)
        · rcases List.mem_cons.mp later with rfl | later
          · exact .inl List.mem_cons_self
          · exact .inr later
      · refine absurd (fun u edge => ?_) missing
        rcases complete u x List.mem_cons_self edge with met | later
        · exact .inr met
        · rcases List.mem_cons.mp later with same | later
          · exact .inl same
          · exact absurd edge (first u later)

/-! ## The theorem -/

/-- The search for a vertex on a cycle finds none exactly when the graph is acyclic. -/
theorem cycleVertex?_eq_none_iff {g : Digraph α} (wf : g.WellFormed) :
    g.cycleVertex? = none ↔ g.Acyclic := by
  rcases Nat.eq_zero_or_pos g.size with empty | inhabited
  · have nothing : g.finished = [] := by rw [finished_eq_foldl, empty]; rfl
    refine ⟨fun _ v cycle => ?_, fun _ => by rw [cycleVertex?, nothing]; rfl⟩
    obtain ⟨w, edge, -⟩ := Relation.TransGen.head'_iff.mp cycle
    have := (wf.inside v w edge).1
    omega
  constructor
  · intro none
    have ranked : g.Ranking g.finished.idxOf := by
      intro u v edge
      have inside := (wf.inside u v edge).2
      have other : u ≠ v := fun same => wf.loopless v (same ▸ edge)
      exact (idxOf_lt_of_secondMet_eq_none inhabited _ none (mem_finished wf inside)
        List.not_mem_nil edge other).resolve_left List.not_mem_nil
    exact ranked.acyclic
  · intro acyclic
    exact secondMet_eq_none_of_ordered inhabited _ (finished_ordered wf acyclic)
      fun u v _ edge => .inr (mem_finished wf (wf.inside u v edge).1)

end Digraph

end LayerNet
