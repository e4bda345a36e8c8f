import LayerNet.Proofs.Component.Passes
import LayerNet.Proofs.Digraph.Degree

/-!
# Normal form — what every normalized graph looks like

A normalized graph has no cycle, exactly one root, branches at splits only and merges at
concatenations only (`ComponentGraph.IsNormal`). Normalization gives such a graph for whatever was
assembled, and gives it back when it is applied again; it fails exactly on graphs with a cycle
(`normalize_assembled`).

Both insertion passes only ever make fewer vertices branch or merge that may not
(`FansOut`, `FansIn`): an insertion settles the vertex it is made for, moves no other, and adds a
vertex that may do what it does. So a pass over all vertices leaves none, and the second pass does
not undo the first.
-/

namespace LayerNet

namespace ComponentGraph

/-- A vertex branches that is no split. -/
def FansOut (c : ComponentGraph) (v : Nat) : Prop :=
  c.blueprintIs Blueprint.isSplit v = false ∧ c.graph.Branches v

/-- A vertex merges that is no concatenation. -/
def FansIn (c : ComponentGraph) (v : Nat) : Prop :=
  c.blueprintIs Blueprint.isConcat v = false ∧ c.graph.Merges v

/-- A graph that a network can run on: no cycle, no loop and no edge twice, exactly one vertex that
nothing precedes, several edges out of splits only and into concatenations only. -/
structure IsNormal (c : ComponentGraph) : Prop where
  acyclic : c.graph.Acyclic
  loopless : ∀ v, ¬ c.graph.Adj v v
  simple : c.graph.edges.Nodup
  oneRoot : ∃! v, v < c.size ∧ ∀ u, ¬ c.graph.Adj u v
  fanOut : ∀ v component, c.graph.label? v = some component → component.blueprint ≠ .split →
    c.graph.outDegree v ≤ 1
  fanIn : ∀ v component, c.graph.label? v = some component → component.blueprint ≠ .concat →
    c.graph.inDegree v ≤ 1

/-! ## One root -/

/-- After joining, the root is the new split, or the one that there was. -/
theorem hasOneRoot_joinRoots {c : ComponentGraph} (dag : c.graph.IsDag) (inhabited : 0 < c.size) :
    c.joinRoots.graph.HasOneRoot := by
  unfold joinRoots
  dsimp only
  split
  next few =>
    obtain ⟨v, member⟩ := dag.acyclic.exists_root dag.wellFormed inhabited
    refine ⟨v, (c.graph.mem_roots_iff v).mp member, fun w root => ?_⟩
    obtain ⟨only, single⟩ := List.length_eq_one_iff.mp
      (Nat.le_antisymm (Nat.le_of_lt_succ few) (List.length_pos_of_mem member))
    have member' := (c.graph.mem_roots_iff w).mpr root
    rw [single, List.mem_singleton] at member member'
    rw [member, member']
  next =>
    let g := c.graph.addVertex (c.fresh .split)
    let edges := c.graph.roots.map fun v => (c.size, v)
    show (g.addEdges edges).HasOneRoot
    have size : (g.addEdges edges).size = c.size + 1 := by
      rw [Digraph.size, Digraph.vertices_addEdges]
      exact Digraph.size_addVertex _ _
    refine ⟨c.size, ⟨by omega, fun u edge => ?_⟩, fun v isRoot => ?_⟩
    · rcases (Digraph.adj_addEdges g edges u c.size).mp edge with member | edge
      · obtain ⟨v, member, same⟩ := List.mem_map.mp member
        obtain ⟨-, rfl⟩ := Prod.mk.inj same
        exact Nat.lt_irrefl _ ((c.graph.mem_roots _).mp member).1
      · exact Nat.lt_irrefl _ (dag.wellFormed.inside u c.size edge).2
    · obtain ⟨small, alone⟩ := isRoot
      by_contra other
      have inside : v < c.graph.size :=
        Nat.lt_of_le_of_ne (Nat.le_of_lt_succ (Nat.lt_of_lt_of_eq small size)) other
      have member : v ∈ c.graph.roots := (c.graph.mem_roots_iff v).mpr
        ⟨inside, fun u edge => alone u ((Digraph.adj_addEdges g edges u v).mpr (.inr edge))⟩
      exact alone c.size ((Digraph.adj_addEdges g edges c.size v).mpr
        (.inl (List.mem_map.mpr ⟨v, member, rfl⟩)))

/-! ## What an insertion settles -/

section Insertions

variable {c : ComponentGraph} (dag : c.graph.IsDag) (v : Nat)
include dag

/-- The condition of an insertion behind a vertex. -/
theorem needsSplit_iff : (!c.blueprintIs Blueprint.isSplit v && 1 < c.graph.outDegree v) = true ↔
    c.FansOut v := by
  rw [Bool.and_eq_true, Bool.not_eq_true', decide_eq_true_eq, dag.wellFormed.one_lt_outDegree_iff]
  rfl

/-- The condition of an insertion in front of a vertex. -/
theorem needsConcat_iff :
    (!c.blueprintIs Blueprint.isConcat v && 1 < c.graph.inDegree v) = true ↔ c.FansIn v := by
  rw [Bool.and_eq_true, Bool.not_eq_true', decide_eq_true_eq, dag.wellFormed.one_lt_inDegree_iff]
  rfl

variable {v} (inside : v < c.size)
include inside

/-- A split behind a vertex settles its fan-out. The graph gets no other fan-out, no fan-in and no
other root. -/
theorem splitFanOut_spec : (∀ w, (c.splitFanOut v).FansOut w → c.FansOut w ∧ w ≠ v)
    ∧ (∀ w, (c.splitFanOut v).FansIn w → c.FansIn w)
    ∧ (c.graph.HasOneRoot → (c.splitFanOut v).graph.HasOneRoot) := by
  have wf := dag.wellFormed
  have larger := extends_splitFanOut dag (Nat.zero_le _) inside
  by_cases needed : c.FansOut v
  · have rewired : c.splitFanOut v = { c with graph := c.graph.insertAfter v (c.fresh .split) } :=
      if_pos ((needsSplit_iff dag v).mpr needed)
    rw [rewired] at larger ⊢
    refine ⟨?_, ?_, fun one => ?_⟩
    · rintro w ⟨other, branches⟩
      rcases Digraph.branches_insertAfter wf inside _ branches with rfl | ⟨moved, branches⟩
      · have label : (c.graph.insertAfter v (c.fresh .split)).label? c.graph.size
            = some (c.fresh .split) := by
          rw [Digraph.label?, Digraph.vertices_insertAfter]
          exact Array.getElem?_push_size
        rw [blueprintIs, label] at other
        cases show true = false from other
      · obtain ⟨x, y, different, edge, edge'⟩ := branches
        have same := larger.blueprintIs_eq Blueprint.isSplit (wf.inside w x edge).1
        exact ⟨⟨same ▸ other, x, y, different, edge, edge'⟩, moved⟩
    · rintro w ⟨other, merges⟩
      have merges := Digraph.merges_insertAfter wf inside _ merges
      obtain ⟨x, y, different, edge, edge'⟩ := merges
      have same := larger.blueprintIs_eq Blueprint.isConcat (wf.inside x w edge).2
      exact ⟨same ▸ other, x, y, different, edge, edge'⟩
    · exact one.insertAfter wf inside _
  · have same : c.splitFanOut v = c := if_neg (needed ∘ (needsSplit_iff dag v).mp)
    rw [same]
    exact ⟨fun w fans => ⟨fans, fun here => needed (here ▸ fans)⟩, fun _ fans => fans, id⟩

/-- A concatenation in front of a vertex settles its fan-in. The graph gets no other fan-in, no
fan-out and no other root. -/
theorem joinFanIn_spec : (∀ w, (c.joinFanIn v).FansIn w → c.FansIn w ∧ w ≠ v)
    ∧ (∀ w, (c.joinFanIn v).FansOut w → c.FansOut w)
    ∧ (c.graph.HasOneRoot → (c.joinFanIn v).graph.HasOneRoot) := by
  have wf := dag.wellFormed
  have larger := extends_joinFanIn dag (Nat.zero_le _) inside
  by_cases needed : c.FansIn v
  · have rewired : c.joinFanIn v = { c with graph := c.graph.insertBefore v (c.fresh .concat) } :=
      if_pos ((needsConcat_iff dag v).mpr needed)
    rw [rewired] at larger ⊢
    refine ⟨?_, ?_, fun one => ?_⟩
    · rintro w ⟨other, merges⟩
      rcases Digraph.merges_insertBefore wf inside _ merges with rfl | ⟨moved, merges⟩
      · have label : (c.graph.insertBefore v (c.fresh .concat)).label? c.graph.size
            = some (c.fresh .concat) := by
          rw [Digraph.label?, Digraph.vertices_insertBefore]
          exact Array.getElem?_push_size
        rw [blueprintIs, label] at other
        cases show true = false from other
      · obtain ⟨x, y, different, edge, edge'⟩ := merges
        have same := larger.blueprintIs_eq Blueprint.isConcat (wf.inside x w edge).2
        exact ⟨⟨same ▸ other, x, y, different, edge, edge'⟩, moved⟩
    · rintro w ⟨other, branches⟩
      have branches := Digraph.branches_insertBefore wf inside _ branches
      obtain ⟨x, y, different, edge, edge'⟩ := branches
      have same := larger.blueprintIs_eq Blueprint.isSplit (wf.inside w x edge).1
      exact ⟨same ▸ other, x, y, different, edge, edge'⟩
    · obtain ⟨-, x, -, -, edge, -⟩ := needed
      exact one.insertBefore wf inside _ ⟨x, edge⟩
  · have same : c.joinFanIn v = c := if_neg (needed ∘ (needsConcat_iff dag v).mp)
    rw [same]
    exact ⟨fun w fans => ⟨fans, fun here => needed (here ▸ fans)⟩, fun _ fans => fans, id⟩

end Insertions

/-! ## Whole passes -/

/-- What holds of a graph and the vertices settled so far holds after a pass, when every step keeps
it and settles its vertex. -/
theorem foldl_settles {step : ComponentGraph → Nat → ComponentGraph}
    {h : ComponentGraph → List Nat → Prop}
    (larger : ∀ b v, b.graph.IsDag → v < b.size → Extends 0 b (step b v))
    (keeps : ∀ b v settled, b.graph.IsDag → v < b.size → h b settled →
      h (step b v) (v :: settled))
    {c : ComponentGraph} (dag : c.graph.IsDag) (xs settled : List Nat)
    (inside : ∀ v ∈ xs, v < c.size) (start : h c settled) :
    h (xs.foldl step c) (xs.reverse ++ settled) := by
  induction xs generalizing c settled with
  | nil => exact start
  | cons v xs ih =>
    obtain ⟨small, inside⟩ := List.forall_mem_cons.mp inside
    have first := larger c v dag small
    rw [List.reverse_cons, List.append_assoc]
    exact ih first.dag (v :: settled)
      (fun w member => Nat.lt_of_lt_of_le (inside w member) first.size_le)
      (keeps c v settled dag small start)

/-- After a split for every vertex that needs one, none fans out, and there is one root still. -/
theorem splitAll_spec {c : ComponentGraph} (dag : c.graph.IsDag) (one : c.graph.HasOneRoot) :
    (∀ w, ¬ ((List.range c.size).foldl splitFanOut c).FansOut w)
      ∧ ((List.range c.size).foldl splitFanOut c).graph.HasOneRoot
      ∧ ∀ w, ((List.range c.size).foldl splitFanOut c).FansIn w → w < c.size := by
  obtain ⟨settled, one, old⟩ := foldl_settles
    (h := fun b settled => (∀ w, b.FansOut w → c.FansOut w ∧ w ∉ settled)
      ∧ b.graph.HasOneRoot ∧ ∀ w, b.FansIn w → c.FansIn w)
    (fun b v dag inside => extends_splitFanOut dag (Nat.zero_le _) inside)
    (fun b v settled dag inside ⟨out, one, into⟩ => by
      obtain ⟨settles, keeps, keepsOne⟩ := splitFanOut_spec dag inside
      refine ⟨fun w fans => ?_, keepsOne one, fun w fans => into w (keeps w fans)⟩
      obtain ⟨before, other⟩ := settles w fans
      obtain ⟨first, left⟩ := out w before
      rw [List.mem_cons, not_or]
      exact ⟨first, other, left⟩)
    dag (List.range c.size) [] (fun v member => List.mem_range.mp member)
    ⟨fun w fans => ⟨fans, List.not_mem_nil⟩, one, fun _ fans => fans⟩
  refine ⟨fun w fans => ?_, one, fun w fans => ?_⟩
  · obtain ⟨⟨-, x, -, -, edge, -⟩, left⟩ := settled w fans
    rw [List.append_nil, List.mem_reverse, List.mem_range] at left
    exact left (dag.wellFormed.inside w x edge).1
  · obtain ⟨-, x, -, -, edge, -⟩ := old w fans
    exact (dag.wellFormed.inside x w edge).2

/-- After a concatenation for every vertex that needs one, none fans in, none fans out that did not
before, and there is one root still. -/
theorem joinAll_spec {c : ComponentGraph} (dag : c.graph.IsDag) (one : c.graph.HasOneRoot)
    (settledOut : ∀ w, ¬ c.FansOut w) {xs : List Nat} (inside : ∀ v ∈ xs, v < c.size)
    (all : ∀ w, c.FansIn w → w ∈ xs) :
    (∀ w, ¬ (xs.foldl joinFanIn c).FansIn w) ∧ (∀ w, ¬ (xs.foldl joinFanIn c).FansOut w)
      ∧ (xs.foldl joinFanIn c).graph.HasOneRoot := by
  obtain ⟨settled, one, out⟩ := foldl_settles
    (h := fun b settled => (∀ w, b.FansIn w → c.FansIn w ∧ w ∉ settled)
      ∧ b.graph.HasOneRoot ∧ ∀ w, ¬ b.FansOut w)
    (fun b v dag inside => extends_joinFanIn dag (Nat.zero_le _) inside)
    (fun b v settled dag inside ⟨into, one, out⟩ => by
      obtain ⟨settles, keeps, keepsOne⟩ := joinFanIn_spec dag inside
      refine ⟨fun w fans => ?_, keepsOne one, fun w fans => out w (keeps w fans)⟩
      obtain ⟨before, other⟩ := settles w fans
      obtain ⟨first, left⟩ := into w before
      rw [List.mem_cons, not_or]
      exact ⟨first, other, left⟩)
    dag xs [] inside ⟨fun w fans => ⟨fans, List.not_mem_nil⟩, one, settledOut⟩
  refine ⟨fun w fans => ?_, out, one⟩
  obtain ⟨before, left⟩ := settled w fans
  rw [List.append_nil, List.mem_reverse] at left
  exact left (all w before)

/-! ## The normal form -/

/-- The passes after the closing of modules leave no exits. -/
theorem exits_of_normalize {c normal : ComponentGraph} (success : c.normalize = .ok normal) :
    normal.exits = [] := by
  have pass {step : ComponentGraph → Nat → ComponentGraph}
      (keeps : ∀ b v, (step b v).exits = b.exits) (xs : List Nat) (b : ComponentGraph) :
      (xs.foldl step b).exits = b.exits := by
    induction xs generalizing b with
    | nil => rfl
    | cons v xs ih => rw [List.foldl_cons, ih, keeps]
  have joined (b : ComponentGraph) : b.joinRoots.exits = b.exits := by
    unfold joinRoots
    dsimp only
    split <;> rfl
  obtain ⟨-, rfl⟩ := eq_of_normalize_eq_ok success
  rw [pass (fun b v => by unfold joinFanIn; split <;> rfl),
    pass (fun b v => by unfold splitFanOut; split <;> rfl), joined]
  rfl

/-- The normal form of a well-formed graph with a component has one root, and nothing in it fans out
or in that may not. -/
theorem settled_of_normalize {c normal : ComponentGraph} (wf : c.WellFormed)
    (inhabited : 0 < c.size) (success : c.normalize = .ok normal) : (∀ w, ¬ normal.FansIn w) ∧ (∀ w, ¬ normal.FansOut w)
      ∧ normal.graph.HasOneRoot := by
  obtain ⟨none, rfl⟩ := eq_of_normalize_eq_ok success
  have dag : c.graph.IsDag := ⟨wf.graph, (Digraph.cycleVertex?_eq_none_iff wf.graph).mp none⟩
  have closed := extends_closeModules dag (Nat.zero_le _) wf.exits
  have rooted := extends_joinRoots closed.dag (Nat.zero_le _)
  have one := hasOneRoot_joinRoots closed.dag (Nat.lt_of_lt_of_le inhabited closed.size_le)
  have split := extends_splitAll rooted.dag (Nat.zero_le _) fun v member => List.mem_range.mp member
  obtain ⟨out, one, old⟩ := splitAll_spec rooted.dag one
  exact joinAll_spec split.dag one out
    (fun v member => Nat.lt_of_lt_of_le (List.mem_range.mp member) split.size_le)
    fun w fans => List.mem_range.mpr (old w fans)

/-- A graph in which nothing is left to do is its own normal form. -/
theorem normalize_eq_self {c : ComponentGraph} (dag : c.graph.IsDag) (closed : c.exits = [])
    (one : c.graph.HasOneRoot) (out : ∀ w, ¬ c.FansOut w) (into : ∀ w, ¬ c.FansIn w) :
    c.normalize = .ok c := by
  have modules : c.closeModules = c := by
    unfold closeModules
    rw [closed]
    cases c
    cases closed
    rfl
  have roots : c.joinRoots = c := by
    refine if_pos (Nat.not_le.mp fun several => ?_)
    obtain ⟨x, y, different, first, second⟩ :=
      (Digraph.one_lt_length_iff (List.nodup_range.filter _)).mp several
    exact different (one.unique ((c.graph.mem_roots_iff x).mp first)
      ((c.graph.mem_roots_iff y).mp second))
  have pass {step : ComponentGraph → Nat → ComponentGraph} (still : ∀ v, step c v = c)
      (xs : List Nat) : xs.foldl step c = c := by
    induction xs with
    | nil => rfl
    | cons v xs ih => rw [List.foldl_cons, still, ih]
  have splits (v : Nat) : c.splitFanOut v = c :=
    if_neg fun needed => out v ((needsSplit_iff dag v).mp needed)
  have concats (v : Nat) : c.joinFanIn v = c :=
    if_neg fun needed => into v ((needsConcat_iff dag v).mp needed)
  unfold normalize
  rw [(Digraph.cycleVertex?_eq_none_iff dag.wellFormed).mpr dag.acyclic]
  dsimp only
  rw [modules, roots, pass splits, pass concats]

/-- A blueprint that a test is true of only is told by the test. -/
theorem blueprintIs_eq_false {c : ComponentGraph} {test : Blueprint → Bool} {b : Blueprint}
    (only : ∀ a, test a = true → a = b) {v : Nat} {component : Component}
    (label : c.graph.label? v = some component) (other : component.blueprint ≠ b) :
    c.blueprintIs test v = false := by
  rw [blueprintIs, label]
  exact Bool.eq_false_iff.mpr fun holds => other (only _ holds)

/-- What is settled is normal. -/
theorem isNormal_of_settled {c : ComponentGraph} (dag : c.graph.IsDag) (one : c.graph.HasOneRoot)
    (out : ∀ w, ¬ c.FansOut w) (into : ∀ w, ¬ c.FansIn w) : c.IsNormal where
  acyclic := dag.acyclic
  loopless := dag.wellFormed.loopless
  simple := dag.wellFormed.simple
  oneRoot := one
  fanOut v component label other := by
    refine Nat.not_lt.mp fun several => out v ⟨blueprintIs_eq_false ?_ label other, ?_⟩
    · intro a isSplit
      cases a <;> first | rfl | exact nomatch isSplit
    · exact (dag.wellFormed.one_lt_outDegree_iff v).mp several
  fanIn v component label other := by
    refine Nat.not_lt.mp fun several => into v ⟨blueprintIs_eq_false ?_ label other, ?_⟩
    · intro a isConcat
      cases a <;> first | rfl | exact nomatch isConcat
    · exact (dag.wellFormed.one_lt_inDegree_iff v).mp several

/-- The normalization of an assembled graph: it fails exactly when the graph has a cycle, and then
names a component of it; else it gives a normal graph, which is its own normal form. -/
theorem normalize_assembled {statements : List Statement} {assembled : Assembled}
    (success : assemble statements = .ok assembled) :
    ((∃ cause, assembled.components.normalize = .error cause)
        ↔ ¬ assembled.components.graph.Acyclic)
      ∧ (∀ cause, assembled.components.normalize = .error cause →
        ∃ v, cause = .cyclic (assembled.components.key v))
      ∧ ∀ normal, assembled.components.normalize = .ok normal →
        normal.IsNormal ∧ normal.normalize = .ok normal := by
  obtain ⟨wf, inhabited⟩ := assemble_wellFormed success
  refine ⟨normalize_eq_error_iff wf.graph, fun cause failed => ?_, fun normal done => ?_⟩
  · unfold normalize at failed
    split at failed
    next v _ => exact ⟨v, (Except.error.inj failed).symm⟩
    next => exact nomatch failed
  · have dag := (extends_normalize wf done).dag
    obtain ⟨into, out, one⟩ := settled_of_normalize wf inhabited done
    exact ⟨isNormal_of_settled dag one out into,
      normalize_eq_self dag (exits_of_normalize done) one out into⟩

/-- Two branches behind one component: the normal form has a split, and a concatenation that closes
the module. -/
theorem normalize_assembled_fork : ∃ assembled normal,
    assemble [.chain [.token "2N", .module [.chain [.token "3N"], .chain [.token "4N"]]]]
        = .ok assembled
      ∧ assembled.components.normalize = .ok normal
      ∧ normal.IsNormal ∧ normal.normalize = .ok normal := by
  obtain ⟨assembled, normal, success, done⟩ := @exists_of_isSome
    [.chain [.token "2N", .module [.chain [.token "3N"], .chain [.token "4N"]]]] (by decide +kernel)
  exact ⟨assembled, normal, success, done, (normalize_assembled success).2.2 normal done⟩

end ComponentGraph

end LayerNet
