import LayerNet.Proofs.Component.Passes
import LayerNet.Proofs.Digraph.Degree
import LayerNet.Proofs.Digraph.Neighbours

/-!
# Closing — what normalization connects, and what it does with modules left open

Normalization moves edges: where there was one, there may be a path now, through a split behind its
source and a concatenation in front of its target. It loses none and crosses none. Two vertices of
an assembled graph have an edge exactly when the normal form has a path between them that only
leads through vertices that normalization inserted (`normalize_wiring`), and those are splits and
concatenations behind the vertices that were there. `Passage g n` is such a path where the vertices
of the assembled graph are those before `n`. The passes keep passages, whatever they are between; in
the assembled graph itself there is no vertex to pass through, so there a passage is an edge.

Normalization goes through the exits of modules, those recorded last first, and joins the exits that
nothing follows, if there are several, by a concatenation. An exit that is followed stays followed,
by later closings (`adj_foldl_closeModule`) and by the passes behind them (`IsOpen.of_normalize`).
So of the exits of a module at most one stays open (`open_unique_closeModules`), and a module whose
exits are all exits of one that is closed before gets no concatenation (`not_getsConcat`): those of
them that were open lead to the other module's (`adj_closeModules_of_getsConcat`).
-/

namespace LayerNet

/-! ## Passages -/

/-- Where no vertex has a number from `n` on, a passage is an edge. -/
theorem Digraph.WellFormed.passage_iff_adj {α : Type} {g : Digraph α} (wf : g.WellFormed)
    {u v : Nat} : g.Passage g.size u v ↔ g.Adj u v := by
  constructor
  · intro path
    cases path with
    | edge edge => exact edge
    | through edge high _ => exact absurd (wf.inside _ _ edge).2 (Nat.not_lt.mpr high)
  · exact .edge

namespace ComponentGraph

/-- The vertices of an assembled graph keep their numbers, keys and blueprints in its normal form,
the other vertices there are splits and concatenations, and there is an edge between two vertices of
the assembled graph exactly when there is a path between them through inserted vertices only. -/
theorem normalize_wiring {statements : List Statement} {assembled : Assembled}
    (success : assemble statements = .ok assembled) {normal : ComponentGraph}
    (done : assembled.components.normalize = .ok normal) :
    assembled.components.size ≤ normal.size
      ∧ (∀ v < assembled.components.size,
        normal.graph.label? v = assembled.components.graph.label? v)
      ∧ (∀ v component, assembled.components.size ≤ v → normal.graph.label? v = some component →
        component.blueprint = .split ∨ component.blueprint = .concat)
      ∧ ∀ u v, u < assembled.components.size → v < assembled.components.size →
        (assembled.components.graph.Adj u v ↔
          normal.graph.Passage assembled.components.size u v) := by
  have wf := (assemble_wellFormed success).1
  have larger := extends_normalize wf done
  refine ⟨larger.size_le, fun v old => larger.label?_eq old,
    fun v component new label => larger.routing_of_le new label, fun u v small small' => ?_⟩
  rw [larger.passages u v small small']
  exact wf.graph.passage_iff_adj.symm

/-- Two components joined to two others: each of the first gets a split, each of the second a
concatenation, and the four edges are paths between the same components. -/
theorem normalize_wiring_crossed : ∃ assembled normal, assemble
        [.define "a" [.token "2N"], .define "b" [.token "2N"], .define "c" [.token "3N"],
          .define "d" [.token "3N"], .chain [.token "a", .token "c"],
          .chain [.token "a", .token "d"], .chain [.token "b", .token "c"],
          .chain [.token "b", .token "d"]] = .ok assembled
      ∧ assembled.components.normalize = .ok normal
      ∧ ∀ u v, u < assembled.components.size → v < assembled.components.size →
        (assembled.components.graph.Adj u v ↔
          normal.graph.Passage assembled.components.size u v) := by
  obtain ⟨assembled, normal, success, done⟩ := @exists_of_isSome
    [.define "a" [.token "2N"], .define "b" [.token "2N"], .define "c" [.token "3N"],
      .define "d" [.token "3N"], .chain [.token "a", .token "c"], .chain [.token "a", .token "d"],
      .chain [.token "b", .token "c"], .chain [.token "b", .token "d"]] (by decide +kernel)
  exact ⟨assembled, normal, success, done, (normalize_wiring success done).2.2.2⟩

end ComponentGraph

/-! ## Exits that stay open -/

namespace ComponentGraph

/-- Nothing follows the vertex. -/
def IsOpen (c : ComponentGraph) (v : Nat) : Prop := ∀ w, ¬ c.graph.Adj v w

/-- The exits that nothing follows. -/
def openAmong (c : ComponentGraph) (exits : List Nat) : List Nat :=
  exits.filter fun v => c.graph.outDegree v = 0

theorem mem_openAmong {c : ComponentGraph} {exits : List Nat} {v : Nat} :
    v ∈ c.openAmong exits ↔ v ∈ exits ∧ c.IsOpen v := by
  rw [openAmong, List.mem_filter, decide_eq_true_iff, Digraph.outDegree_eq_zero_iff]
  rfl

/-- The graph when normalization comes to the module whose exits were the last to be recorded. -/
def turn (c : ComponentGraph) (recorded : List (List Nat)) : ComponentGraph :=
  (c.exits.take (c.exits.length - recorded.length)).foldl closeModule c

/-- When normalization comes to the module whose exits were the last to be recorded, several of them
are open. So the module gets a concatenation. -/
def GetsConcat (c : ComponentGraph) (recorded : List (List Nat)) : Prop :=
  1 < ((c.turn recorded).openAmong (recorded.headD [])).length

instance (c : ComponentGraph) (recorded : List (List Nat)) : Decidable (c.GetsConcat recorded) :=
  inferInstanceAs (Decidable (_ < _))

/-! ## One closing -/

/-- A closing leads the open exits of a module to a new vertex, if there are several. -/
theorem adj_closeModule (c : ComponentGraph) (exits : List Nat) (u w : Nat) :
    (c.closeModule exits).graph.Adj u w ↔ c.graph.Adj u w
      ∨ 1 < (c.openAmong exits).length ∧ u ∈ c.openAmong exits ∧ w = c.size := by
  unfold closeModule
  dsimp only
  split
  next few =>
    have few : ¬ 1 < (c.openAmong exits).length := by
      rw [openAmong]
      omega
    simp [few]
  next several =>
    have several : 1 < (c.openAmong exits).length := by
      rw [openAmong]
      omega
    refine (Digraph.adj_addEdges _ _ u w).trans ?_
    rw [or_comm]
    refine or_congr Iff.rfl ?_
    simp only [List.mem_map, Prod.mk.injEq]
    constructor
    · rintro ⟨v, member, rfl, rfl⟩
      exact ⟨several, member, rfl⟩
    · rintro ⟨-, member, rfl⟩
      exact ⟨u, member, rfl, rfl⟩

/-- What is open after a closing was open before. -/
theorem IsOpen.of_closeModule {c : ComponentGraph} {exits : List Nat} {v : Nat}
    (still : (c.closeModule exits).IsOpen v) : c.IsOpen v :=
  fun w edge => still w ((adj_closeModule c exits v w).mpr (.inl edge))

/-- Closings add nothing behind a vertex that is followed. -/
theorem adj_foldl_closeModule {c : ComponentGraph} {u w : Nat} (edge : c.graph.Adj u w)
    (later : List (List Nat)) (x : Nat) :
    (later.foldl closeModule c).graph.Adj u x ↔ c.graph.Adj u x := by
  induction later generalizing c with
  | nil => rfl
  | cons exits later ih =>
    have closed : ¬ u ∈ c.openAmong exits := fun member => (mem_openAmong.mp member).2 w edge
    have here (x : Nat) : (c.closeModule exits).graph.Adj u x ↔ c.graph.Adj u x := by
      rw [adj_closeModule]
      simp [closed]
    exact (ih ((here w).mpr edge)).trans (here x)

theorem IsOpen.of_foldl_closeModule {c : ComponentGraph} {later : List (List Nat)} {v : Nat}
    (still : (later.foldl closeModule c).IsOpen v) : c.IsOpen v :=
  fun w edge => still w ((adj_foldl_closeModule edge later w).mpr edge)

/-- Closings change no component that is there. -/
theorem label?_foldl_closeModule {c : ComponentGraph} {v : Nat} (old : v < c.size)
    (later : List (List Nat)) : (later.foldl closeModule c).graph.label? v = c.graph.label? v := by
  induction later generalizing c with
  | nil => rfl
  | cons exits later ih =>
    have here : (c.closeModule exits).graph.vertices = c.graph.vertices
        ∨ (c.closeModule exits).graph.vertices = c.graph.vertices.push (c.fresh .concat) := by
      unfold closeModule
      dsimp only
      split
      · exact .inl rfl
      · exact .inr (Digraph.vertices_addEdges _ _)
    have old : v < c.graph.vertices.size := old
    rw [List.foldl_cons, ih]
    · rcases here with same | pushed
      · rw [Digraph.label?, Digraph.label?, same]
      · rw [Digraph.label?, Digraph.label?, pushed, Array.getElem?_push_lt old,
          Array.getElem?_eq_getElem old]
    · show v < (c.closeModule exits).graph.vertices.size
      rcases here with same | pushed
      · rwa [same]
      · rw [pushed, Array.size_push]
        exact Nat.lt_succ_of_lt old

/-- Of the exits of a module at most one is open once it is closed. -/
theorem open_unique_closeModule {c : ComponentGraph} {exits : List Nat} {u v : Nat}
    (first : u ∈ exits) (second : v ∈ exits) (open_u : (c.closeModule exits).IsOpen u)
    (open_v : (c.closeModule exits).IsOpen v) : u = v := by
  have among_u : u ∈ c.openAmong exits := mem_openAmong.mpr ⟨first, open_u.of_closeModule⟩
  have among_v : v ∈ c.openAmong exits := mem_openAmong.mpr ⟨second, open_v.of_closeModule⟩
  have few : (c.openAmong exits).length ≤ 1 := by
    by_contra several
    exact open_u c.size ((adj_closeModule c exits u c.size).mpr
      (.inr ⟨Nat.not_le.mp several, among_u, rfl⟩))
  obtain ⟨x, only⟩ := List.length_eq_one_iff.mp
    (Nat.le_antisymm few (List.length_pos_of_mem among_u))
  rw [only, List.mem_singleton] at among_u among_v
  exact among_u.trans among_v.symm

/-! ## The turns of modules -/

section

variable {c : ComponentGraph}

/-- After its turn, a module has been closed. -/
theorem foldl_closeModule_of_suffix {own : List Nat} {earlier : List (List Nat)}
    (recorded : own :: earlier <:+ c.exits) : c.exits.foldl closeModule c
      = earlier.foldl closeModule ((c.turn (own :: earlier)).closeModule own) := by
  obtain ⟨later, split⟩ := recorded
  have before : c.exits.take (c.exits.length - (own :: earlier).length) = later := by
    rw [← split, List.length_append, Nat.add_sub_cancel, List.take_left]
  rw [turn, before, ← split, List.foldl_append, List.foldl_cons]

/-- A module that was recorded before another has its turn after the other was closed. -/
theorem turn_of_suffix {own own' : List Nat} {earlier earlier' : List (List Nat)}
    (recorded : own :: earlier <:+ c.exits) (before : own' :: earlier' <:+ earlier) :
    ∃ between : List (List Nat), c.turn (own' :: earlier')
      = between.foldl closeModule ((c.turn (own :: earlier)).closeModule own) := by
  obtain ⟨later, split⟩ := recorded
  obtain ⟨between, rfl⟩ := before
  have first : c.exits.take (c.exits.length
      - (own :: (between ++ own' :: earlier')).length) = later := by
    rw [← split, List.length_append, Nat.add_sub_cancel, List.take_left]
  have second : c.exits.take (c.exits.length - (own' :: earlier').length)
      = later ++ own :: between := by
    have whole : c.exits = (later ++ own :: between) ++ own' :: earlier' := by
      rw [← split]
      simp
    rw [whole, List.length_append, Nat.add_sub_cancel, List.take_left]
  refine ⟨between, ?_⟩
  unfold turn
  rw [first, second, List.foldl_append, List.foldl_cons]

/-- Of the exits of a module at most one is open after all modules are closed. -/
theorem open_unique_closeModules {own : List Nat} (recorded : own ∈ c.exits) {u v : Nat}
    (first : u ∈ own) (second : v ∈ own) (open_u : c.closeModules.IsOpen u)
    (open_v : c.closeModules.IsOpen v) : u = v := by
  obtain ⟨later, earlier, split⟩ := List.append_of_mem recorded
  have closed := foldl_closeModule_of_suffix (c := c) ⟨later, split.symm⟩
  have still (w : Nat) (open_w : c.closeModules.IsOpen w) :
      ((c.turn (own :: earlier)).closeModule own).IsOpen w := by
    have open_w : (c.exits.foldl ComponentGraph.closeModule c).IsOpen w := open_w
    rw [closed] at open_w
    exact open_w.of_foldl_closeModule
  exact open_unique_closeModule first second (still u open_u) (still v open_v)

/-- The open exits of a module that gets a concatenation lead to it and to nothing else when all
modules are closed. -/
theorem adj_closeModules_of_getsConcat {own : List Nat} {earlier : List (List Nat)}
    (recorded : own :: earlier <:+ c.exits) (gets : c.GetsConcat (own :: earlier)) {v : Nat}
    (among : v ∈ (c.turn (own :: earlier)).openAmong own) (w : Nat) :
    c.closeModules.graph.Adj v w ↔ w = (c.turn (own :: earlier)).size := by
  have here (w : Nat) : ((c.turn (own :: earlier)).closeModule own).graph.Adj v w
      ↔ w = (c.turn (own :: earlier)).size := by
    rw [adj_closeModule]
    constructor
    · rintro (edge | ⟨-, -, rfl⟩)
      · exact absurd edge ((mem_openAmong.mp among).2 w)
      · rfl
    · rintro rfl
      exact .inr ⟨gets, among, rfl⟩
  have closed : c.closeModules.graph
      = (earlier.foldl closeModule ((c.turn (own :: earlier)).closeModule own)).graph := by
    show (c.exits.foldl closeModule c).graph = _
    rw [foldl_closeModule_of_suffix recorded]
  rw [closed]
  exact (adj_foldl_closeModule ((here _).mpr rfl) earlier w).trans (here w)

/-- What they lead to is a concatenation. -/
theorem label?_closeModules_of_getsConcat {own : List Nat} {earlier : List (List Nat)}
    (recorded : own :: earlier <:+ c.exits) (gets : c.GetsConcat (own :: earlier)) :
    ∃ key, c.closeModules.graph.label? (c.turn (own :: earlier)).size = some ⟨key, .concat⟩ := by
  generalize turned : c.turn (own :: earlier) = b at gets ⊢
  have gets : 1 < (b.openAmong own).length := turned ▸ gets
  have added : (b.closeModule own).graph.vertices
      = b.graph.vertices.push (b.fresh .concat) := by
    unfold closeModule
    dsimp only
    rw [if_neg (by rw [openAmong] at gets; omega)]
    exact Digraph.vertices_addEdges _ _
  have inside : b.size < (b.closeModule own).size := by
    show b.graph.vertices.size < (b.closeModule own).graph.vertices.size
    rw [added, Array.size_push]
    exact Nat.lt_succ_self _
  refine ⟨b.freshKey none .concat, ?_⟩
  show (c.exits.foldl closeModule c).graph.label? b.size = _
  rw [foldl_closeModule_of_suffix recorded, turned, label?_foldl_closeModule inside]
  show (b.closeModule own).graph.vertices[b.graph.vertices.size]? = _
  rw [added, Array.getElem?_push_size]
  rfl

/-- A module whose exits are all exits of one that is closed before gets no concatenation. -/
theorem not_getsConcat {own own' : List Nat} {earlier earlier' : List (List Nat)}
    (recorded : own :: earlier <:+ c.exits) (before : own' :: earlier' <:+ earlier)
    (within : own' ⊆ own) (nodup : own'.Nodup) : ¬ c.GetsConcat (own' :: earlier') := by
  intro several
  obtain ⟨between, there⟩ := turn_of_suffix recorded before
  obtain ⟨u, v, different, open_u, open_v⟩ :=
    (Digraph.one_lt_length_iff (nodup.filter _)).mp several
  obtain ⟨in_u, open_u⟩ := mem_openAmong.mp open_u
  obtain ⟨in_v, open_v⟩ := mem_openAmong.mp open_v
  rw [there] at open_u open_v
  exact different (open_unique_closeModule (within in_u) (within in_v)
    open_u.of_foldl_closeModule open_v.of_foldl_closeModule)

end

/-! ## The passes behind the closings -/

/-- What is open in the normal form was open when all modules were closed. -/
theorem IsOpen.of_normalize {c normal : ComponentGraph} (wf : c.WellFormed)
    (success : c.normalize = .ok normal) {v : Nat} (still : normal.IsOpen v) :
    c.closeModules.IsOpen v := by
  obtain ⟨none, rfl⟩ := eq_of_normalize_eq_ok success
  have dag : c.graph.IsDag := ⟨wf.graph, (Digraph.cycleVertex?_eq_none_iff wf.graph).mp none⟩
  have closed := extends_closeModules dag (Nat.zero_le _) wf.exits
  have rooted := extends_joinRoots closed.dag (Nat.le_refl _)
  have split := extends_splitAll rooted.dag rooted.size_le fun v member => List.mem_range.mp member
  have old : ∀ v ∈ List.range c.closeModules.joinRoots.size, v < _ := fun v member =>
    Nat.lt_of_lt_of_le (List.mem_range.mp member) split.size_le
  have joined := extends_joinAll split.dag (rooted.trans split).size_le old
  have passes := (rooted.trans split).trans joined
  intro w edge
  obtain ⟨small, small'⟩ := closed.dag.wellFormed.inside v w edge
  -- an edge of the graph with all modules closed is a path now, and paths begin with edges
  have path := (passes.passages v w small small').mpr (.edge edge)
  cases path with
  | edge edge => exact still w edge
  | through edge _ _ => exact still _ edge

end ComponentGraph

end LayerNet
