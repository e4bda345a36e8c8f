import LayerNet.Proofs.Network.Drawing
import LayerNet.Proofs.Network.Concatenation

/-!
# Walking — where the rendering of a network goes

The rendering enters nodes along edges and passes them, and what it writes is made of layers and
modules. This can be said without the texts (`Network.routeFrom`): a route has the figures that are
written, the concatenation that it runs into, and the moves in their order.

The moves of a part of the walk stay in a region (`Network.Region`). They come from nodes that the
part has passed, or through its gate, and a node is passed when all the edges into it have been
taken (`Network.Due`). Two regions, neither of which goes through the gate of the other, have no
move in common: of the moves that they shared the one of the least rank would come from a node that
both have passed (`Region.disjoint`). So the branches of a module are apart from each other, and
from what is behind the concatenation that closes it; and no move is made twice
(`Network.region_routeFrom`). For this a graph must be without cycles, and only a concatenation may
have several edges that enter it (`Network.Narrow`).
-/

namespace LayerNet

/-- What is written: a layer, or a module of branches. -/
inductive Figure where
  | layer (v : Nat)
  | module (branches : List (List Figure))

/-- What the rendering does. -/
inductive Move where
  /-- It comes to a node, over the edge from another; to the root it comes from nowhere. -/
  | enter (source : Option Nat) (v : Nat)
  /-- It goes on behind a node, if there is a node behind. -/
  | pass (v : Nat)
  deriving DecidableEq

/-- The sources of the edges over which moves come to a node. -/
def arrivals (moves : List Move) (v : Nat) : List Nat :=
  moves.filterMap fun
    | .enter (some u) w => if w = v then some u else none
    | _ => none

/-- The nodes that moves pass. -/
def passed (moves : List Move) : List Nat :=
  moves.filterMap fun
    | .pass v => some v
    | .enter _ _ => none

/-- A path without its texts: what is written, the concatenation that it ran into with the number
of edges by which it did, and its moves. -/
structure Route where
  figures : List Figure
  merge : Option (Nat × Nat)
  moves : List Move

namespace Route

/-- The route with figures and moves in front. -/
def after (figures : List Figure) (moves : List Move) (r : Route) : Route :=
  ⟨figures ++ r.figures, r.merge, moves ++ r.moves⟩

/-- The path of a route, of which nothing is written. -/
def blank (r : Route) : Path := ⟨[], r.merge⟩

/-- The module of routes, with all their moves, and the concatenation in which they meet. -/
def module (branches : List Route) : Route :=
  ⟨[.module (branches.map figures)], Path.meeting? (branches.map blank), branches.flatMap moves⟩

end Route

namespace Network

/-- The node is of a kind. -/
def kindIs (n : Network) (kind : LayerKind) (v : Nat) : Bool :=
  n.layerIs (fun layer => layer.kind = kind) v

theorem kindIs_iff {n : Network} {kind : LayerKind} {v : Nat} : n.kindIs kind v = true ↔
    ∃ node, n.node? v = some node ∧ node.layer.kind = kind := by
  simp only [kindIs, layerIs_iff, decide_eq_true_eq]

instance (n : Network) (v : Nat) : Decidable (n.Splits v) := decidable_of_iff _ kindIs_iff

instance (n : Network) (v : Nat) : Decidable (n.Joins v) :=
  decidable_of_iff (n.kindIs .concat v = true ∧ 1 < n.graph.inDegree v)
    (and_congr_left fun _ => kindIs_iff)

/-- What is written at a node itself. -/
def ownFigures (n : Network) (v : Nat) : List Figure := if n.Splits v then [] else [.layer v]

/-- The route behind a node, where `route` is the one over an edge. -/
def routeBehind (n : Network) (route : Nat → Nat → Route) (v : Nat) : Route :=
  match n.graph.successorsInOrder v with
  | [] => ⟨[], none, []⟩
  | [next] => route v next
  | successors =>
    let opened := Route.module (successors.map (route v))
    match opened.merge with
    | none => opened
    | some (concat, arrivals) =>
      if arrivals ≠ n.graph.inDegree concat then opened
      else
        match n.graph.successorsInOrder concat with
        | [] => ⟨opened.figures, none, opened.moves ++ [.pass concat]⟩
        | next :: _ => (route concat next).after opened.figures (opened.moves ++ [.pass concat])

/-- The route to a node from a source and on, of at most a number of steps. -/
def routeFrom (n : Network) : Nat → Option Nat → Nat → Route
  | 0, source, v => ⟨[], none, [.enter source v]⟩
  | steps + 1, source, v =>
    if n.Joins v then ⟨[], some (v, 1), [.enter source v]⟩
    else
      (n.routeBehind (fun u w => routeFrom n steps (some u) w) v).after (n.ownFigures v)
        [.enter source v, .pass v]

end Network

/-! ## Moves -/

section Moves

variable {moves rest : List Move} {u v : Nat}

@[simp] theorem mem_arrivals : u ∈ arrivals moves v ↔ .enter (some u) v ∈ moves := by
  simp only [arrivals, List.mem_filterMap]
  constructor
  · rintro ⟨move, member, taken⟩
    match move, taken with
    | .enter (some w) x, taken =>
      simp only [Option.ite_none_right_eq_some, Option.some.injEq] at taken
      obtain ⟨rfl, rfl⟩ := taken
      exact member
  · intro member
    exact ⟨_, member, if_pos rfl⟩

@[simp] theorem mem_passed : v ∈ passed moves ↔ .pass v ∈ moves := by
  simp only [passed, List.mem_filterMap]
  constructor
  · rintro ⟨move, member, taken⟩
    match move, taken with
    | .pass w, taken =>
      cases taken
      exact member
  · intro member
    exact ⟨_, member, rfl⟩

@[simp] theorem arrivals_append : arrivals (moves ++ rest) v = arrivals moves v ++ arrivals rest v :=
  List.filterMap_append

@[simp] theorem passed_append : passed (moves ++ rest) = passed moves ++ passed rest :=
  List.filterMap_append

theorem nodup_arrivals (nodup : moves.Nodup) : (arrivals moves v).Nodup := by
  refine nodup.filterMap fun a b w fromA fromB => ?_
  match a, fromA with
  | .enter (some x) y, fromA =>
    match b, fromB with
    | .enter (some x') y', fromB =>
      simp only [Option.mem_def, Option.ite_none_right_eq_some, Option.some.injEq] at fromA fromB
      rw [fromA.1, fromA.2, fromB.1, fromB.2]

theorem nodup_passed (nodup : moves.Nodup) : (passed moves).Nodup := by
  refine nodup.filterMap fun a b w fromA fromB => ?_
  match a, fromA with
  | .pass x, fromA =>
    match b, fromB with
    | .pass y, fromB =>
      cases fromA
      cases fromB
      rfl

end Moves

namespace Network

/-! ## Turns -/

section Turns

variable {n : Network} {made made' moves rest : List Move} {v : Nat}

/-- The walk has come to a node, and over all edges that enter it. -/
def Due (n : Network) (made : List Move) (v : Nat) : Prop :=
  (∃ source, .enter source v ∈ made) ∧ ∀ u, n.graph.Adj u v → .enter (some u) v ∈ made

/-- After the moves made so far, others pass nodes only when these are due. -/
def InTurn (n : Network) : List Move → List Move → Prop
  | _, [] => True
  | made, move :: rest => (∀ v, move = .pass v → n.Due made v) ∧ InTurn n (move :: made) rest

theorem Due.mono (due : n.Due made v) (more : made ⊆ made') : n.Due made' v := by
  obtain ⟨⟨source, entered⟩, all⟩ := due
  exact ⟨⟨source, more entered⟩, fun u edge => more (all u edge)⟩

theorem InTurn.mono (turns : n.InTurn made moves) (more : made ⊆ made') :
    n.InTurn made' moves := by
  induction moves generalizing made made' with
  | nil => trivial
  | cons move moves ih =>
    obtain ⟨due, turns⟩ := turns
    exact ⟨fun v passes => (due v passes).mono more, ih turns (List.cons_subset_cons move more)⟩

theorem inTurn_append :
    n.InTurn made (moves ++ rest) ↔ n.InTurn made moves ∧ n.InTurn (moves.reverse ++ made) rest := by
  induction moves generalizing made with
  | nil => simp [InTurn]
  | cons move moves ih => simp [InTurn, ih, and_assoc]

/-- Whenever a node is passed it is due. -/
theorem InTurn.due (turns : n.InTurn [] (moves ++ .pass v :: rest)) : n.Due moves v := by
  obtain ⟨-, due, -⟩ := inTurn_append.mp turns
  refine (due v rfl).mono fun move member => ?_
  simpa using member

theorem InTurn.due_of_mem (turns : n.InTurn [] moves) (passes : .pass v ∈ moves) :
    n.Due moves v := by
  obtain ⟨before, after, rfl⟩ := List.append_of_mem passes
  exact turns.due.mono (List.subset_append_left _ _)

end Turns

/-! ## Regions -/

/-- A graph without cycles, in which only a concatenation has several edges that enter it. -/
structure Narrow (n : Network) (rank : Nat → Nat) : Prop where
  wellFormed : n.graph.WellFormed
  ranked : n.graph.Ranking rank
  single : ∀ v, ¬ n.Joins v → ∀ u w, n.graph.Adj u v → n.graph.Adj w v → u = w

/-- The moves of a part of the walk: none is made twice, nodes are passed in turn and from a rank
on, and every node is entered from one that has been passed, or through a gate. -/
structure Region (n : Network) (rank : Nat → Nat) (gate : Nat → Nat → Prop) (least : Nat)
    (moves : List Move) : Prop where
  nodup : moves.Nodup
  turns : n.InTurn [] moves
  origins : ∀ source x, .enter source x ∈ moves →
    ∃ u, source = some u ∧ n.graph.Adj u x ∧ (gate u x ∨ .pass u ∈ moves)
  above : ∀ x, .pass x ∈ moves → least ≤ rank x

/-- Moves run into a concatenation: some edges into it are taken, and it is not passed. -/
structure RunsInto (n : Network) (moves : List Move) (concat count : Nat) : Prop where
  joins : n.Joins concat
  unpassed : .pass concat ∉ moves
  some : 0 < count
  arrived : count ≤ (arrivals moves concat).length

namespace Region

variable {n : Network} {rank : Nat → Nat} {gate gate' both : Nat → Nat → Prop} {least least' : Nat}
  {moves moves' : List Move}

/-- Two regions have no move in common when neither goes through the gate of the other. -/
theorem disjoint (narrow : n.Narrow rank) (region : n.Region rank gate least moves)
    (region' : n.Region rank gate' least' moves')
    (apart : ∀ u x, gate u x → .enter (some u) x ∉ moves')
    (apart' : ∀ u x, gate' u x → .enter (some u) x ∉ moves) : moves.Disjoint moves' := by
  -- an entry that both make comes from a node that both have passed
  have origin (source x) (member : Move.enter source x ∈ moves)
      (member' : Move.enter source x ∈ moves') :
      ∃ u, n.graph.Adj u x ∧ .pass u ∈ moves ∧ .pass u ∈ moves' := by
    obtain ⟨u, rfl, edge, through | passes⟩ := region.origins source x member
    · exact absurd member' (apart u x through)
    · obtain ⟨u', same, -, through | passes'⟩ := region'.origins (some u) x member'
      · cases same
        exact absurd member (apart' u x through)
      · cases same
        exact ⟨u, edge, passes, passes'⟩
  have unpassed (x) (passes : Move.pass x ∈ moves) (passes' : Move.pass x ∈ moves') : False := by
    induction below : rank x using Nat.strong_induction_on generalizing x with
    | _ k ih =>
      obtain ⟨⟨source, entered⟩, -⟩ := region.turns.due_of_mem passes
      obtain ⟨-, all⟩ := region'.turns.due_of_mem passes'
      obtain ⟨u, rfl, edge, -⟩ := region.origins source x entered
      obtain ⟨u', edge', left, right⟩ := origin _ x entered (all u edge)
      exact ih (rank u') (below ▸ narrow.ranked u' x edge') u' left right rfl
  intro move member member'
  cases move with
  | enter source x =>
    obtain ⟨u, -, passes, passes'⟩ := origin source x member member'
    exact unpassed u passes passes'
  | pass x => exact unpassed x member member'

theorem weaken (region : n.Region rank gate least moves) (lower : least' ≤ least)
    (wider : ∀ u x, gate u x → gate' u x) : n.Region rank gate' least' moves where
  nodup := region.nodup
  turns := region.turns
  origins source x member := by
    obtain ⟨u, same, edge, from'⟩ := region.origins source x member
    exact ⟨u, same, edge, from'.imp_left (wider u x)⟩
  above x passes := Nat.le_trans lower (region.above x passes)

theorem nil : n.Region rank gate least [] :=
  ⟨.nil, trivial, fun _ _ absurd => (nomatch absurd), fun _ absurd => (nomatch absurd)⟩

/-- One region after the other. Where the first ends, the gate of the second may be passed. -/
theorem append (region : n.Region rank gate least moves)
    (region' : n.Region rank gate' least moves') (disjoint : moves.Disjoint moves')
    (wider : ∀ u x, gate u x → both u x)
    (wider' : ∀ u x, gate' u x → both u x ∨ .pass u ∈ moves) :
    n.Region rank both least (moves ++ moves') where
  nodup := List.nodup_append'.mpr ⟨region.nodup, region'.nodup, disjoint⟩
  turns := inTurn_append.mpr ⟨region.turns, region'.turns.mono (List.nil_subset _)⟩
  origins source x member := by
    simp only [List.mem_append]
    rcases List.mem_append.mp member with member | member
    · obtain ⟨u, same, edge, through | passes⟩ := region.origins source x member
      · exact ⟨u, same, edge, .inl (wider u x through)⟩
      · exact ⟨u, same, edge, .inr (.inl passes)⟩
    · obtain ⟨u, same, edge, through | passes⟩ := region'.origins source x member
      · exact ⟨u, same, edge, (wider' u x through).imp_right .inl⟩
      · exact ⟨u, same, edge, .inr (.inr passes)⟩
  above x passes := (List.mem_append.mp passes).elim (region.above x) (region'.above x)

/-- Once as many edges as enter a concatenation are taken, it is due. -/
theorem due (wf : n.graph.WellFormed) (region : n.Region rank gate least moves) {v : Nat}
    (joins : n.Joins v) (all : n.graph.inDegree v ≤ (arrivals moves v).length) :
    n.Due moves v := by
  have inside : arrivals moves v ⊆ n.graph.predecessors v := fun u member => by
    obtain ⟨u', same, edge, -⟩ := region.origins _ _ (mem_arrivals.mp member)
    cases same
    exact (n.graph.mem_predecessors v u).mpr edge
  have same := (List.subperm_of_subset (nodup_arrivals region.nodup) inside).perm_of_length_le all
  have taken (u) (edge : n.graph.Adj u v) : .enter (some u) v ∈ moves :=
    mem_arrivals.mp (same.mem_iff.mpr ((n.graph.mem_predecessors v u).mpr edge))
  obtain ⟨u, -, -, edge, -⟩ := (wf.one_lt_inDegree_iff v).mp joins.2
  exact ⟨⟨_, taken u edge⟩, taken⟩

/-- A region may end with the concatenation that it runs into. -/
theorem close (region : n.Region rank gate least moves) {v : Nat} (due : n.Due moves v)
    (unpassed : .pass v ∉ moves) (later : least ≤ rank v) :
    n.Region rank gate least (moves ++ [.pass v]) where
  nodup := by
    rw [List.nodup_append']
    simp [region.nodup, unpassed]
  turns := by
    refine inTurn_append.mpr ⟨region.turns, fun _ same => ?_, trivial⟩
    cases same
    exact due.mono fun move member => by simp [member]
  origins source x member := by
    obtain ⟨u, same, edge, from'⟩ := region.origins source x (by simpa using member)
    exact ⟨u, same, edge, from'.imp_right (List.mem_append_left _)⟩
  above x passes := by
    rcases List.mem_append.mp passes with passes | last
    · exact region.above x passes
    · cases List.mem_singleton.mp last
      exact later

end Region

namespace RunsInto

variable {n : Network} {rank : Nat → Nat} {gate gate' : Nat → Nat → Prop} {least least' : Nat}
  {moves moves' : List Move} {concat count count' : Nat}

/-- What two parts both run into. -/
theorem append (runs : n.RunsInto moves concat count) (runs' : n.RunsInto moves' concat count') :
    n.RunsInto (moves ++ moves') concat (count + count') where
  joins := runs.joins
  unpassed passes := (List.mem_append.mp passes).elim runs.unpassed runs'.unpassed
  some := Nat.add_pos_left runs.some _
  arrived := by
    rw [arrivals_append, List.length_append]
    exact Nat.add_le_add runs.arrived runs'.arrived

/-- What is passed before a disjoint part has no edge left by which that part could come to it. -/
theorem after (runs : n.RunsInto moves' concat count) (turns : n.InTurn [] moves)
    (region' : n.Region rank gate' least' moves') (disjoint : moves.Disjoint moves') :
    n.RunsInto (moves ++ moves') concat count where
  joins := runs.joins
  unpassed passes := by
    rcases List.mem_append.mp passes with passes | passes
    · obtain ⟨u, member⟩ := List.exists_mem_of_length_pos (Nat.lt_of_lt_of_le runs.some runs.arrived)
      have member := mem_arrivals.mp member
      obtain ⟨u', same, edge, -⟩ := region'.origins _ _ member
      cases same
      exact disjoint ((turns.due_of_mem passes).2 u edge) member
    · exact runs.unpassed passes
  some := runs.some
  arrived := by
    rw [arrivals_append, List.length_append]
    exact Nat.le_trans runs.arrived (Nat.le_add_left _ _)

end RunsInto

/-- A route whose moves are a region, and that ends in front of a concatenation or has ended. -/
structure Covers (n : Network) (rank : Nat → Nat) (gate : Nat → Nat → Prop) (least : Nat)
    (r : Route) : Prop where
  region : n.Region rank gate least r.moves
  ends : ∀ concat count, r.merge = some (concat, count) →
    n.RunsInto r.moves concat count ∧ least ≤ rank concat

theorem Covers.weaken {n : Network} {rank : Nat → Nat} {gate gate' : Nat → Nat → Prop}
    {least least' : Nat} {r : Route} (covers : n.Covers rank gate least r) (lower : least' ≤ least)
    (wider : ∀ u x, gate u x → gate' u x) : n.Covers rank gate' least' r where
  region := covers.region.weaken lower wider
  ends concat count merge := by
    obtain ⟨runs, later⟩ := covers.ends concat count merge
    exact ⟨runs, Nat.le_trans lower later⟩

/-! ## Into a node and on -/

/-- The walk comes to a node over an edge, or to the root from nowhere. -/
def Leads (n : Network) (v : Nat) : Option Nat → Prop
  | some u => n.graph.Adj u v
  | none => ∀ u, ¬ n.graph.Adj u v

section Entering

variable {n : Network} {rank : Nat → Nat} (narrow : n.Narrow rank) {v : Nat}
include narrow

/-- A node that one edge enters at most is passed at once, and not entered again. -/
theorem walk_enter {moves : List Move}
    (region : n.Region rank (fun u _ => u = v) (rank v + 1) moves) (single : ¬ n.Joins v)
    (source : Option Nat) (leads : n.Leads v source) :
    (.enter source v :: .pass v :: moves).Nodup
      ∧ n.InTurn [] (.enter source v :: .pass v :: moves) := by
  have entered : .enter source v ∉ moves := fun member => by
    obtain ⟨u, -, edge, same | passes⟩ := region.origins source v member
    · exact narrow.wellFormed.loopless v (same ▸ edge)
    · have := narrow.ranked u v edge
      have := region.above u passes
      omega
  have unpassed : .pass v ∉ moves := fun passes => by
    have := region.above v passes
    omega
  have due : n.Due [.enter source v] v := by
    refine ⟨⟨source, List.mem_singleton_self _⟩, fun u edge => List.mem_singleton.mpr ?_⟩
    cases source with
    | none => exact absurd edge (leads u)
    | some w => rw [narrow.single v single u w edge leads]
  refine ⟨?_, fun _ absurd => (nomatch absurd), fun _ same => ?_, ?_⟩
  · simp [entered, unpassed, region.nodup]
  · cases same
    exact due
  · exact region.turns.mono (List.nil_subset _)

/-- The route over an edge, to a node that is passed at once, and behind it. -/
theorem Covers.enter {behind : Route}
    (covers : n.Covers rank (fun u _ => u = v) (rank v + 1) behind)
    (single : ¬ n.Joins v) {u : Nat} (edge : n.graph.Adj u v) (figures : List Figure) :
    n.Covers rank (fun u' x => u' = u ∧ x = v) (rank v)
      (behind.after figures [.enter (some u) v, .pass v]) := by
  obtain ⟨region, ends⟩ := covers
  obtain ⟨nodup, turns⟩ := walk_enter narrow region single (some u) edge
  refine ⟨⟨nodup, turns, fun source x member => ?_, fun x passes => ?_⟩, ?_⟩
  · simp only [Route.after, List.cons_append, List.nil_append, List.mem_cons, Move.enter.injEq,
      reduceCtorEq, false_or, Move.pass.injEq] at member ⊢
    rcases member with ⟨rfl, rfl⟩ | member
    · exact ⟨u, rfl, edge, .inl ⟨rfl, rfl⟩⟩
    · obtain ⟨u', same, edge', from'⟩ := region.origins source x member
      exact ⟨u', same, edge', .inr from'⟩
  · simp only [Route.after, List.cons_append, List.nil_append, List.mem_cons, reduceCtorEq,
      Move.pass.injEq, false_or] at passes
    rcases passes with rfl | passes
    · exact Nat.le_refl _
    · exact Nat.le_of_succ_le (region.above x passes)
  · intro concat count merge
    obtain ⟨runs, later⟩ := ends concat count merge
    have other : concat ≠ v := fun same => by
      rw [same] at later
      omega
    refine ⟨⟨runs.joins, ?_, runs.some, Nat.le_trans runs.arrived ?_⟩, Nat.le_of_succ_le later⟩
    · simp [Route.after, other, runs.unpassed]
    · rw [Route.after, arrivals_append, List.length_append]
      exact Nat.le_add_left _ _

omit narrow in
/-- The route over an edge, to a concatenation that others enter too. -/
theorem covers_of_joins (joins : n.Joins v) {u : Nat} (edge : n.graph.Adj u v) :
    n.Covers rank (fun u' x => u' = u ∧ x = v) (rank v) ⟨[], some (v, 1), [.enter (some u) v]⟩ := by
  refine ⟨⟨List.nodup_singleton _, ⟨fun _ absurd => (nomatch absurd), trivial⟩,
    fun source x member => ?_, fun x passes => ?_⟩, fun concat count merge => ?_⟩
  · cases List.mem_singleton.mp member
    exact ⟨u, rfl, edge, .inl ⟨rfl, rfl⟩⟩
  · cases List.mem_singleton.mp passes
  · cases merge
    refine ⟨⟨joins, by simp, Nat.one_pos, ?_⟩, Nat.le_refl _⟩
    simp [arrivals]

end Entering

end Network

/-- Several paths meet where the first ends and the others meet. -/
theorem Path.meeting?_cases {p : Path} {rest : List Path} {concat count : Nat}
    (meets : Path.meeting? (p :: rest) = some (concat, count)) :
    ∃ own, p.merge = some (concat, own) ∧ (rest = [] ∧ count = own
      ∨ ∃ others, Path.meeting? rest = some (concat, others) ∧ count = own + others) := by
  cases rest with
  | nil => exact ⟨count, meets, .inl ⟨rfl, rfl⟩⟩
  | cons next rest =>
    rw [Path.meeting?] at meets
    · split at meets
      next v own w others first second =>
        split at meets
        next same =>
          cases meets
          exact ⟨own, first, .inr ⟨others, same ▸ second, rfl⟩⟩
        next => cases meets
      next => cases meets
    · intro absurd
      cases absurd

namespace Network

theorem nodup_successorsInOrder {n : Network} (wf : n.graph.WellFormed) {v : Nat} :
    (n.graph.successorsInOrder v).Nodup :=
  (List.mergeSort_perm _ _).nodup_iff.mpr (wf.nodup_successors v)

section Branching

variable {n : Network} {rank : Nat → Nat} (narrow : n.Narrow rank) {v : Nat}
include narrow

/-- The branches of a module are apart, and what the module runs into is what all of them do. -/
theorem covers_module {route : Nat → Route} {targets : List Nat} (nodup : targets.Nodup)
    (edges : ∀ w ∈ targets, n.graph.Adj v w)
    (each : ∀ w ∈ targets, n.Covers rank (fun u x => u = v ∧ x = w) (rank w) (route w)) :
    n.Covers rank (fun u x => u = v ∧ x ∈ targets) (rank v + 1)
      (Route.module (targets.map route)) := by
  induction targets with
  | nil => exact ⟨.nil, fun _ _ absurd => nomatch absurd⟩
  | cons w targets ih =>
    obtain ⟨new, nodup⟩ := List.nodup_cons.mp nodup
    obtain ⟨edge, edges⟩ := List.forall_mem_cons.mp edges
    obtain ⟨first, each⟩ := List.forall_mem_cons.mp each
    have first := first.weaken (narrow.ranked v w edge) fun _ _ through => through
    have others := ih nodup edges each
    have disjoint : (route w).moves.Disjoint (Route.module (targets.map route)).moves := by
      refine first.region.disjoint narrow others.region ?_ ?_
      · rintro u x ⟨rfl, rfl⟩ member
        obtain ⟨_, ⟨⟩, -, ⟨-, old⟩ | passes⟩ := others.region.origins _ _ member
        · exact new old
        · have := others.region.above _ passes
          omega
      · rintro u x ⟨rfl, old⟩ member
        obtain ⟨_, ⟨⟩, -, ⟨-, rfl⟩ | passes⟩ := first.region.origins _ _ member
        · exact new old
        · have := first.region.above _ passes
          omega
    constructor
    · refine first.region.append others.region disjoint ?_ ?_
      · rintro u x ⟨rfl, rfl⟩
        exact ⟨rfl, List.mem_cons_self⟩
      · rintro u x ⟨rfl, member⟩
        exact .inl ⟨rfl, List.mem_cons_of_mem _ member⟩
    · intro concat count merge
      obtain ⟨own, ends, ⟨none, rfl⟩ | ⟨rest, meets, rfl⟩⟩ := Path.meeting?_cases merge
      · obtain ⟨runs, later⟩ := first.ends _ _ ends
        have none : targets = [] := by simpa using none
        subst none
        refine ⟨?_, later⟩
        simpa [Route.module] using runs
      · obtain ⟨runs, later⟩ := first.ends _ _ ends
        exact ⟨runs.append (others.ends _ _ meets).1, later⟩

/-- What is behind a concatenation is apart from the module that it closes. -/
theorem disjoint_behind {moves behind : List Move} {concat next : Nat}
    (region : n.Region rank (fun u _ => u = v) (rank v + 1) moves)
    (unpassed : .pass concat ∉ moves) (above : rank v + 1 ≤ rank concat)
    (further : rank concat < rank next)
    (region' : n.Region rank (fun u x => u = concat ∧ x = next) (rank next) behind) :
    (moves ++ [Move.pass concat]).Disjoint behind := by
  refine List.disjoint_append_left.mpr ⟨region.disjoint narrow region' ?_ ?_, ?_⟩
  · rintro u x rfl member
    obtain ⟨_, ⟨⟩, -, ⟨rfl, -⟩ | passes⟩ := region'.origins _ _ member
    · omega
    · have := region'.above _ passes
      omega
  · rintro u x ⟨rfl, rfl⟩ member
    obtain ⟨_, ⟨⟩, -, rfl | passes⟩ := region.origins _ _ member
    · omega
    · exact unpassed passes
  · refine List.singleton_disjoint.mpr fun passes => ?_
    have := region'.above _ passes
    omega

/-- Behind a node, every edge is walked at most once: the branches are apart from each other, and
from what is behind the concatenation that closes them. -/
theorem covers_routeBehind {route : Nat → Nat → Route}
    (each : ∀ u w, n.graph.Adj u w →
      n.Covers rank (fun u' x => u' = u ∧ x = w) (rank w) (route u w)) :
    n.Covers rank (fun u _ => u = v) (rank v + 1) (n.routeBehind route v) := by
  have later (w) (member : w ∈ n.graph.successorsInOrder v) : n.graph.Adj v w :=
    (n.graph.mem_successorsInOrder v w).mp member
  have nodup := nodup_successorsInOrder narrow.wellFormed (v := v)
  have opened := (covers_module narrow nodup later fun w member => each v w (later w member)).weaken
    (Nat.le_refl _) fun _ _ through => through.1
  unfold routeBehind
  split
  next => exact ⟨.nil, fun _ _ absurd => nomatch absurd⟩
  next next only =>
    have edge : n.graph.Adj v next := later next (only ▸ List.mem_cons_self)
    exact (each v next edge).weaken (narrow.ranked v next edge) fun _ _ through => through.1
  next =>
    dsimp only
    split
    next => exact opened
    next concat arrivals merge =>
      split
      next => exact opened
      next all =>
        obtain ⟨runs, above⟩ := opened.ends concat arrivals merge
        have due := opened.region.due narrow.wellFormed runs.joins
          (not_not.mp all ▸ runs.arrived)
        have closed := opened.region.close due runs.unpassed above
        split
        next => exact ⟨closed, fun _ _ absurd => nomatch absurd⟩
        next next rest onward =>
          have edge : n.graph.Adj concat next :=
            (n.graph.mem_successorsInOrder concat next).mp (onward ▸ List.mem_cons_self)
          have further := narrow.ranked concat next edge
          have tail := (each concat next edge).weaken
            (Nat.le_of_succ_le (Nat.succ_le_succ above |>.trans further)) fun _ _ through => through
          have disjoint := disjoint_behind narrow opened.region runs.unpassed above further
            (each concat next edge).region
          refine ⟨closed.append tail.region disjoint (fun _ _ same => same) ?_, ?_⟩
          · rintro u x ⟨rfl, -⟩
            exact .inr (List.mem_append_right _ (List.mem_singleton_self _))
          · intro last count merge
            obtain ⟨runs, later⟩ := tail.ends last count merge
            exact ⟨runs.after closed.turns tail.region disjoint, later⟩

/-- The route over an edge walks every edge at most once. -/
theorem covers_routeFrom (steps : Nat) {u w : Nat} (edge : n.graph.Adj u w) :
    n.Covers rank (fun u' x => u' = u ∧ x = w) (rank w) (n.routeFrom steps (some u) w) := by
  induction steps generalizing u w with
  | zero =>
    refine ⟨⟨List.nodup_singleton _, ⟨fun _ absurd => (nomatch absurd), trivial⟩,
      fun source x member => ?_, fun x passes => ?_⟩, fun _ _ absurd => nomatch absurd⟩
    · cases List.mem_singleton.mp member
      exact ⟨u, rfl, edge, .inl ⟨rfl, rfl⟩⟩
    · cases List.mem_singleton.mp passes
  | succ steps ih =>
    rw [routeFrom]
    split
    next joins => exact covers_of_joins joins edge
    next single => exact (covers_routeBehind narrow fun _ _ => ih).enter narrow single edge _

end Branching

end Network

end LayerNet
