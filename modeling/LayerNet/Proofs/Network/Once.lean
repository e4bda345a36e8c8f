import LayerNet.Proofs.Blueprint.Token
import LayerNet.Proofs.Network.Completion
import LayerNet.Proofs.Network.Walking

/-!
# Rendering once — no layer is written twice

A route tells what the rendering writes: its figures, with the layers' tokens filled in
(`Figure.texts`). The path from a node is the one that the route from there tells, if there are as
many steps as nodes (`Network.pathFrom_eq`): every step leads to a later rank.

So whatever a compiled network is rendered from, the rendering returns, and it never writes a layer
twice (`Network.writtenOnce_of_compile`). It comes to a node that is no concatenation at most once.
It goes on behind a concatenation at most once, and then it has come there over every edge.
-/

namespace LayerNet

namespace Figure

/-! ## Texts and layers of figures -/

mutual

/-- The text of a figure, where `write` tells the tokens of layers. -/
def text (write : Nat → String) : Figure → String
  | .layer v => write v
  | .module branches => "\x7b" ++ ",".intercalate (branchTexts write branches) ++ "\x7d"

def texts (write : Nat → String) : List Figure → List String
  | [] => []
  | figure :: rest => text write figure :: texts write rest

def branchTexts (write : Nat → String) : List (List Figure) → List String
  | [] => []
  | branch :: rest => "~".intercalate (texts write branch) :: branchTexts write rest

end

mutual

/-- The layers of a figure, in the order in which they are written. -/
def layers : Figure → List Nat
  | .layer v => [v]
  | .module branches => layersBranches branches

def layersAll : List Figure → List Nat
  | [] => []
  | figure :: rest => layers figure ++ layersAll rest

def layersBranches : List (List Figure) → List Nat
  | [] => []
  | branch :: rest => layersAll branch ++ layersBranches rest

end

variable {write : Nat → String}

@[simp] theorem texts_append (figures rest : List Figure) :
    texts write (figures ++ rest) = texts write figures ++ texts write rest := by
  induction figures with
  | nil => rfl
  | cons figure figures ih => simp [texts, ih]

@[simp] theorem layersAll_append (figures rest : List Figure) :
    layersAll (figures ++ rest) = layersAll figures ++ layersAll rest := by
  induction figures with
  | nil => rfl
  | cons figure figures ih => simp [layersAll, ih]

theorem branchTexts_eq_map (branches : List (List Figure)) :
    branchTexts write branches = branches.map fun b => "~".intercalate (texts write b) := by
  induction branches with
  | nil => rfl
  | cons branch branches ih => simp [branchTexts, ih]

theorem layersBranches_eq_flatMap (branches : List (List Figure)) :
    layersBranches branches = branches.flatMap layersAll := by
  induction branches with
  | nil => rfl
  | cons branch branches ih => simp [layersBranches, ih]

end Figure

/-! ## Paths of routes -/

/-- Paths meet where they do, whatever they have written. -/
theorem Path.meeting?_congr {ps qs : List Path} (same : ps.map merge = qs.map merge) :
    Path.meeting? ps = Path.meeting? qs := by
  induction ps generalizing qs with
  | nil => rw [List.map_eq_nil_iff.mp same.symm]
  | cons p rest ih =>
    obtain ⟨q, others, rfl, own, same⟩ := List.map_eq_cons_iff.mp same.symm
    cases rest with
    | nil =>
      rw [List.map_eq_nil_iff.mp same]
      exact own.symm
    | cons p' rest =>
      obtain ⟨q', others, rfl, -, -⟩ := List.map_eq_cons_iff.mp same
      have tail := ih same.symm
      unfold Path.meeting?
      rw [tail, own]

namespace Route

variable (write : Nat → String)

/-- The path that a route tells. -/
def path (r : Route) : Path := ⟨Figure.texts write r.figures, r.merge⟩

theorem path_after (figures : List Figure) (moves : List Move) (r : Route) :
    (r.after figures moves).path write = (r.path write).after (Figure.texts write figures) := by
  simp [path, after, Path.after]

/-- A module of routes tells the module of their paths, and meets where they do. -/
theorem texts_module (branches : List Route) :
    [Path.module (branches.map (path write))] = Figure.texts write (module branches).figures
      ∧ Path.meeting? (branches.map (path write)) = (module branches).merge := by
  constructor
  · simp [path, module, Path.module, Figure.texts, Figure.text, Figure.branchTexts_eq_map,
      Function.comp_def]
  · exact Path.meeting?_congr (by simp [Function.comp_def, blank, path])

end Route

namespace Network

/-! ## Layers of routes -/

/-- A layer is written where it is neither a split nor a concatenation of several edges. -/
def writes (n : Network) (v : Nat) : Bool := !decide (n.Splits v) && !decide (n.Joins v)

/-- A route writes the layers that it passes, in this order, and ends in front of a
concatenation of several edges if it does not end at a sink. -/
structure Tells (n : Network) (r : Route) : Prop where
  layers : Figure.layersAll r.figures = (passed r.moves).filter n.writes
  joins : ∀ concat count, r.merge = some (concat, count) → n.Joins concat

section Layers

variable {n : Network} {r : Route} {v : Nat}

theorem Tells.after (tells : n.Tells r) (figures : List Figure)
    (moves : List Move) (own : Figure.layersAll figures = (passed moves).filter n.writes) :
    n.Tells (r.after figures moves) where
  layers := by simp [Route.after, own, tells.layers]
  joins := tells.joins

theorem Tells.module {branches : List Route} (each : ∀ b ∈ branches, n.Tells b) :
    n.Tells (Route.module branches) := by
  induction branches with
  | nil => exact ⟨rfl, fun _ _ absurd => nomatch absurd⟩
  | cons b branches ih =>
    obtain ⟨first, each⟩ := List.forall_mem_cons.mp each
    have others := ih each
    constructor
    · have layers := others.layers
      simp only [Route.module, Figure.layersAll, Figure.layers, List.append_nil] at layers ⊢
      simp [Figure.layersBranches, layers, first.layers]
    · intro concat count merge
      obtain ⟨own, ends, -⟩ := Path.meeting?_cases merge
      exact first.joins concat own ends

theorem tells_routeBehind {route : Nat → Nat → Route} (each : ∀ u w, n.Tells (route u w)) :
    n.Tells (n.routeBehind route v) := by
  have opened : n.Tells (Route.module ((n.graph.successorsInOrder v).map (route v))) :=
    .module fun b member => by
      obtain ⟨w, -, rfl⟩ := List.mem_map.mp member
      exact each v w
  unfold routeBehind
  split
  next => exact ⟨rfl, fun _ _ absurd => nomatch absurd⟩
  next next only => exact each v next
  next =>
    dsimp only
    split
    next => exact opened
    next concat arrivals merge =>
      split
      next => exact opened
      next =>
        have closed : n.writes concat = false := by
          simp [writes, opened.joins concat arrivals merge]
        split
        next =>
          refine ⟨?_, fun _ _ absurd => nomatch absurd⟩
          simp [opened.layers, passed, closed]
        next next rest onward =>
          exact (each concat next).after _ _ (by simp [opened.layers, passed, closed])

theorem tells_routeFrom (steps : Nat) (source : Option Nat) (v : Nat) :
    n.Tells (n.routeFrom steps source v) := by
  induction steps generalizing source v with
  | zero => exact ⟨rfl, fun _ _ absurd => nomatch absurd⟩
  | succ steps ih =>
    rw [routeFrom]
    split
    next joins =>
      refine ⟨rfl, fun concat count merge => ?_⟩
      cases merge
      exact joins
    next single =>
      have behind : n.Tells (n.routeBehind (fun u w => n.routeFrom steps (some u) w) v) :=
        tells_routeBehind fun u w => ih (some u) w
      refine behind.after _ _ ?_
      by_cases splits : n.Splits v
      · simp [ownFigures, passed, writes, splits, Figure.layersAll]
      · simp [ownFigures, passed, writes, splits, single, Figure.layersAll, Figure.layers]

end Layers

/-! ## The path that a route tells -/

/-- The path from a node whose own tokens are known, where `path` is the one from a node. -/
def pathOnward (n : Network) (path : Nat → Checked Path) (v : Nat) (own : List String) :
    Checked Path :=
  match n.graph.successorsInOrder v with
  | [] => return ⟨own, none⟩
  | [next] => return (← path next).after own
  | successors => do
    let branches ← successors.mapM path
    let tokens := own ++ [Path.module branches]
    match Path.meeting? branches with
    | none => return ⟨tokens, none⟩
    | some (concat, arrivals) =>
      if arrivals ≠ n.graph.inDegree concat then return ⟨tokens, some (concat, arrivals)⟩
      else
        match n.graph.successorsInOrder concat with
        | [] => return ⟨tokens, none⟩
        | next :: _ => return (← path next).after tokens

theorem pathFrom_of_single {n : Network} {s : Store} {steps v : Nat} {node : Node}
    (there : n.node? v = some node) (single : ¬ n.Joins v) {own : List String}
    (tokens : node.layer.kind = .split ∧ own = [] ∨ node.layer.kind ≠ .split
      ∧ ∃ token, node.layer.token s = .ok token ∧ own = [token]) :
    n.pathFrom s (steps + 1) v = n.pathOnward (n.pathFrom s steps) v own := by
  have goesOn : ¬ (node.layer.kind = .concat ∧ 1 < n.graph.inDegree v) :=
    fun ⟨kind, several⟩ => single ⟨⟨node, there, kind⟩, several⟩
  rw [pathFrom, there]
  refine (if_neg goesOn).trans ?_
  rcases tokens with ⟨splits, rfl⟩ | ⟨splits, token, told, rfl⟩
  · rw [if_pos splits]
    rfl
  · rw [if_neg splits, told]
    rfl

section Telling

variable {n : Network} {rank : Nat → Nat} (narrow : n.Narrow rank)
  (bounded : ∀ v < n.graph.size, rank v < n.graph.size) {s : Store} {write : Nat → String}
  (tokens : ∀ v node, n.node? v = some node → node.layer.token s = .ok (write v))
include narrow

theorem pathOnward_eq {path : Nat → Checked Path} {route : Nat → Nat → Route} {v : Nat}
    (covers : ∀ u w, n.graph.Adj u w →
      n.Covers rank (fun u' x => u' = u ∧ x = w) (rank w) (route u w))
    (tells : ∀ u w, n.graph.Adj u w → rank v ≤ rank u → path w = .ok ((route u w).path write))
    (own : List String) :
    n.pathOnward path v own = .ok (((n.routeBehind route v).path write).after own) := by
  have leads (w) (member : w ∈ n.graph.successorsInOrder v) : n.graph.Adj v w :=
    (n.graph.mem_successorsInOrder v w).mp member
  have opened := covers_module narrow (nodup_successorsInOrder narrow.wellFormed) leads
    fun w member => covers v w (leads w member)
  have branches : (n.graph.successorsInOrder v).mapM path
      = .ok (((n.graph.successorsInOrder v).map (route v)).map (Route.path write)) := by
    rw [List.map_map]
    exact Outcome.mapM_eq_ok_iff.mpr (List.forall₂_map_right_iff.mpr (List.forall₂_same.mpr
      fun w member => tells v w (leads w member) (Nat.le_refl _)))
  unfold pathOnward routeBehind
  rcases targets : n.graph.successorsInOrder v with _ | ⟨next, _ | ⟨other, rest⟩⟩
  · simp [Route.path, Path.after, Figure.texts, pure, Except.pure]
  · have onward := tells v next (leads next (targets ▸ List.mem_cons_self)) (Nat.le_refl _)
    exact Outcome.bind_eq_ok_iff.mpr ⟨_, onward, rfl⟩
  · rw [targets] at branches opened
    refine Outcome.bind_eq_ok_iff.mpr ⟨_, branches, ?_⟩
    dsimp only
    generalize (next :: other :: rest).map (route v) = routes at opened ⊢
    obtain ⟨written, meets⟩ := Route.texts_module write routes
    rw [written, meets]
    cases merge : (Route.module routes).merge with
    | none => simp [Route.path, Path.after, merge, pure, Except.pure]
    | some met =>
      obtain ⟨concat, arrivals⟩ := met
      dsimp only
      by_cases all : arrivals ≠ n.graph.inDegree concat
      · rw [if_pos all, if_pos all]
        simp [Route.path, Path.after, merge, pure, Except.pure]
      · rw [if_neg all, if_neg all]
        have later := (opened.ends concat arrivals merge).2
        rcases onward : n.graph.successorsInOrder concat with _ | ⟨next, _⟩
        · simp [Route.path, Path.after, pure, Except.pure]
        · have edge : n.graph.Adj concat next :=
            (n.graph.mem_successorsInOrder concat next).mp (onward ▸ List.mem_cons_self)
          refine Outcome.bind_eq_ok_iff.mpr ⟨_, tells concat next edge (Nat.le_of_lt later), ?_⟩
          simp [Route.path, Route.after, Path.after, pure, Except.pure]

include bounded tokens

/-- The path from a node is what the route tells, if there are as many steps as later ranks. -/
theorem pathFrom_eq {steps v : Nat} (source : Option Nat) (inside : v < n.graph.size)
    (enough : n.graph.size < steps + rank v) :
    n.pathFrom s steps v = .ok ((n.routeFrom steps source v).path write) := by
  induction steps generalizing source v with
  | zero =>
    have := bounded v inside
    omega
  | succ steps ih =>
    rw [routeFrom]
    split
    next joins => exact pathFrom_of_joins joins
    next single =>
      obtain ⟨node, there⟩ : ∃ node, n.node? v = some node :=
        ⟨_, Array.getElem?_eq_getElem inside⟩
      have splits : n.Splits v ↔ node.layer.kind = .split := by simp [Splits, there]
      have own : node.layer.kind = .split ∧ Figure.texts write (n.ownFigures v) = []
          ∨ node.layer.kind ≠ .split ∧ ∃ token, node.layer.token s = .ok token
            ∧ Figure.texts write (n.ownFigures v) = [token] := by
        by_cases isSplit : n.Splits v
        · exact .inl ⟨splits.mp isSplit, by simp [ownFigures, isSplit, Figure.texts]⟩
        · refine .inr ⟨fun kind => isSplit (splits.mpr kind), _, tokens v node there, ?_⟩
          simp [ownFigures, isSplit, Figure.texts, Figure.text]
      rw [Route.path_after, pathFrom_of_single there single own]
      refine pathOnward_eq narrow (fun _ _ edge => covers_routeFrom narrow steps edge)
        (fun u w edge late => ih (some u) (narrow.wellFormed.inside u w edge).2 ?_) _
      have := narrow.ranked u w edge
      omega

end Telling

end Network

/-! ## Compiled networks -/

/-- Only a concatenation is handed more than one tensor. -/
theorem Layer.Accepts.length_eq_one {s : Store} {layer : Layer} {shapes : List Shape}
    (accepts : layer.Accepts s shapes) (alone : layer.kind ≠ .concat) : shapes.length = 1 := by
  cases accepts with
  | concat => exact absurd rfl alone
  | _ => rfl

/-- A layer with its parameters has a token. -/
theorem Layer.Accepts.exists_token {s : Store} {layer : Layer} {shapes : List Shape}
    (accepts : layer.Accepts s shapes) : ∃ token, layer.token s = .ok token := by
  cases accepts with
  | convolution windows kernel bias => exact ⟨_, Layer.token_convolution _ _ _ _ kernel⟩
  | recurrent summarize frame input state bias =>
    obtain ⟨t, found, -⟩ := Store.exists_tensor bias
    have there : (s.tensor _ : Checked Tensor) = .ok t := Outcome.get_eq_ok_iff.mpr found
    exact ⟨_, Outcome.bind_eq_ok_iff.mpr ⟨t, there, rfl⟩⟩
  | normalization => rw [Layer.token]; split <;> exact ⟨_, rfl⟩
  | _ => exact ⟨_, rfl⟩

theorem Digraph.HasOneRoot.exists_roots {α : Type} {g : Digraph α} (one : g.HasOneRoot) :
    ∃ root, g.roots = [root] := by
  obtain ⟨root, isRoot, unique⟩ := one
  have nodup : g.roots.Nodup := List.nodup_range.filter _
  refine ⟨root, List.perm_singleton.mp ?_⟩
  refine (List.perm_ext_iff_of_nodup nodup (List.nodup_singleton root)).mpr fun v => ?_
  rw [mem_roots_iff, List.mem_singleton]
  constructor
  · exact unique v
  · rintro rfl
    exact isRoot

/-- A move that comes to a node. -/
def Move.enters (v : Nat) : Move → Bool
  | .enter _ w => w == v
  | .pass _ => false

namespace Network

/-- A route that writes no layer twice. -/
structure WrittenOnce (n : Network) (route : Route) : Prop where
  /-- No layer is among the figures twice. -/
  once : (Figure.layersAll route.figures).Nodup
  /-- What is written are the layers that are passed and are neither splits nor concatenations of
  several edges. -/
  layers : Figure.layersAll route.figures = (passed route.moves).filter n.writes
  /-- Nodes other than these concatenations are entered at most once. -/
  entered : ∀ v, ¬ n.Joins v → route.moves.countP (Move.enters v) ≤ 1
  /-- The walk goes on behind a node at most once. -/
  passed : (passed route.moves).Nodup
  /-- And then it has come there over every edge, once over each. -/
  accounted : ∀ before v after, route.moves = before ++ .pass v :: after →
    (arrivals before v).Perm (n.graph.predecessors v)

section Compiled

variable {n : Network} {s : Store}

/-- In a network that fits, the order of execution ranks the nodes, and only concatenations have
several edges that enter them. -/
theorem Fit.narrow (fit : n.Fit s) : n.Narrow n.graph.executionOrder.idxOf where
  wellFormed := fit.dag.wellFormed
  ranked _ _ edge := Digraph.idxOf_executionOrder_lt fit.dag.wellFormed fit.dag.acyclic edge
  single v single u w edge edge' := by
    by_contra different
    have wf := fit.dag.wellFormed
    have several := (wf.one_lt_inDegree_iff v).mpr ⟨u, w, different, edge, edge'⟩
    obtain ⟨node, there⟩ : ∃ node, n.node? v = some node :=
      ⟨_, Array.getElem?_eq_getElem (wf.inside u v edge).2⟩
    have alone := (fit.accepts v node there).length_eq_one
      fun kind => single ⟨⟨node, there, kind⟩, several⟩
    have count := (n.graph.predecessorsInOrder_perm v).length_eq
    rw [Digraph.inDegree] at several
    unfold arriving shapesFrom at alone
    split at alone
    next none =>
      rw [List.isEmpty_iff_length_eq_zero.mp none] at count
      omega
    next =>
      rw [List.length_map] at alone
      omega

theorem Fit.exists_tokens (fit : n.Fit s) : ∃ write : Nat → String,
    ∀ v node, n.node? v = some node → node.layer.token s = .ok (write v) := by
  have told (v : Nat) : ∃ token, ∀ node, n.node? v = some node →
      node.layer.token s = .ok token := by
    cases there : n.node? v with
    | none => exact ⟨"", fun _ absurd => nomatch absurd⟩
    | some node =>
      obtain ⟨token, told⟩ := (fit.accepts v node there).exists_token
      exact ⟨token, by rintro _ ⟨⟩; exact told⟩
  choose write written using told
  exact ⟨write, written⟩

theorem Fit.bounded (fit : n.Fit s) {v : Nat} (inside : v < n.graph.size) :
    n.graph.executionOrder.idxOf v < n.graph.size := by
  have topological := Digraph.topological_executionOrder fit.dag.wellFormed fit.dag.acyclic
  have length := topological.perm_range.length_eq
  rw [List.length_range] at length
  rw [← length]
  exact List.idxOf_lt_length_of_mem (topological.complete v inside)

/-- Moves of which none is made twice, that follow edges and pass nodes in turn. -/
theorem WrittenOnce.of_walk {rank : Nat → Nat} (narrow : n.Narrow rank) {route : Route}
    (tells : n.Tells route) (nodup : route.moves.Nodup) (turns : n.InTurn [] route.moves)
    (leads : ∀ source x, .enter source x ∈ route.moves → n.Leads x source) :
    n.WrittenOnce route where
  once := tells.layers ▸ (nodup_passed nodup).filter _
  layers := tells.layers
  entered v single := by
    rw [List.countP_eq_length_filter]
    have entries := nodup.filter (Move.enters v)
    have same (move) (member : move ∈ route.moves.filter (Move.enters v)) :
        ∃ source, move = .enter source v ∧ n.Leads v source := by
      obtain ⟨member, enters⟩ := List.mem_filter.mp member
      match move, enters with
      | .enter source w, enters =>
        obtain rfl := beq_iff_eq.mp enters
        exact ⟨source, rfl, leads source w member⟩
    match entered : route.moves.filter (Move.enters v) with
    | [] => exact Nat.zero_le _
    | [_] => exact Nat.le_refl _
    | first :: second :: rest =>
      rw [entered] at entries same
      obtain ⟨source, rfl, lead⟩ := same first List.mem_cons_self
      obtain ⟨source', rfl, lead'⟩ := same second (List.mem_cons_of_mem _ List.mem_cons_self)
      have agree : source = source' := by
        match source, source', lead, lead' with
        | none, none, _, _ => rfl
        | none, some w, lead, lead' => exact absurd lead' (lead w)
        | some u, none, lead, lead' => exact absurd lead (lead' u)
        | some u, some w, lead, lead' => rw [narrow.single v single u w lead lead']
      exact absurd (agree ▸ List.mem_cons_self) (List.nodup_cons.mp entries).1
  passed := nodup_passed nodup
  accounted before v after split := by
    rw [split] at nodup turns leads
    refine (List.perm_ext_iff_of_nodup (nodup_arrivals (List.nodup_append.mp nodup).1)
      (narrow.wellFormed.nodup_predecessors v)).mpr fun u => ?_
    rw [mem_arrivals, Digraph.mem_predecessors]
    constructor
    · intro member
      exact leads (some u) v (List.mem_append_left _ member)
    · exact turns.due.2 u

/-- A walk from a root writes no layer twice. -/
theorem writtenOnce_routeFrom {rank : Nat → Nat} (narrow : n.Narrow rank) (steps : Nat)
    {root : Nat} (unentered : ∀ u, ¬ n.graph.Adj u root) :
    n.WrittenOnce (n.routeFrom steps none root) := by
  have tells := tells_routeFrom (n := n) steps none root
  cases steps with
  | zero =>
    refine .of_walk narrow tells (List.nodup_singleton _)
      ⟨fun _ absurd => (nomatch absurd), trivial⟩ fun source x member => ?_
    cases List.mem_singleton.mp member
    exact unentered
  | succ steps =>
    have single : ¬ n.Joins root := fun joins => by
      obtain ⟨u, -, -, edge, -⟩ := (narrow.wellFormed.one_lt_inDegree_iff root).mp joins.2
      exact unentered u edge
    have behind : n.Covers rank (fun u _ => u = root) (rank root + 1)
        (n.routeBehind (fun u w => n.routeFrom steps (some u) w) root) :=
      covers_routeBehind narrow fun _ _ edge => covers_routeFrom narrow steps edge
    obtain ⟨nodup, turns⟩ := walk_enter narrow behind.region single none unentered
    rw [routeFrom, if_neg single] at tells ⊢
    refine .of_walk narrow tells nodup turns fun source x member => ?_
    simp only [Route.after, List.cons_append, List.nil_append, List.mem_cons, Move.enter.injEq,
      reduceCtorEq, false_or] at member
    rcases member with ⟨rfl, rfl⟩ | member
    · exact unentered
    · obtain ⟨u, rfl, edge, -⟩ := behind.region.origins source x member
      exact edge

/-- The rendering of a compiled network returns, and writes no layer twice. -/
theorem writtenOnce_of_compile {text : String} {options : Options} {store store' : Store}
    (compiled : compile text options store = .ok (n, store')) :
    ∃ root, n.graph.roots = [root] ∧ n.WrittenOnce (n.routeFrom (n.nodeCount + 1) none root)
      ∧ ∀ s, store'.Evolves s → ∃ write : Nat → String,
        (∀ v node, n.node? v = some node → node.layer.token s = .ok (write v))
          ∧ n.pathFrom s (n.nodeCount + 1) root
            = .ok ((n.routeFrom (n.nodeCount + 1) none root).path write)
          ∧ n.architecture s = .ok (",".intercalate
            (Figure.texts write (n.routeFrom (n.nodeCount + 1) none root).figures)) := by
  obtain ⟨c, -, completed⟩ := completed_of_compile compiled
  obtain ⟨-, fit⟩ := fit_of_compile compiled
  obtain ⟨root, roots⟩ := completed.root.exists_roots
  obtain ⟨inside, unentered⟩ := (Digraph.mem_roots_iff n.graph root).mp
    (roots ▸ List.mem_singleton_self root)
  refine ⟨root, roots, writtenOnce_routeFrom fit.narrow _ unentered, fun s evolves => ?_⟩
  obtain ⟨write, tokens⟩ := (fit.evolves evolves).exists_tokens
  have enough : n.graph.size < n.nodeCount + 1 + n.graph.executionOrder.idxOf root := by
    rw [nodeCount]
    omega
  have path := pathFrom_eq fit.narrow (fun _ => fit.bounded) tokens none inside enough
  refine ⟨write, tokens, path, ?_⟩
  rw [architecture, roots]
  exact Outcome.bind_eq_ok_iff.mpr ⟨_, path, rfl⟩

/-- An inner module is left open in front of the node 5, which joins three edges. -/
theorem writtenOnce_of_compile_open : ∃ n store' root,
    compile "RELU,\x7bTANH,RELU~\x7bTANH,SOFTMAX\x7d\x7d"
        ⟨false, false, [2], .relu, .squared, 0, 0⟩ .empty = .ok (n, store')
      ∧ n.graph.edges = [(2, 7), (7, 4), (6, 2), (3, 5), (1, 5), (6, 1), (4, 5), (7, 3), (0, 6)]
      ∧ n.graph.roots = [root] ∧ n.WrittenOnce (n.routeFrom (n.nodeCount + 1) none root)
      ∧ ∃ write : Nat → String, n.architecture store' = .ok (",".intercalate
        (Figure.texts write (n.routeFrom (n.nodeCount + 1) none root).figures)) := by
  have compiles : (compile "RELU,\x7bTANH,RELU~\x7bTANH,SOFTMAX\x7d\x7d"
      ⟨false, false, [2], .relu, .squared, 0, 0⟩ .empty).toOption.any (fun built =>
        built.1.graph.edges == [(2, 7), (7, 4), (6, 2), (3, 5), (1, 5), (6, 1), (4, 5), (7, 3),
          (0, 6)]) = true := by
    unfold compile componentsOf ComponentGraph.normalize ComponentGraph.splitFanOut
      ComponentGraph.joinFanIn ComponentGraph.build buildNetwork buildLayer placementOf
      Digraph.insertAfter Digraph.insertBefore
    simp only [Digraph.successorsInOrder_eq_insertionSort,
      Digraph.predecessorsInOrder_eq_insertionSort]
    decide +kernel
  obtain ⟨⟨n, store'⟩, compiled, shown⟩ := except_exists_of_any compiles
  obtain ⟨root, roots, once, drawn⟩ := writtenOnce_of_compile compiled
  obtain ⟨write, -, -, architecture⟩ := drawn store' (.refl store')
  exact ⟨n, store', root, compiled, beq_iff_eq.mp shown, roots, once, write, architecture⟩

end Compiled

end Network

end LayerNet
