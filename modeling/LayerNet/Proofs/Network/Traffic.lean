import LayerNet.Network.Run
import LayerNet.Proofs.Digraph.Acyclic
import LayerNet.Proofs.Session.Runs

/-!
# Traffic — what waits on the edges of a network

Between two turns of a run, a tensor waits on every edge from a node that has had its turn to one
that has not, and on no edge that comes from elsewhere (`Network.Loaded`). A turn takes the tensors
on the edges into its node (`takeInputs_spec`), runs the layer (`run_runNode`) and loads the edges
out of it (`Loaded.deliver`). What the sinks give is told apart by their numbers (`given_deliver`).
-/

namespace LayerNet

namespace Traffic

/-- What a node has given as a sink. -/
def given (t : Traffic) (v : Nat) : List TensorId :=
  t.results.filterMap fun result => if result.1 = v then some result.2 else none

/-- Only tensors on edges into a node are gone. -/
structure Without (v : Nat) (t t' : Traffic) : Prop where
  results : t'.results = t.results
  others : ∀ e : Edge, e.2 ≠ v → t'.waiting.lookup e = t.waiting.lookup e
  fewer : t'.waiting ⊆ t.waiting

theorem Without.refl (v : Nat) (t : Traffic) : Without v t t where
  results := rfl
  others _ _ := rfl
  fewer := List.Subset.refl _

theorem Without.given {v : Nat} {t t' : Traffic} (without : Without v t t') (w : Nat) :
    t'.given w = t.given w := by
  rw [Traffic.given, without.results]
  rfl

theorem lookup_filter_ne (waiting : List (Edge × TensorId)) {e taken : Edge} (other : e ≠ taken) :
    (waiting.filter fun w => w.1 != taken).lookup e = waiting.lookup e := by
  induction waiting with
  | nil => rfl
  | cons w waiting ih =>
    obtain ⟨edge, id⟩ := w
    by_cases same : edge = taken
    · subst same
      rw [List.filter_cons_of_neg (by simp), ih, List.lookup_cons, beq_eq_false_iff_ne.mpr other]
    · rw [List.filter_cons_of_pos (by simpa using same), List.lookup_cons, List.lookup_cons, ih]

end Traffic

namespace Network

open Traffic

/-- Where a tensor waits on every edge, all inputs are found. -/
theorem takeInputs_spec (key : String) (v : Nat) {P : Nat → TensorId → Prop} {sources : List Nat}
    (nodup : sources.Nodup) {t : Traffic}
    (waits : ∀ p ∈ sources, ∃ id, t.waiting.lookup (p, v) = some id ∧ P p id) :
    ∃ ids t', takeInputs key v sources t = .ok (ids, t') ∧ List.Forall₂ P sources ids
      ∧ Without v t t' := by
  induction sources generalizing t with
  | nil => exact ⟨[], t, rfl, .nil, .refl v t⟩
  | cons p sources ih =>
    obtain ⟨new, nodup⟩ := List.nodup_cons.mp nodup
    obtain ⟨id, found, fits⟩ := waits p List.mem_cons_self
    obtain ⟨rest, left⟩ : ∃ rest : Traffic,
        rest = { t with waiting := t.waiting.filter fun w => w.1 != (p, v) } := ⟨_, rfl⟩
    have later (e : Edge) (other : e ≠ (p, v)) : rest.waiting.lookup e = t.waiting.lookup e := by
      rw [left]
      exact lookup_filter_ne t.waiting other
    obtain ⟨ids, t', taken, pairs, without⟩ := ih nodup (t := rest) fun q member => by
      obtain ⟨id', found', fits'⟩ := waits q (List.mem_cons_of_mem p member)
      refine ⟨id', ?_, fits'⟩
      rw [later (q, v) fun same => new ((Prod.mk.inj same).1 ▸ member), found']
    refine ⟨id :: ids, t', ?_, .cons fits pairs, ?_, fun e other => ?_, ?_⟩
    · unfold takeInputs
      rw [found]
      show (takeInputs key v sources _ >>= _) = _
      rw [left] at taken
      exact Outcome.bind_eq_ok_iff.mpr ⟨(ids, t'), taken, rfl⟩
    · rw [without.results, left]
    · rw [without.others e other, later e fun same => other (same ▸ rfl)]
    · intro w member
      have kept := without.fewer member
      rw [left] at kept
      exact (List.mem_filter.mp kept).1

/-! ## One turn -/

/-- What a node is handed: the network's input at a root, else what waits on its edges. -/
def handed (n : Network) (input : TensorId) (key : String) (v : Nat) (t : Traffic) :
    Checked (List TensorId × Traffic) :=
  if (n.graph.predecessorsInOrder v).isEmpty then .ok ([input], t)
  else takeInputs key v (n.graph.predecessorsInOrder v) t

/-- The place of a node among the successors of another, in order of creation. -/
def place (n : Network) (v w : Nat) : Nat := (n.graph.successorsInOrder v).idxOf w

/-- What a node gives is sent along its edges, or kept as a result where it has none. -/
def deliver (n : Network) (v : Nat) (outputs : List TensorId) (t : Traffic) : Traffic :=
  let successors := n.graph.successorsInOrder v
  if successors.isEmpty then { t with results := t.results ++ outputs.map fun id => (v, id) }
  else { t with waiting := t.waiting ++ (successors.map fun s => (v, s)).zip outputs }

section RunNode

variable {n : Network} {input : TensorId} {t t' : Traffic} {v : Nat} {node : Node}
  (label : n.node? v = some node) {inputs : List TensorId}
  (found : n.handed input node.key v t = .ok (inputs, t')) {m : Machine}
include label found

/-- A node's turn is the run of its layer on what it is handed. -/
theorem run_runNode : (n.runNode input t v).run m = (do
    let outputs ← node.layer.forward inputs
    let successors := n.graph.successorsInOrder v
    if outputs.length ≠ max successors.length 1 then
      Step.fail (.internal (.outputCount node.key outputs.length successors.length))
    else return n.deliver v outputs t' : Step TensorError Traffic).run m := by
  have sent (outputs : List TensorId) (t : Traffic) :
      (pure (n.deliver v outputs t) : Step TensorError Traffic) =
        if (n.graph.successorsInOrder v).isEmpty then
          pure { t with results := t.results ++ outputs.map fun id => (v, id) }
        else pure { t with waiting :=
          t.waiting ++ ((n.graph.successorsInOrder v).map fun s => (v, s)).zip outputs } :=
    apply_ite pure _ _ _
  unfold runNode
  rw [label]
  simp only [sent]
  unfold handed at found
  split at found
  next root =>
    cases found
    rw [if_pos root]
    rfl
  next entered =>
    rw [if_neg entered, found]
    rfl

end RunNode

section Deliver

variable (n : Network) (v : Nat) (outputs : List TensorId) (t : Traffic)

theorem length_successorsInOrder :
    (n.graph.successorsInOrder v).length = n.graph.outDegree v := by
  rw [Digraph.successorsInOrder, List.length_mergeSort, Digraph.outDegree]

theorem isEmpty_successorsInOrder :
    (n.graph.successorsInOrder v).isEmpty = true ↔ n.graph.outDegree v = 0 := by
  rw [List.isEmpty_iff_length_eq_zero, length_successorsInOrder]

/-- A tensor that waits goes on waiting. -/
theorem lookup_deliver {e : Edge} {id : TensorId} (found : t.waiting.lookup e = some id) :
    (n.deliver v outputs t).waiting.lookup e = some id := by
  unfold deliver
  dsimp only
  split
  · exact found
  · rw [List.lookup_append, found, Option.some_or]

/-- Tensors sent to nodes in order: each finds its own in its place. -/
theorem lookup_zip {successors : List Nat} {outputs : List TensorId}
    (enough : outputs.length = successors.length) {w : Nat} (member : w ∈ successors) :
    ((successors.map fun s => (v, s)).zip outputs).lookup (v, w)
      = outputs[successors.idxOf w]? := by
  induction successors generalizing outputs with
  | nil => exact absurd member List.not_mem_nil
  | cons s successors ih =>
    cases outputs with
    | nil => cases enough
    | cons id outputs =>
      rw [List.map_cons, List.zip_cons_cons, List.lookup_cons, List.idxOf_cons]
      by_cases same : s = w
      · subst same
        simp
      · have other : ((v, w) == (v, s)) = false := by simp [Ne.symm same]
        rw [other, beq_eq_false_iff_ne.mpr same]
        exact ih (Nat.succ.inj enough) ((List.mem_cons.mp member).resolve_left (Ne.symm same))

/-- The output in its place is sent along each edge on which nothing waits. -/
theorem lookup_deliver_new {w : Nat} (edge : n.graph.Adj v w)
    (enough : outputs.length = n.graph.outDegree v)
    (free : t.waiting.lookup (v, w) = none) :
    ∃ id, outputs[n.place v w]? = some id
      ∧ (n.deliver v outputs t).waiting.lookup (v, w) = some id := by
  have member : w ∈ n.graph.successorsInOrder v :=
    (Digraph.mem_successorsInOrder n.graph v w).mpr edge
  have count : outputs.length = (n.graph.successorsInOrder v).length := by
    rw [enough, length_successorsInOrder]
  have inside : n.place v w < outputs.length := by
    rw [count]
    exact List.idxOf_lt_length_of_mem member
  refine ⟨outputs[n.place v w], List.getElem?_eq_getElem inside, ?_⟩
  unfold deliver
  dsimp only
  rw [if_neg fun empty => List.not_mem_nil (List.isEmpty_iff.mp empty ▸ member),
    List.lookup_append, free, Option.none_or, lookup_zip v count member]
  exact List.getElem?_eq_getElem inside

/-- What waits after a turn waited before, or comes from there. -/
theorem mem_waiting_deliver {x : Edge × TensorId}
    (member : x ∈ (n.deliver v outputs t).waiting) : x ∈ t.waiting ∨ x.1.1 = v := by
  unfold deliver at member
  dsimp only at member
  split at member
  · exact .inl member
  · rcases List.mem_append.mp member with old | new
    · exact .inl old
    · refine .inr ?_
      obtain ⟨e, id⟩ := x
      obtain ⟨w, -, same⟩ := List.mem_map.mp (List.of_mem_zip new).1
      rw [← same]

/-- Only a sink gives results, all that its layer gave. -/
theorem given_deliver (w : Nat) : (n.deliver v outputs t).given w
    = t.given w ++ if w = v ∧ n.graph.outDegree v = 0 then outputs else [] := by
  unfold deliver Traffic.given
  dsimp only
  split
  next sink =>
    rw [isEmpty_successorsInOrder] at sink
    rw [List.filterMap_append, List.filterMap_map]
    congr 1
    by_cases same : w = v
    · rw [if_pos ⟨same, sink⟩, same]
      simp
    · rw [if_neg fun last => same last.1]
      simp [Ne.symm same]
  next branches =>
    rw [if_neg fun last => branches ((isEmpty_successorsInOrder n v).mpr last.2), List.append_nil]

end Deliver

/-- Tensors that are fit for their edges wait on those from the nodes met so far to the others,
and nothing waits on edges from the others. -/
structure Loaded (n : Network) (fits : Edge → TensorId → Prop) (met : List Nat) (t : Traffic) :
    Prop where
  waits : ∀ u v, n.graph.Adj u v → u ∈ met → v ∉ met →
    ∃ id, t.waiting.lookup (u, v) = some id ∧ fits (u, v) id
  sources : ∀ x ∈ t.waiting, x.1.1 ∈ met

namespace Loaded

variable {n : Network} {fits : Edge → TensorId → Prop} {met : List Nat} {t : Traffic}

theorem mono {fits' : Edge → TensorId → Prop} (loaded : n.Loaded fits met t)
    (weaker : ∀ e id, fits e id → fits' e id) : n.Loaded fits' met t where
  waits u v edge member later := by
    obtain ⟨id, found, fit⟩ := loaded.waits u v edge member later
    exact ⟨id, found, weaker (u, v) id fit⟩
  sources := loaded.sources

/-- Nothing waits on edges from nodes that have not had their turn. -/
theorem free (loaded : n.Loaded fits met t) {u : Nat} (new : u ∉ met) (w : Nat) :
    t.waiting.lookup (u, w) = none := by
  rw [Option.eq_none_iff_forall_ne_some]
  intro id found
  obtain ⟨before, after, split, -⟩ := List.lookup_eq_some_iff.mp found
  refine new (loaded.sources ((u, w), id) ?_)
  rw [split]
  exact List.mem_append_right _ List.mem_cons_self

/-- A node takes what waits for it and sends what it gives. -/
theorem deliver (loaded : n.Loaded fits met t) {v : Nat} (new : v ∉ met) {t' : Traffic}
    (without : Traffic.Without v t t') {outputs : List TensorId}
    (count : outputs.length = max (n.graph.outDegree v) 1)
    (fit : ∀ w id, outputs[n.place v w]? = some id → fits (v, w) id) :
    n.Loaded fits (v :: met) (n.deliver v outputs t') where
  waits u w edge member later := by
    rw [List.mem_cons, not_or] at later
    rcases List.mem_cons.mp member with rfl | member
    · have some_edge : 0 < n.graph.outDegree u :=
        List.length_pos_of_mem ((Digraph.mem_successors n.graph u w).mpr edge)
      have free : t'.waiting.lookup (u, w) = none := by
        rw [without.others (u, w) later.1, loaded.free new]
      obtain ⟨id, given, found⟩ := lookup_deliver_new n u outputs t' edge (by omega) free
      exact ⟨id, found, fit w id given⟩
    · obtain ⟨id, found, fit⟩ := loaded.waits u w edge member later.2
      rw [← without.others (u, w) later.1] at found
      exact ⟨id, lookup_deliver n v outputs t' found, fit⟩
  sources x member := by
    rcases mem_waiting_deliver n v outputs t' member with old | same
    · exact List.mem_cons_of_mem v (loaded.sources x (without.fewer old))
    · exact same ▸ List.mem_cons_self

end Loaded

end Network

end LayerNet
