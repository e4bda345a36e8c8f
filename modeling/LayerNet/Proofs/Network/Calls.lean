import LayerNet.Proofs.Network.Run

/-!
# Calls — a run of a network, layer by layer

A run of a network is a sequence of calls of its layers, each with what it was handed and what it
gave (`Network.Performs`). Every run that succeeds is one, whatever the order of its nodes
(`performs_iff`). In an order that puts nodes after their predecessors a call is wired
(`Performs.wired`): it was handed what the calls of the predecessors gave, to each edge the tensor in
its place. What the run gives are the tensors of the sinks (`Performs.results`).
-/

namespace LayerNet

namespace Network

open Traffic

/-- Runs the network on a batch, its nodes in a given order. -/
def forwardAlong (n : Network) (order : List Nat) (input : TensorId) :
    Step TensorError (List TensorId) := do
  let t ← order.foldlM (n.runNode input) ⟨[], []⟩
  return (List.range n.nodeCount).flatMap t.given

/-- The network is run in its order of execution. -/
theorem forwardAlong_executionOrder (n : Network) (input : TensorId) :
    n.forwardAlong n.graph.executionOrder input = n.forwardAll input := rfl

/-- A call of a node's layer: what it was handed and what it gave. -/
structure Call where
  node : Nat
  inputs : List TensorId
  outputs : List TensorId

/-- In a run from a machine, these calls were made one after the other, and nothing else was done.
They left the tensors on their way and the machine. -/
inductive Performs (n : Network) (input : TensorId) (m : Machine) :
    List Call → Traffic → Machine → Prop where
  | start : Performs n input m [] ⟨[], []⟩ m
  | call {calls : List Call} {t t₁ : Traffic} {m₁ m₂ : Machine} {v : Nat} {node : Node}
    {inputs outputs : List TensorId} : Performs n input m calls t m₁ → n.node? v = some node →
    n.handed input node.key v t = .ok (inputs, t₁) →
    (node.layer.forward inputs).run m₁ = (.ok outputs, m₂) →
    outputs.length = max (n.graph.outDegree v) 1 →
    Performs n input m (calls ++ [⟨v, inputs, outputs⟩]) (n.deliver v outputs t₁) m₂

/-- What a node is handed: the network's input at a root, and else one tensor for each predecessor,
in order of creation, that comes from there. -/
def Fed {α : Type} (n : Network) (input : α) (comes : Nat → α → Prop) (v : Nat) (inputs : List α) :
    Prop :=
  if n.graph.predecessorsInOrder v = [] then inputs = [input]
  else List.Forall₂ comes (n.graph.predecessorsInOrder v) inputs

/-- A call at the source of an edge gave a tensor for the edge: the one in the target's place among
the successors of the source. -/
def Sent (n : Network) (calls : List Call) (e : Edge) (id : TensorId) : Prop :=
  ∃ d ∈ calls, d.node = e.1 ∧ d.outputs[n.place e.1 e.2]? = some id

/-- A call was handed what the calls of the predecessors gave for the edges from there. -/
def Wired (n : Network) (input : TensorId) (calls : List Call) (c : Call) : Prop :=
  n.Fed input (fun p id => n.Sent calls (p, c.node) id) c.node c.inputs

variable {n : Network} {input : TensorId}

theorem Fed.imp {α : Type} {x : α} {comes comes' : Nat → α → Prop} {v : Nat} {inputs : List α}
    (fed : n.Fed x comes v inputs) (weaker : ∀ p y, comes p y → comes' p y) :
    n.Fed x comes' v inputs := by
  unfold Fed at fed ⊢
  split
  next root => rwa [if_pos root] at fed
  next entered =>
    rw [if_neg entered] at fed
    exact fed.imp weaker

theorem Sent.mono {calls calls' : List Call} {e : Edge} {id : TensorId} (sent : n.Sent calls e id)
    (more : calls ⊆ calls') : n.Sent calls' e id := by
  obtain ⟨d, member, sent⟩ := sent
  exact ⟨d, more member, sent⟩

theorem Wired.mono {calls calls' : List Call} {c : Call} (wired : n.Wired input calls c)
    (more : calls ⊆ calls') : n.Wired input calls' c :=
  Fed.imp wired fun _ _ sent => sent.mono more

/-! ## Runs are sequences of calls -/

/-- Where its inputs are not there, a node does not run. -/
theorem run_runNode_of_error {t : Traffic} {v : Nat} {node : Node} {m : Machine}
    (label : n.node? v = some node) {failure : Failure TensorError}
    (missing : n.handed input node.key v t = .error failure) :
    (n.runNode input t v).run m = (.error failure, m) := by
  unfold handed at missing
  split at missing
  · cases missing
  next entered =>
    unfold runNode
    rw [label]
    dsimp only
    rw [if_neg entered, missing]
    rfl

theorem run_runNode_eq_ok_iff {t t' : Traffic} {v : Nat} {node : Node} {m m' : Machine}
    (label : n.node? v = some node) : (n.runNode input t v).run m = (.ok t', m') ↔
      ∃ inputs t₁ outputs, n.handed input node.key v t = .ok (inputs, t₁)
        ∧ (node.layer.forward inputs).run m = (.ok outputs, m')
        ∧ outputs.length = max (n.graph.outDegree v) 1 ∧ n.deliver v outputs t₁ = t' := by
  cases found : n.handed input node.key v t with
  | error failure =>
    rw [run_runNode_of_error label found]
    constructor
    · intro run
      cases run
    · rintro ⟨_, _, _, taken, -⟩
      cases taken
  | ok taken =>
    obtain ⟨inputs, t₁⟩ := taken
    rw [run_runNode label found, Step.run_bind_eq_ok_iff]
    simp only [length_successorsInOrder]
    constructor
    · rintro ⟨outputs, m₁, ran, run⟩
      split at run
      · cases run
      next count =>
        cases run
        exact ⟨inputs, t₁, outputs, rfl, ran, not_not.mp count, rfl⟩
    · rintro ⟨_, _, outputs, ⟨⟩, ran, count, rfl⟩
      refine ⟨outputs, m', ran, ?_⟩
      rw [if_neg (not_not.mpr count)]
      rfl

/-- Nodes that have their turns one after the other make one call each, and in this order. -/
theorem performs_iff {order : List Nat} (inside : ∀ v ∈ order, v < n.graph.size) {m m' : Machine}
    {t : Traffic} : (order.foldlM (n.runNode input) ⟨[], []⟩).run m = (.ok t, m') ↔
      ∃ calls, calls.map Call.node = order ∧ n.Performs input m calls t m' := by
  induction order using List.reverseRecOn generalizing t m' with
  | nil =>
    constructor
    · intro run
      cases run
      exact ⟨[], rfl, .start⟩
    · rintro ⟨calls, none, performs⟩
      cases performs with
      | start => rfl
      | call => simp at none
  | append_singleton order v ih =>
    obtain ⟨node, label⟩ : ∃ node, n.node? v = some node :=
      ⟨_, Array.getElem?_eq_getElem (inside v (by simp))⟩
    have before w member := inside w (List.mem_append_left [v] member)
    simp only [List.foldlM_append, List.foldlM_cons, List.foldlM_nil, bind_pure,
      Step.run_bind_eq_ok_iff, run_runNode_eq_ok_iff label, ih before]
    constructor
    · rintro ⟨t, m₁, ⟨calls, nodes, performs⟩, inputs, t₁, outputs, taken, ran, count, rfl⟩
      refine ⟨calls ++ [⟨v, inputs, outputs⟩], ?_, .call performs label taken ran count⟩
      rw [List.map_append, nodes]
      rfl
    · rintro ⟨_, nodes, performs⟩
      cases performs with
      | start => simp at nodes
      | @call calls t t₁ m₁ _ w node inputs outputs performs there taken ran count =>
        rw [List.map_append] at nodes
        obtain ⟨rfl, last⟩ := List.append_inj' nodes rfl
        cases last
        rw [label] at there
        cases there
        exact ⟨t, m₁, ⟨calls, rfl, performs⟩, inputs, t₁, outputs, taken, ran, count, rfl⟩

/-! ## What a call was handed -/

theorem takeInputs_without {key : String} {v : Nat} {sources : List Nat} {t t' : Traffic}
    {ids : List TensorId} (taken : takeInputs key v sources t = .ok (ids, t')) : Without v t t' := by
  induction sources generalizing t ids with
  | nil =>
    cases taken
    exact .refl v _
  | cons p sources ih =>
    unfold takeInputs at taken
    split at taken
    · cases taken
    · obtain ⟨⟨rest, left⟩, later, taken⟩ := Outcome.bind_eq_ok_iff.mp taken
      cases taken
      have without := ih later
      refine ⟨without.results, fun e other => ?_, fun w member => ?_⟩
      · rw [without.others e other]
        exact lookup_filter_ne t.waiting fun same => other (same ▸ rfl)
      · exact (List.mem_filter.mp (without.fewer member)).1

theorem handed_without {key : String} {v : Nat} {t t' : Traffic} {ids : List TensorId}
    (taken : n.handed input key v t = .ok (ids, t')) : Without v t t' := by
  unfold handed at taken
  split at taken
  · cases taken
    exact .refl v _
  · exact takeInputs_without taken

/-- Where tensors wait on all edges into a node, it is handed these. -/
theorem Loaded.handed {fits : Edge → TensorId → Prop} {met : List Nat} {t : Traffic}
    (loaded : n.Loaded fits met t) (wf : n.graph.WellFormed) {v : Nat} (new : v ∉ met)
    (entered : ∀ u, n.graph.Adj u v → u ∈ met) (key : String) :
    ∃ inputs t', n.handed input key v t = .ok (inputs, t')
      ∧ n.Fed input (fun p id => fits (p, v) id) v inputs := by
  unfold Network.handed Fed
  simp only [← List.isEmpty_iff]
  split
  · exact ⟨[input], t, rfl, rfl⟩
  · have nodup : (n.graph.predecessorsInOrder v).Nodup :=
      (n.graph.predecessorsInOrder_perm v).nodup_iff.mpr (wf.nodup_predecessors v)
    obtain ⟨ids, t', taken, pairs, -⟩ := takeInputs_spec key v nodup fun p before => by
      have edge := (Digraph.mem_predecessorsInOrder n.graph v p).mp before
      exact loaded.waits p v edge (entered p edge) new
    exact ⟨ids, t', taken, pairs⟩

namespace Performs

variable {m m' : Machine} {calls : List Call} {t : Traffic}

/-- What waits on an edge is what the call at its source gave to it. -/
theorem loaded (performs : n.Performs input m calls t m')
    (ordered : n.graph.InOrder [] (calls.map Call.node)) :
    n.Loaded (Sent n calls) (calls.map Call.node).reverse t := by
  induction performs with
  | start =>
    exact ⟨fun _ _ _ member => absurd member List.not_mem_nil,
      fun _ member => absurd member List.not_mem_nil⟩
  | @call calls t t₁ m₁ m₂ v node inputs outputs performs label taken ran count ih =>
    rw [List.map_append, List.map_singleton] at ordered ⊢
    rw [List.reverse_append, List.reverse_singleton, List.singleton_append]
    obtain ⟨before, -, new, -⟩ := Digraph.inOrder_concat_iff.mp ordered
    rw [List.append_nil] at new
    have kept : n.Loaded (Sent n (calls ++ [⟨v, inputs, outputs⟩])) _ t :=
      (ih before).mono fun e id sent => sent.mono (List.subset_append_left _ _)
    refine kept.deliver new (handed_without taken) count fun w id given => ?_
    exact ⟨⟨v, inputs, outputs⟩, by simp, rfl, given⟩

/-- A node whose turn comes in order is handed what was sent to it. -/
theorem fed (performs : n.Performs input m calls t m') (wf : n.graph.WellFormed) {v : Nat}
    (ordered : n.graph.InOrder [] (calls.map Call.node ++ [v])) {key : String}
    {inputs : List TensorId} {t₁ : Traffic} (taken : n.handed input key v t = .ok (inputs, t₁)) :
    n.Fed input (fun p id => n.Sent calls (p, v) id) v inputs := by
  obtain ⟨before, -, new, entered⟩ := Digraph.inOrder_concat_iff.mp ordered
  rw [List.append_nil] at new entered
  obtain ⟨inputs', t', found, fed⟩ := (performs.loaded before).handed wf new entered key
  rw [taken] at found
  cases found
  exact fed

/-- Every call of a run in order is wired. -/
theorem wired (performs : n.Performs input m calls t m') (wf : n.graph.WellFormed)
    (ordered : n.graph.InOrder [] (calls.map Call.node)) : ∀ c ∈ calls, n.Wired input calls c := by
  induction performs with
  | start => exact fun c member => absurd member List.not_mem_nil
  | @call calls t t₁ m₁ m₂ v node inputs outputs performs label taken ran count ih =>
    rw [List.map_append, List.map_singleton] at ordered
    have more := List.subset_append_left calls [⟨v, inputs, outputs⟩]
    intro c member
    rcases List.mem_append.mp member with member | last
    · exact (ih (Digraph.inOrder_concat_iff.mp ordered).1 c member).mono more
    · rw [List.mem_singleton.mp last]
      exact Fed.imp (performs.fed wf ordered taken) fun _ _ sent => sent.mono more

/-- A sink gave what its call gave, and no other node gave anything. -/
theorem given (performs : n.Performs input m calls t m')
    (ordered : n.graph.InOrder [] (calls.map Call.node)) :
    (∀ c ∈ calls, t.given c.node = if n.graph.outDegree c.node = 0 then c.outputs else [])
      ∧ ∀ v ∉ calls.map Call.node, t.given v = [] := by
  induction performs with
  | start => exact ⟨fun c member => absurd member List.not_mem_nil, fun v _ => rfl⟩
  | @call calls t t₁ m₁ m₂ v node inputs outputs performs label taken ran count ih =>
    rw [List.map_append, List.map_singleton] at ordered ⊢
    obtain ⟨before, -, new, -⟩ := Digraph.inOrder_concat_iff.mp ordered
    rw [List.append_nil, List.mem_reverse] at new
    obtain ⟨gave, silent⟩ := ih before
    simp only [given_deliver, (handed_without taken).given]
    refine ⟨fun c member => ?_, fun w later => ?_⟩
    · rcases List.mem_append.mp member with member | last
      · have other : ¬ (c.node = v ∧ n.graph.outDegree v = 0) :=
          fun last => new (List.mem_map.mpr ⟨c, member, last.1⟩)
        rw [if_neg other, List.append_nil, gave c member]
      · rw [List.mem_singleton.mp last, silent v new]
        simp
    · rw [List.mem_append, List.mem_singleton, not_or] at later
      rw [silent w later.1, if_neg fun both => later.2 both.1, List.append_nil]

/-- A call gave as many tensors as edges leave its node, or one where none do. -/
theorem length_outputs (performs : n.Performs input m calls t m') :
    ∀ c ∈ calls, c.outputs.length = max (n.graph.outDegree c.node) 1 := by
  induction performs with
  | start => exact fun c member => absurd member List.not_mem_nil
  | call performs label taken ran count ih =>
    intro c member
    rcases List.mem_append.mp member with member | last
    · exact ih c member
    · rw [List.mem_singleton.mp last]
      exact count

/-- What a run over all nodes gives are the tensors of the sinks, in order of creation. -/
theorem results (performs : n.Performs input m calls t m')
    (ordered : n.graph.InOrder [] (calls.map Call.node))
    (complete : ∀ v < n.nodeCount, v ∈ calls.map Call.node) :
    List.Forall₂ (fun v id => ∃ c ∈ calls, c.node = v ∧ c.outputs = [id]) n.sinks
      ((List.range n.nodeCount).flatMap t.given) := by
  have gave := (performs.given ordered).1
  refine forall₂_flatMap (fun v member sink => ?_) fun v member branches => ?_
  · obtain ⟨c, called, rfl⟩ := List.mem_map.mp (complete v (List.mem_range.mp member))
    have sink := of_decide_eq_true sink
    have one := performs.length_outputs c called
    rw [sink] at one
    obtain ⟨id, only⟩ := List.length_eq_one_iff.mp one
    refine ⟨id, ?_, c, called, rfl, only⟩
    rw [gave c called, if_pos sink, only]
  · obtain ⟨c, called, rfl⟩ := List.mem_map.mp (complete v (List.mem_range.mp member))
    rw [gave c called, if_neg (of_decide_eq_false branches)]

end Performs

end Network

end LayerNet
