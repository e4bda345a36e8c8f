import LayerNet.Proofs.Digraph.Execution
import LayerNet.Proofs.Layer.Forward
import LayerNet.Proofs.Network.Build
import LayerNet.Proofs.Network.Traffic

/-!
# Shape soundness — compiled networks run

A network that fits runs on every batch of its input shape, unless a number leaves its range. The
invariant is about the nodes that have had their turn (`Moving`): on every edge from them to the
others waits a tensor of the shape that its source declares, and what the sinks among them gave is
kept. A node finds its inputs because all its predecessors came before it (`Moving.handed`), accepts
them because the network fits, and so gives as many tensors as it has edges (`Moving.runNode`).

The order of execution meets all nodes, so in the end every sink has given one tensor. For compiled
networks this is `forwardAll_compiled`.
-/

namespace LayerNet

namespace Network

/-- In the run from a machine, a node's turn comes, and its layer is handed tensors on a machine. -/
structure Turn (n : Network) (input : TensorId) (m : Machine) (v : Nat) (node : Node)
    (inputs : List TensorId) (m₁ : Machine) : Prop where
  label : n.node? v = some node
  reached : ∃ before after t t', n.graph.executionOrder = before ++ v :: after
    ∧ (before.foldlM (n.runNode input) ⟨[], []⟩).run m = (.ok t, m₁)
    ∧ n.handed input node.key v t = .ok (inputs, t')

/-- In the run from a machine, a node's layer gives tensors in its turn. -/
def Gave (n : Network) (input : TensorId) (m : Machine) (v : Nat) (outputs : List TensorId) :
    Prop :=
  ∃ node inputs m₁ m₂, n.Turn input m v node inputs m₁
    ∧ (node.layer.forward inputs).run m₁ = (.ok outputs, m₂)

/-- The tensors have the shape that a node declares, one for each edge or for the result. -/
def Declares (n : Network) (batch : Nat) (s : Store) (v : Nat) (outputs : List TensorId) : Prop :=
  s.Holds (List.replicate (max (n.graph.outDegree v) 1) (batch :: n.outputShape v)) outputs

/-- The nodes met so far have had their turns in a run that is still going. -/
structure Moving (n : Network) (input : TensorId) (batch : Nat) (m : Machine) (met : List Nat)
    (t : Traffic) (m₁ : Machine) : Prop where
  run : (met.reverse.foldlM (n.runNode input) ⟨[], []⟩).run m = (.ok t, m₁)
  ready : m₁.Ready
  keeps : m.store.Keeps m₁.store
  loaded : n.Loaded (fun e id => m₁.store.shape? id = some (batch :: n.outputShape e.1)) met t
  gave : ∀ v ∈ met, ∃ outputs, n.Gave input m v outputs ∧ n.Declares batch m₁.store v outputs
    ∧ t.given v = if n.graph.outDegree v = 0 then outputs else []
  silent : ∀ v, v ∉ met → t.given v = []

namespace Moving

variable {n : Network} {input : TensorId} {batch : Nat} {m : Machine}

theorem start (ready : m.Ready) : n.Moving input batch m [] ⟨[], []⟩ m where
  run := rfl
  ready := ready
  keeps := .refl m.store
  loaded := ⟨fun _ _ _ member => absurd member List.not_mem_nil,
    fun _ member => absurd member List.not_mem_nil⟩
  gave _ member := absurd member List.not_mem_nil
  silent _ _ := rfl

section Turn

variable (fit : n.Fit m.store) (shaped : m.store.shape? input = some (batch :: n.inputShape))
  {met : List Nat} {t : Traffic} {m₁ : Machine} (moving : n.Moving input batch m met t m₁) {v : Nat}
  (new : v ∉ met) (entered : ∀ u, n.graph.Adj u v → u ∈ met)
include fit shaped moving new entered

/-- When a node's turn comes, all its inputs are there. -/
theorem handed (key : String) : ∃ inputs t', n.handed input key v t = .ok (inputs, t')
    ∧ m₁.store.Holds ((n.arriving v).map (batch :: ·)) inputs ∧ Traffic.Without v t t' := by
  unfold Network.handed arriving shapesFrom
  split
  · exact ⟨[input], t, rfl, .cons (moving.keeps.shape? shaped) .nil, .refl v t⟩
  · have nodup : (n.graph.predecessorsInOrder v).Nodup :=
      (n.graph.predecessorsInOrder_perm v).nodup_iff.mpr (fit.dag.wellFormed.nodup_predecessors v)
    obtain ⟨ids, t', taken, pairs, without⟩ := takeInputs_spec key v nodup fun p before => by
      have edge := (Digraph.mem_predecessorsInOrder n.graph v p).mp before
      exact moving.loaded.waits p v edge (entered p edge) new
    refine ⟨ids, t', taken, ?_, without⟩
    rw [List.map_map, Store.Holds, List.forall₂_map_right_iff]
    exact pairs.flip

/-- What arrives suits the layer. -/
theorem forward {node : Node} (label : n.node? v = some node) {inputs : List TensorId}
    {t' : Traffic} (found : n.handed input node.key v t = .ok (inputs, t')) :
    Step.Gives (node.layer.forward inputs) m₁ fun s outputs => n.Declares batch s v outputs := by
  obtain ⟨inputs', t'', found', holds, -⟩ := moving.handed fit shaped new entered node.key
  rw [found'] at found
  cases found
  unfold Declares
  rw [← fit.counts v node label, outputShape_of_node? label]
  exact Layer.forward_gives ((fit.accepts v node label).keeps moving.keeps) holds

omit fit shaped entered in
/-- What a node gave in its turn is on its way. -/
theorem deliver {t' : Traffic} (without : Traffic.Without v t t') {m₂ : Machine}
    {outputs : List TensorId}
    (ran : (n.runNode input t v).run m₁ = (.ok (n.deliver v outputs t'), m₂)) (ready : m₂.Ready)
    (keeps : m₁.store.Keeps m₂.store) (gave : n.Gave input m v outputs)
    (declares : n.Declares batch m₂.store v outputs) :
    n.Moving input batch m (v :: met) (n.deliver v outputs t') m₂ where
  run := by
    rw [List.reverse_cons, List.foldlM_append, Step.run_bind_ok moving.run, List.foldlM_cons,
      Step.run_bind_ok ran]
    rfl
  ready := ready
  keeps := moving.keeps.trans keeps
  loaded := by
    have kept := moving.loaded.mono fun e id shaped => keeps.shape? shaped
    refine kept.deliver new without ?_ fun w id given => ?_
    · rw [declares.length_eq, List.length_replicate]
    · obtain ⟨shape, declared, shaped⟩ := declares.exists_shape (List.mem_of_getElem? given)
      exact List.eq_of_mem_replicate declared ▸ shaped
  gave w member := by
    rw [given_deliver, without.given]
    rcases List.mem_cons.mp member with rfl | member
    · refine ⟨outputs, gave, declares, ?_⟩
      rw [moving.silent w new, List.nil_append]
      simp only [true_and]
    · obtain ⟨outputs', gave', declares', given⟩ := moving.gave w member
      have other : ¬ (w = v ∧ n.graph.outDegree v = 0) := fun last => new (last.1 ▸ member)
      refine ⟨outputs', gave', declares'.mono keeps, ?_⟩
      rw [if_neg other, List.append_nil, given]
  silent w later := by
    rw [List.mem_cons, not_or] at later
    have other : ¬ (w = v ∧ n.graph.outDegree v = 0) := fun last => later.1 last.1
    rw [given_deliver, without.given, moving.silent w later.2, if_neg other]
    rfl

/-- A node more has its turn. -/
theorem runNode (inside : v < n.graph.size) {rest : List Nat}
    (order : n.graph.executionOrder = met.reverse ++ v :: rest) :
    (n.runNode input t v).Ensures m₁ fun t' m₂ => n.Moving input batch m (v :: met) t' m₂ := by
  obtain ⟨node, label⟩ : ∃ node, n.node? v = some node := ⟨_, Array.getElem?_eq_getElem inside⟩
  obtain ⟨inputs, t', found, -, without⟩ := moving.handed fit shaped new entered node.key
  have turn : n.Turn input m v node inputs m₁ :=
    ⟨label, met.reverse, rest, t, t', order, moving.run, found⟩
  have ran := run_runNode label found (m := m₁)
  rcases moving.forward fit shaped new entered label found moving.ready with
    out | ⟨outputs, m₂, forward, ready, keeps, declares⟩
  · rw [Step.Ensures, ran]
    exact .inl (Step.outOfRange_bind out)
  have count : outputs.length = max (n.graph.successorsInOrder v).length 1 := by
    rw [declares.length_eq, List.length_replicate, length_successorsInOrder]
  rw [Step.run_bind_ok forward, if_neg (not_not.mpr count)] at ran
  exact .inr ⟨n.deliver v outputs t', m₂, ran, moving.deliver new without ran ready keeps
    ⟨node, inputs, m₁, m₂, turn, forward⟩ declares⟩

end Turn

variable (fit : n.Fit m.store) (shaped : m.store.shape? input = some (batch :: n.inputShape))
include fit shaped

/-- Nodes have their turns in order of execution, by induction on the order. -/
theorem foldlM {met : List Nat} {t : Traffic} {m₁ : Machine}
    (moving : n.Moving input batch m met t m₁) {order rest : List Nat}
    (ordered : n.graph.executionOrder = met.reverse ++ (order ++ rest)) :
    (order.foldlM (n.runNode input) t).Ensures m₁ fun t' m₂ =>
      n.Moving input batch m (order.reverse ++ met) t' m₂ := by
  induction order generalizing met t m₁ with
  | nil => exact .inr ⟨t, m₁, rfl, moving⟩
  | cons v order ih =>
    obtain ⟨inside, new, entered⟩ := Digraph.due_of_executionOrder fit.dag.wellFormed ordered
    rw [List.reverse_reverse] at new entered
    rw [List.foldlM_cons]
    refine (moving.runNode fit shaped new entered inside ordered).bind fun t' m₂ moving => ?_
    rw [List.reverse_cons, List.append_assoc]
    exact ih moving (by simpa using ordered)

end Moving

/-! ## Runs of whole networks -/

/-- One element for each member that passes a test, and none for the others. -/
theorem forall₂_flatMap {α β : Type} {p : α → Bool} {f : α → List β} {R : α → β → Prop}
    {xs : List α} (passing : ∀ x ∈ xs, p x = true → ∃ y, f x = [y] ∧ R x y)
    (others : ∀ x ∈ xs, p x = false → f x = []) :
    List.Forall₂ R (xs.filter p) (xs.flatMap f) := by
  induction xs with
  | nil => exact .nil
  | cons x xs ih =>
    have rest := ih (fun y member => passing y (List.mem_cons_of_mem x member))
      fun y member => others y (List.mem_cons_of_mem x member)
    rw [List.flatMap_cons]
    cases passes : p x with
    | true =>
      obtain ⟨y, only, related⟩ := passing x List.mem_cons_self passes
      rw [List.filter_cons_of_pos passes, only]
      exact .cons related rest
    | false =>
      rw [List.filter_cons_of_neg (by rw [passes]; exact Bool.false_ne_true),
        others x List.mem_cons_self passes]
      exact rest

namespace Fit

variable {n : Network} {m : Machine} (fit : n.Fit m.store) (ready : m.Ready) {input : TensorId}
  {batch : Nat} (shaped : m.store.shape? input = some (batch :: n.inputShape))
include fit ready shaped

/-- Whenever a layer's turn comes, it gives what it declares. -/
theorem forward {v : Nat} {node : Node} {inputs : List TensorId} {m₁ : Machine}
    (turn : n.Turn input m v node inputs m₁) :
    (node.layer.forward inputs).Ensures m₁ fun outputs m₂ =>
      n.Declares batch m₂.store v outputs := by
  obtain ⟨before, after, t, t', order, ran, found⟩ := turn.reached
  have moving := ((Moving.start ready).foldlM fit shaped order).of_run ran
  rw [List.append_nil] at moving
  obtain ⟨-, new, entered⟩ := Digraph.due_of_executionOrder fit.dag.wellFormed order
  refine (moving.forward fit shaped new entered turn.label found moving.ready).mono ?_
  rintro outputs m₂ ⟨-, -, declares⟩
  exact declares

/-- A run gives one result for each sink, after all layers gave what they declare. -/
theorem forwardAll : (n.forwardAll input).Ensures m fun ids m' =>
    (∀ v < n.nodeCount, ∃ outputs,
      n.Gave input m v outputs ∧ n.Declares batch m'.store v outputs)
    ∧ List.Forall₂ (fun v id => n.Gave input m v [id]
      ∧ m'.store.shape? id = some (batch :: n.outputShape v)) n.sinks ids := by
  have ordered : n.graph.executionOrder = [].reverse ++ (n.graph.executionOrder ++ []) := by
    rw [List.append_nil]
    rfl
  refine ((Moving.start ready).foldlM fit shaped ordered).bind fun t m' moving => ?_
  rw [List.append_nil] at moving
  have met {v : Nat} (inside : v < n.graph.size) : v ∈ n.graph.executionOrder.reverse :=
    List.mem_reverse.mpr (Digraph.mem_executionOrder fit.dag.wellFormed fit.dag.acyclic inside)
  refine .inr ⟨_, m', rfl, fun v inside => ?_, forall₂_flatMap (fun v member sink => ?_)
    fun v member branches => ?_⟩
  · obtain ⟨outputs, gave, declares, -⟩ := moving.gave v (met inside)
    exact ⟨outputs, gave, declares⟩
  · obtain ⟨outputs, gave, declares, given⟩ := moving.gave v (met (List.mem_range.mp member))
    have sink := of_decide_eq_true sink
    rw [if_pos sink] at given
    rw [Declares, sink] at declares
    rcases declares with _ | @⟨id, _, _, _, shaped, ⟨⟩⟩
    exact ⟨id, given, gave, shaped⟩
  · obtain ⟨outputs, -, -, given⟩ := moving.gave v (met (List.mem_range.mp member))
    rw [if_neg (of_decide_eq_false branches)] at given
    exact given

end Fit

/-- A network that was compiled runs on every batch of its input shape while the session records,
unless a number leaves its range: it gives one result for each sink, in order of creation, each of
the shape that the sink's layer declares, and so do all layers in their turns. -/
theorem forwardAll_compiled {text : String} {options : Options} {store store' : Store} {n : Network}
    (compiled : compile text options store = .ok (n, store')) (wf : store.WellFormed) {m : Machine}
    (later : store'.Evolves m.store) (recording : m.session.finalized = false) {input : TensorId}
    {batch : Nat} (shaped : m.store.shape? input = some (batch :: n.inputShape)) :
    ((n.forwardAll input).Ensures m fun ids m' =>
      (∀ v < n.nodeCount, ∃ outputs,
        n.Gave input m v outputs ∧ n.Declares batch m'.store v outputs)
      ∧ List.Forall₂ (fun v id => n.Gave input m v [id]
        ∧ m'.store.shape? id = some (batch :: n.outputShape v)) n.sinks ids)
    ∧ ∀ v node inputs m₁, n.Turn input m v node inputs m₁ →
      (node.layer.forward inputs).Ensures m₁ fun outputs m₂ =>
        n.Declares batch m₂.store v outputs := by
  obtain ⟨evolves, fit⟩ := fit_of_compile compiled
  have ready : m.Ready := ⟨recording, later.wellFormed (evolves.wellFormed wf)⟩
  have fits := fit.evolves later
  exact ⟨fits.forwardAll ready shaped, fun v node inputs m₁ turn => fits.forward ready shaped turn⟩

/-- Two layers, compiled into a store that holds a batch of three samples. -/
theorem forwardAll_compiled_chain : ∃ store store' n,
    compile "2N~1N" { Options.standard with inputShape := [2] } store = .ok (n, store')
      ∧ store'.shape? ⟨0⟩ = some (3 :: n.inputShape)
      ∧ (n.forwardAll ⟨0⟩).Ensures ⟨store', Session.fresh true, Generator.ofSeed 0⟩ fun ids m =>
        List.Forall₂ (fun v id => m.store.shape? id = some (3 :: n.outputShape v)) n.sinks ids := by
  obtain ⟨rows, content⟩ : ∃ rows : Content, rows = ⟨[3, 2], [2, 1], #[1, 2, 3, 4, 5, 6]⟩ :=
    ⟨_, rfl⟩
  obtain ⟨store, added⟩ : ∃ store, store = (Store.empty.add rows none).2 := ⟨_, rfl⟩
  have wf : store.WellFormed := by
    have adds : Store.Adds [rows] Store.empty [⟨0⟩] store := added ▸ .cons rfl rfl (.refl _)
    refine adds.wellFormed Store.wellFormed_empty fun c member => ?_
    rw [List.mem_singleton.mp member, content]
    exact ⟨by decide, rfl, rfl⟩
  have read : readArchitecture "2N~1N" = .ok [.chain [.token "2N", .token "1N"]] := rfl
  obtain ⟨n, store', compiled, entry⟩ : ∃ n store',
      compile "2N~1N" { Options.standard with inputShape := [2] } store = .ok (n, store')
        ∧ n.inputShape = [2] := by
    have passes : (compile "2N~1N" { Options.standard with inputShape := [2] } store).toOption.any
        (fun result => result.1.inputShape == [2]) = true := by
      rw [added, content]
      unfold compile componentsOf
      rw [read]
      decide +kernel
    cases result : compile "2N~1N" { Options.standard with inputShape := [2] } store with
    | error failure =>
      rw [result] at passes
      cases passes
    | ok built =>
      rw [result] at passes
      exact ⟨built.1, built.2, rfl, eq_of_beq passes⟩
  have shaped : store'.shape? ⟨0⟩ = some (3 :: n.inputShape) := by
    rw [entry]
    refine (fit_of_compile compiled).1.shape? ⟨0⟩ [3, 2] ?_
    rw [added, content]
    rfl
  have ran := forwardAll_compiled compiled wf
    (m := ⟨store', Session.fresh true, Generator.ofSeed 0⟩) (.refl store') rfl shaped
  refine ⟨store, store', n, compiled, shaped, ran.1.mono ?_⟩
  rintro ids m ⟨-, results⟩
  exact results.imp fun _ _ given => given.2

/-- Two inputs, one after the other, pass a batch of two samples on. -/
theorem exists_passing_run : ∃ store store' n x m',
    compile "2~-1" ⟨false, false, [2], .relu, .squared, 0, 0⟩ store = .ok (n, store')
      ∧ store.WellFormed ∧ n.inputShape = [2]
      ∧ store'.content? ⟨0⟩ = some x ∧ x.shape = [2, 2]
      ∧ (n.forwardAll ⟨0⟩).run ⟨store', Session.fresh false, Generator.ofSeed 0⟩
        = (.ok [⟨0⟩], m') := by
  obtain ⟨rows, content⟩ : ∃ rows : Content, rows = ⟨[2, 2], [2, 1], #[1, 2, 3, 4]⟩ := ⟨_, rfl⟩
  obtain ⟨store, added⟩ : ∃ store, store = (Store.empty.add rows none).2 := ⟨_, rfl⟩
  have wf : store.WellFormed := by
    have adds : Store.Adds [rows] Store.empty [⟨0⟩] store := added ▸ .cons rfl rfl (.refl _)
    refine adds.wellFormed Store.wellFormed_empty fun c member => ?_
    rw [List.mem_singleton.mp member, content]
    exact ⟨by decide, rfl, rfl⟩
  have read : readArchitecture "2~-1" = .ok [.chain [.token "2", .token "-1"]] := rfl
  have passes : (compile "2~-1" ⟨false, false, [2], .relu, .squared, 0, 0⟩ store).toOption.any
      (fun built => built.1.inputShape == [2] && ((built.1.forwardAll ⟨0⟩).run
        ⟨built.2, Session.fresh false, Generator.ofSeed 0⟩).1.toOption == some [⟨0⟩]) = true := by
    rw [added, content]
    unfold compile componentsOf
    rw [read]
    decide +kernel
  obtain ⟨⟨n, store'⟩, compiled, passes⟩ := except_exists_of_any passes
  obtain ⟨entry, passes⟩ := (Bool.and_eq_true _ _).mp passes
  obtain ⟨x, there, shaped⟩ := Store.exists_content
    ((fit_of_compile compiled).1.shape? ⟨0⟩ [2, 2] (by rw [added, content]; rfl))
  cases run : (n.forwardAll ⟨0⟩).run ⟨store', Session.fresh false, Generator.ofSeed 0⟩ with
  | mk gave m' =>
    rw [run] at passes
    cases gave with
    | error failure => cases eq_of_beq passes
    | ok ids =>
      cases eq_of_beq passes
      exact ⟨store, store', n, x, m', compiled, wf, eq_of_beq entry, there, shaped, run⟩

end Network

end LayerNet
