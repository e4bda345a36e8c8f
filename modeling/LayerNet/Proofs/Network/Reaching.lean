import LayerNet.Proofs.Layer.Consuming
import LayerNet.Proofs.Network.Calls
import LayerNet.Proofs.Network.Parameters

/-!
# Reaching — the replay leaves no parameter out

A run of a network is part of a recording, and so is whatever is added to gradients afterwards
(`Network.proceeds_forwardAll`, `Network.proceeds_seedLoss`). Every node has its turn in a run, and
in its turn a layer consumes its parameters, so a run that succeeds has consumed all parameters of
the network (`Network.consumes_forwardAll`). Hence the replay gives each of them a gradient. Which
sinks were seeded, and whether seeding succeeded, makes no difference to that: an operand receives
an amount from every entry that consumed it, if only zeros
(`Network.reaches_of_compile`).
-/

namespace LayerNet

open Step

namespace Network

variable {n : Network} {input : TensorId}

/-! ## Runs of networks -/

theorem proceeds_runNode (n : Network) (input : TensorId) (t : Traffic) (v : Nat) :
    (n.runNode input t v).Proceeds := by
  intro m sound
  cases label : n.node? v with
  | none =>
    unfold runNode
    rw [label]
    exact .refl
  | some node =>
    cases found : n.handed input node.key v t with
    | error failure => rw [run_runNode_of_error label found]
    | ok taken =>
      rw [run_runNode label found]
      refine (Layer.proceeds_forward _ _).bind (fun outputs => ?_) m sound
      dsimp only
      split
      · exact proceeds_fail _
      · exact proceeds_pure _

/-- A run of a network is part of a recording, whether it succeeds or not. -/
theorem proceeds_forwardAll (n : Network) (input : TensorId) : (n.forwardAll input).Proceeds :=
  (proceeds_foldlM (n.proceeds_runNode input) _ _).bind fun _ => proceeds_pure _

/-- In its turn, a node consumes the parameters of its layer. -/
theorem consumes_runNode {v : Nat} {node : Node} (label : n.node? v = some node) {id : TensorId}
    (parameter : id ∈ node.layer.parameters) (t : Traffic) :
    (n.runNode input t v).Consumes id := by
  intro m t' m' sound run
  obtain ⟨inputs, t₁, outputs, -, forward, -⟩ := (run_runNode_eq_ok_iff label).mp run
  exact Layer.consumes_forward inputs parameter m outputs m' sound forward

/-- A run that succeeds has consumed all parameters, since every node has its turn. -/
theorem consumes_forwardAll {id : TensorId} (parameter : id ∈ n.parameters) :
    (n.forwardAll input).Consumes id := by
  obtain ⟨node, executed, parameter⟩ := List.mem_flatMap.mp parameter
  obtain ⟨v, ordered, label⟩ := List.mem_filterMap.mp executed
  exact (consumes_foldlM (n.proceeds_runNode input) (consumes_runNode label parameter) ordered
    _).bind fun _ => proceeds_pure _

/-! ## Seeding -/

theorem proceeds_seedSinks (n : Network) (total : Float32)
    (sinks : List (Nat × TensorId × TensorId)) : (n.seedSinks total sinks).Proceeds := by
  induction sinks generalizing total with
  | nil => exact proceeds_pure _
  | cons sink rest ih =>
    obtain ⟨v, output, target⟩ := sink
    unfold seedSinks
    split
    · exact proceeds_lift _
    split
    · exact proceeds_fail _
    · exact (Loss.proceeds_seed _ _ _).bind fun value => ih _

theorem proceeds_seedLoss (n : Network) (outputs targets : List TensorId) :
    (n.seedLoss outputs targets).Proceeds := by
  unfold seedLoss
  dsimp only
  split
  · exact proceeds_fail _
  · exact n.proceeds_seedSinks _ _

/-- What a caller does to gradients before the replay: amounts are added to the gradient of a
tensor, a gradient is edited in place, or the losses of sinks are seeded. -/
inductive Seed where
  | accumulate (id : TensorId) (amounts : Buffer)
  | edit (id : TensorId) (change : Edit)
  | losses (outputs targets : List TensorId)

/-- What is done. -/
def Seed.perform (n : Network) : Seed → Step TensorError Unit
  | .accumulate id amounts => Access.accumulate id amounts
  | .edit id change => Access.editGradient id change
  | .losses outputs targets => do let _ ← n.seedLoss outputs targets

/-- A machine after some seeds, of which any may have failed. -/
def afterSeeds (n : Network) (m : Machine) (seeds : List Seed) : Machine :=
  seeds.foldl (fun m seed => ((seed.perform n).run m).2) m

theorem Seed.proceeds_perform (n : Network) (seed : Seed) : (seed.perform n).Proceeds := by
  cases seed with
  | accumulate id amounts => exact Access.proceeds_accumulate id amounts
  | edit id change => exact Access.proceeds_editGradient id change
  | losses outputs targets =>
    exact (n.proceeds_seedLoss outputs targets).bind fun _ => proceeds_pure _

/-- Seeding is part of a recording, by induction on the seeds. -/
theorem recording_afterSeeds (n : Network) {m : Machine} (sound : m.Sound) (seeds : List Seed) :
    Recording m (n.afterSeeds m seeds) := by
  induction seeds generalizing m with
  | nil => exact .refl
  | cons seed seeds ih =>
    have first := seed.proceeds_perform n m sound
    exact first.trans (ih (sound.of_recording first))

/-! ## Replays -/

/-- The parameters of a compiled network are those of its layers, each listed once. After a run that
succeeds in a new session, whether it trains or infers, and after any seeds, the entries are all
replayed, and then every parameter has a gradient that is as large as the parameter. -/
theorem reaches_of_compile {text : String} {options : Options} {store store' : Store}
    (compiled : compile text options store = .ok (n, store')) :
    n.parameters.Nodup
    ∧ n.parameters.Perm (n.nodes.flatMap fun node => node.layer.parameters)
    ∧ ∀ (m : Machine) (training : Bool), m.store.WellFormed → m.session = .fresh training →
      ∀ input ids m', (n.forwardAll input).run m = (.ok ids, m') →
      ∀ seeds, ∃ last, Session.finalize.run (n.afterSeeds m' seeds) = (.ok (), last)
        ∧ ∀ p ∈ n.parameters,
          ∃ t g, last.store.get? p = some t ∧ t.gradient = some g ∧ g.size = t.count := by
  obtain ⟨c, components, rest⟩ := Outcome.bind_eq_ok_iff.mp compiled
  obtain ⟨⟨n', supply⟩, built, made⟩ := Outcome.bind_eq_ok_iff.mp rest
  cases made
  obtain ⟨now, furnished, -⟩ := furnished_of_build
    (runnable_of_componentsOf components).dag.wellFormed built
  obtain ⟨-, fit⟩ := fit_of_compile compiled
  refine ⟨furnished.nodup fit.dag.wellFormed, parameters_perm fit.dag, ?_⟩
  intro m training wf new input ids m' run seeds
  have sound : m.Sound := Machine.sound_of_fresh wf (congrArg Session.finalized new)
    (congrArg Session.trace new)
  have ran := n.proceeds_forwardAll input m sound
  rw [run] at ran
  have sound' := sound.of_recording ran
  have seeded := n.recording_afterSeeds sound' seeds
  obtain ⟨last, finalized, reaches⟩ := Session.finalize_reaches (sound'.of_recording seeded)
  refine ⟨last, finalized, fun p parameter => reaches p ?_⟩
  exact (consumes_forwardAll parameter m ids m' sound run).2.recording seeded

/-- One of two sinks is seeded, and the parameters in front of the other have gradients as well. -/
theorem reaches_of_compile_fork : ∃ store store' n first second m' last,
    compile "A=2N,A~1N,A~2N" ⟨false, false, [2], .relu, .squared, 0, 0⟩ store = .ok (n, store')
      ∧ n.parameters.length = 6 ∧ n.parameters.Nodup
      ∧ (n.forwardAll ⟨0⟩).run ⟨store', Session.fresh true, Generator.ofSeed 0⟩
        = (.ok [first, second], m')
      ∧ Session.finalize.run (n.afterSeeds m' [.accumulate second #[1, 1]]) = (.ok (), last)
      ∧ ∀ p ∈ n.parameters,
        ∃ t g, last.store.get? p = some t ∧ t.gradient = some g ∧ g.size = t.count := by
  obtain ⟨rows, content⟩ : ∃ rows : Content, rows = ⟨[1, 2], [2, 1], #[1, 2]⟩ := ⟨_, rfl⟩
  obtain ⟨store, added⟩ : ∃ store, store = (Store.empty.add rows none).2 := ⟨_, rfl⟩
  have wf : store.WellFormed := by
    have adds : Store.Adds [rows] Store.empty [⟨0⟩] store := added ▸ .cons rfl rfl (.refl _)
    refine adds.wellFormed Store.wellFormed_empty (List.forall_mem_singleton.mpr ?_)
    rw [content]
    exact ⟨by decide, rfl, rfl⟩
  have read : readArchitecture "A=2N,A~1N,A~2N" = .ok [.define "A" [.token "2N"],
      .chain [.token "A", .token "1N"], .chain [.token "A", .token "2N"]] := rfl
  have runs : (compile "A=2N,A~1N,A~2N" ⟨false, false, [2], .relu, .squared, 0, 0⟩
      store).toOption.any (fun built => built.1.parameters.length == 6
        && ((built.1.forwardAll ⟨0⟩).run
          ⟨built.2, Session.fresh true, Generator.ofSeed 0⟩).1.toOption.any
            fun ids => ids.length == 2) = true := by
    rw [added, content]
    unfold compile componentsOf
    rw [read]
    unfold ComponentGraph.normalize ComponentGraph.splitFanOut ComponentGraph.joinFanIn
      ComponentGraph.build buildNetwork buildLayer placementOf Digraph.insertAfter
      Digraph.insertBefore forwardAll runNode
    simp only [Digraph.successorsInOrder_eq_insertionSort,
      Digraph.predecessorsInOrder_eq_insertionSort]
    decide +kernel
  obtain ⟨⟨n, store'⟩, compiled, runs⟩ := except_exists_of_any runs
  obtain ⟨six, runs⟩ := (Bool.and_eq_true _ _).mp runs
  cases run : (n.forwardAll ⟨0⟩).run ⟨store', Session.fresh true, Generator.ofSeed 0⟩ with
  | mk gave m' =>
    rw [run] at runs
    obtain ⟨ids, rfl, two⟩ := except_exists_of_any runs
    obtain ⟨first, second, rfl⟩ := List.length_eq_two.mp (eq_of_beq two)
    obtain ⟨nodup, -, reaches⟩ := reaches_of_compile compiled
    obtain ⟨last, finalized, gradients⟩ := reaches ⟨store', .fresh true, .ofSeed 0⟩ true
      ((fit_of_compile compiled).1.wellFormed wf) rfl ⟨0⟩ _ m' run [.accumulate second #[1, 1]]
    exact ⟨store, store', n, first, second, m', last, compiled, eq_of_beq six, nodup, run,
      finalized, gradients⟩

end Network

end LayerNet
