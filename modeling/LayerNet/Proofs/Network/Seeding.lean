import LayerNet.Proofs.Digraph.Neighbours
import LayerNet.Proofs.Failures
import LayerNet.Proofs.Network.Regular

/-!
# Seeding — what a failure leaves behind

The losses of a network are seeded one after the other. Each is seeded completely or not at all
(`Loss.run_seed`), and counts are compared before the first. But a target of another shape, or a
sink without a loss, is found only when its turn comes, so a failure leaves the gradients of the
sinks before it (`Network.seedLoss_failure`, by induction on the sinks), and seeding again adds to
them once more. Nothing else has changed: no value or shape, no gradient of another tensor. With one
sink, therefore, seeding is all or nothing (`Network.allOrNothing_seedLoss`), with two it is not
(`Network.not_allOrNothing_seedLoss`).

Seeding succeeds when there is a loss at every sink and a target of the shape of every output
(`Network.seedLoss_succeeds`). With losses at all sinks and the right counts, it is never refused as
unsupported (`Network.seedLoss_supported`).
-/

namespace LayerNet

open Step

/-- The gradient of an output was added to, and nothing else was changed. -/
structure Machine.Seeded (outputs : List TensorId) (m m' : Machine) : Prop where
  session : m'.session = m.session
  noise : m'.noise = m.noise
  contents : ∀ id, m'.store.content? id = m.store.content? id
  others : ∀ id ∉ outputs, m'.store.get? id = m.store.get? id

namespace Machine.Seeded

theorem refl (m : Machine) : Seeded [] m m := ⟨rfl, rfl, fun _ => rfl, fun _ _ => rfl⟩

theorem trans {outputs outputs' : List TensorId} {m₁ m₂ m₃ : Machine}
    (first : Seeded outputs m₁ m₂) (second : Seeded outputs' m₂ m₃) :
    Seeded (outputs ++ outputs') m₁ m₃ where
  session := second.session.trans first.session
  noise := second.noise.trans first.noise
  contents id := (second.contents id).trans (first.contents id)
  others id out := by
    rw [List.mem_append, not_or] at out
    exact (second.others id out.2).trans (first.others id out.1)

end Machine.Seeded

namespace Loss

/-- A loss is seeded completely, or nothing is done. -/
theorem run_seed (loss : Loss) (output target : TensorId) (m : Machine) :
    (∃ failure, (loss.seed output target).run m = (.error failure, m))
      ∨ ∃ value m', (loss.seed output target).run m = (.ok value, m') ∧ m.Seeded [output] m' := by
  unfold seed
  rcases run_bind_tensor output _ m with ⟨failure, run⟩ | ⟨predicted, there, run⟩ <;> rw [run]
  · exact .inl ⟨failure, rfl⟩
  rcases run_bind_tensor target _ m with ⟨failure, run⟩ | ⟨expected, -, run⟩ <;> rw [run]
  · exact .inl ⟨failure, rfl⟩
  split
  · exact .inl ⟨_, rfl⟩
  dsimp only
  generalize Buffer.combine (fun y t => (y - t) / Float32.ofNat (predicted.shape.extent 0))
    predicted.values expected.values = gradient
  cases seeded : predicted.accumulate gradient with
  | error failure => exact .inl ⟨failure, run_bind_error (run_lift _ m)⟩
  | ok tensor =>
    have content : tensor.toContent = predicted.toContent := by
      unfold Tensor.accumulate at seeded
      split at seeded <;> cases seeded
      rfl
    refine .inr ⟨_, _, rfl, rfl, rfl, fun id => ?_, fun id out => ?_⟩
    · show (m.store.put output tensor).content? id = m.store.content? id
      by_cases same : output = id
      · subst same
        rw [Store.content?, Store.get?_put _ _ (Store.index_lt_of_get? there), Store.content?,
          there, Option.map_some, Option.map_some, content]
      · rw [Store.content?, Store.get?_put_of_ne _ _ same, Store.content?]
    · exact Store.get?_put_of_ne _ _ fun same => out (List.mem_singleton.mpr same.symm)

/-- A loss is seeded where output and target have one shape. -/
theorem run_seed_of_shape {m : Machine} (regular : m.store.Regular) {output target : TensorId}
    {predicted expected : Content} (there : m.store.content? output = some predicted)
    (there' : m.store.content? target = some expected) (same : expected.shape = predicted.shape)
    (loss : Loss) : ∃ value m', (loss.seed output target).run m = (.ok value, m') := by
  obtain ⟨t, found, rfl⟩ := Option.map_eq_some_iff.mp there
  obtain ⟨t', found', rfl⟩ := Option.map_eq_some_iff.mp there'
  have sizes : t'.values.size = t.values.size := by
    rw [(regular target t' found').content.values, (regular output t found).content.values, same]
  unfold seed
  rw [run_bind_ok (run_tensor found), run_bind_ok (run_tensor found'), if_neg (not_not.mpr same)]
  dsimp only
  rw [Tensor.accumulate, if_neg (not_not.mpr ?_)]
  · exact ⟨_, _, rfl⟩
  · rw [Buffer.size_combine, sizes, Nat.min_self]
    rfl

/-- Seeding one loss is never refused as unsupported. -/
theorem seed_supported (loss : Loss) (output target : TensorId) (m : Machine) :
    FailsOnly (Failure.Blames fun cause => ∀ reason, cause ≠ .unsupported reason)
      ((loss.seed output target).run m).1 := by
  have missing {α : Type} {id : TensorId} (none : m.store.get? id = none)
      (f : Tensor → Step TensorError α) :
      FailsOnly (Failure.Blames fun cause => ∀ reason, cause ≠ .unsupported reason)
        ((Step.tensor id >>= f).run m).1 := by
    have fails : (Step.tensor id : Step TensorError Tensor).run m = (Outcome.fatal, m) := by
      show ((m.store.tensor id : Checked Tensor), m) = _
      rw [Store.tensor, none]
      rfl
    rw [run_bind_error fails]
    exact .stop trivial
  unfold seed
  cases found : m.store.get? output with
  | none => exact missing found _
  | some predicted =>
    rw [run_bind_ok (run_tensor found)]
    cases found' : m.store.get? target with
    | none => exact missing found' _
    | some expected =>
      rw [run_bind_ok (run_tensor found')]
      split
      · exact .fail fun _ same => by cases same
      dsimp only
      rw [Tensor.accumulate]
      split
      · exact .fail fun _ same => by cases same
      · exact .ok _

end Loss

namespace Network

variable {n : Network} {total : Float32} {m m' : Machine} {failure : Failure TensorError}

/-- There is a loss at a sink, and output and target have one shape. -/
def Seedable (n : Network) (s : Store) (sink : Nat) (output target : TensorId) : Prop :=
  ∃ node loss predicted expected, n.node? sink = some node ∧ node.layer.loss? = some loss
    ∧ s.content? output = some predicted ∧ s.content? target = some expected
    ∧ expected.shape = predicted.shape

theorem Seedable.of_seeded {outputs : List TensorId} (seeded : m.Seeded outputs m') {sink : Nat}
    {output target : TensorId} (seedable : n.Seedable m.store sink output target) :
    n.Seedable m'.store sink output target := by
  unfold Seedable
  rw [seeded.contents, seeded.contents]
  exact seedable

/-- The first sink fails and nothing is done, or it is seeded and the others follow. -/
theorem run_seedSinks_cons (n : Network) (total : Float32) (sink : Nat) (output target : TensorId)
    (m : Machine) :
    (∃ failure, ∀ rest, (n.seedSinks total ((sink, output, target) :: rest)).run m
        = (.error failure, m))
      ∨ ∃ value m', m.Seeded [output] m'
        ∧ ∀ rest, (n.seedSinks total ((sink, output, target) :: rest)).run m
          = (n.seedSinks (total + value) rest).run m' := by
  simp only [seedSinks]
  cases n.node? sink with
  | none => exact .inl ⟨_, fun _ => rfl⟩
  | some node =>
    dsimp only
    cases node.layer.loss? with
    | none => exact .inl ⟨_, fun _ => rfl⟩
    | some loss =>
      dsimp only
      rcases loss.run_seed output target m with ⟨failure, run⟩ | ⟨value, m', run, seeded⟩
      · exact .inl ⟨failure, fun _ => run_bind_error run⟩
      · exact .inr ⟨value, m', seeded, fun _ => run_bind_ok run⟩

/-- Where seeding fails at a sink, those before it have been seeded. -/
theorem run_seedSinks_error {sinks : List (Nat × TensorId × TensorId)}
    (run : (n.seedSinks total sinks).run m = (.error failure, m')) :
    ∃ before sink after total', sinks = before ++ sink :: after
      ∧ (n.seedSinks total before).run m = (.ok total', m')
      ∧ (n.seedSinks total' [sink]).run m' = (.error failure, m')
      ∧ m.Seeded (before.map fun sink => sink.2.1) m' := by
  induction sinks generalizing total m with
  | nil => cases run
  | cons first rest ih =>
    obtain ⟨sink, output, target⟩ := first
    rcases n.run_seedSinks_cons total sink output target m with
      ⟨failure', fails⟩ | ⟨value, m₁, seeded, goesOn⟩
    · cases (fails rest).symm.trans run
      exact ⟨[], _, rest, total, rfl, rfl, fails [], .refl _⟩
    · rw [goesOn] at run
      obtain ⟨before, failing, after, total', rfl, run, fails, seeded'⟩ := ih run
      exact ⟨_ :: before, failing, after, total', rfl, (goesOn before).trans run, fails,
        seeded.trans seeded'⟩

/-- On regular tensors, all sinks that can be seeded are. -/
theorem run_seedSinks_of_seedable (total : Float32) (regular : m.store.Regular)
    {sinks : List (Nat × TensorId × TensorId)}
    (seedable : ∀ sink output target, (sink, output, target) ∈ sinks →
      n.Seedable m.store sink output target) :
    ∃ total' m', (n.seedSinks total sinks).run m = (.ok total', m')
      ∧ m.Seeded (sinks.map fun sink => sink.2.1) m' := by
  induction sinks generalizing total m with
  | nil => exact ⟨total, m, rfl, .refl m⟩
  | cons first rest ih =>
    obtain ⟨sink, output, target⟩ := first
    obtain ⟨node, loss, predicted, expected, label, isLoss, there, there', same⟩ :=
      seedable sink output target List.mem_cons_self
    obtain ⟨value, m₁, run⟩ := loss.run_seed_of_shape regular there there' same
    have seeded : m.Seeded [output] m₁ := by
      rcases loss.run_seed output target m with ⟨_, fails⟩ | ⟨_, _, success, seeded⟩
      · cases fails.symm.trans run
      · cases success.symm.trans run
        exact seeded
    have regular₁ : m₁.store.Regular := by
      have carried := loss.carries_seed output target m regular
      rw [run] at carried
      exact carried.regular
    obtain ⟨total', m', rest, seeded'⟩ := ih (total + value) regular₁
      fun sink output target member =>
        (seedable sink output target (List.mem_cons_of_mem _ member)).of_seeded seeded
    refine ⟨total', m', ?_, seeded.trans seeded'⟩
    simp only [seedSinks, label, isLoss]
    exact (run_bind_ok run).trans rest

variable {outputs targets : List TensorId}

/-- Where seeding fails, the counts are wrong and nothing was done, or the sinks before the failing
one have been seeded, and nothing else was done. -/
theorem seedLoss_failure (run : (n.seedLoss outputs targets).run m = (.error failure, m')) :
    ((outputs.length ≠ n.sinks.length ∨ targets.length ≠ n.sinks.length) ∧ m' = m)
      ∨ ∃ before sink after total, n.sinks.zip (outputs.zip targets) = before ++ sink :: after
        ∧ (n.seedSinks 0 before).run m = (.ok total, m')
        ∧ (n.seedSinks total [sink]).run m' = (.error failure, m')
        ∧ m.Seeded (before.map fun sink => sink.2.1) m' := by
  unfold seedLoss at run
  dsimp only at run
  split at run
  next counts =>
    cases run
    exact .inl ⟨counts, rfl⟩
  · exact .inr (run_seedSinks_error run)

/-- Seeding succeeds with a loss at every sink and a target of the shape of every output. -/
theorem seedLoss_succeeds (regular : m.store.Regular) (counts : outputs.length = n.sinks.length)
    (counts' : targets.length = n.sinks.length)
    (seedable : ∀ sink output target, (sink, output, target) ∈ n.sinks.zip (outputs.zip targets) →
      n.Seedable m.store sink output target) :
    ∃ total m', (n.seedLoss outputs targets).run m = (.ok total, m') ∧ m.Seeded outputs m' := by
  obtain ⟨total, m', run, seeded⟩ := run_seedSinks_of_seedable 0 regular seedable
  refine ⟨total, m', ?_, ?_⟩
  · unfold seedLoss
    dsimp only
    rw [if_neg (not_or.mpr ⟨not_not.mpr counts, not_not.mpr counts'⟩)]
    exact run
  · have pairs : (outputs.zip targets).length ≤ n.sinks.length := by
      rw [List.length_zip]
      omega
    have all : ((n.sinks.zip (outputs.zip targets)).map Prod.snd).map Prod.fst = outputs := by
      rw [List.map_snd_zip pairs, List.map_fst_zip (counts.trans counts'.symm).le]
    rw [List.map_map] at all
    exact all ▸ seeded

/-- Where every sink is a loss, sinks are never refused as unsupported. -/
theorem seedSinks_supported {sinks : List (Nat × TensorId × TensorId)}
    (losses : ∀ sink ∈ sinks, ∃ node loss, n.node? sink.1 = some node
      ∧ node.layer.loss? = some loss) :
    FailsOnly (Failure.Blames fun cause => ∀ reason, cause ≠ .unsupported reason)
      ((n.seedSinks total sinks).run m).1 := by
  induction sinks generalizing total m with
  | nil => exact .ok total
  | cons first rest ih =>
    obtain ⟨sink, output, target⟩ := first
    obtain ⟨⟨node, loss, label, isLoss⟩, losses⟩ := List.forall_mem_cons.mp losses
    have supported := loss.seed_supported output target m
    dsimp only at label
    simp only [seedSinks, label, isLoss]
    cases run : (loss.seed output target).run m with
    | mk result m' =>
      rw [run] at supported
      cases result with
      | error failure =>
        rw [run_bind_error run]
        exact supported
      | ok value =>
        rw [run_bind_ok run]
        exact ih losses

/-- With a loss at every sink and one output and target for each, seeding is never refused as
unsupported. -/
theorem seedLoss_supported (losses : ∀ sink ∈ n.sinks, ∃ node loss, n.node? sink = some node
      ∧ node.layer.loss? = some loss) (counts : outputs.length = n.sinks.length)
    (counts' : targets.length = n.sinks.length) :
    FailsOnly (Failure.Blames fun cause => ∀ reason, cause ≠ .unsupported reason)
      ((n.seedLoss outputs targets).run m).1 := by
  unfold seedLoss
  dsimp only
  rw [if_neg (not_or.mpr ⟨not_not.mpr counts, not_not.mpr counts'⟩)]
  exact seedSinks_supported fun sink member => losses sink.1 (List.of_mem_zip member).1

/-- With at most one sink, seeding is all or nothing. -/
theorem allOrNothing_seedLoss (one : n.sinks.length ≤ 1) (outputs targets : List TensorId) :
    (n.seedLoss outputs targets).AllOrNothing := by
  intro m failure m' run
  rcases seedLoss_failure run with ⟨-, same⟩ | ⟨before, sink, after, total, parts, run, -⟩
  · exact same
  · have short := congrArg List.length parts
    rw [List.length_zip, List.length_append, List.length_cons] at short
    obtain rfl : before = [] := List.eq_nil_of_length_eq_zero (by omega)
    exact (congrArg Prod.snd run).symm

/-- Two outputs with one element each, a target for the first, and one that is too wide for the
second. -/
def unevenTargets : Machine :=
  let tensor (width : Nat) (values : Buffer) : Tensor :=
    ⟨⟨[1, width], [width, 1], values⟩, none, ⟨0⟩, none⟩
  { Machine.fresh with
    store := ⟨#[tensor 1 #[1], tensor 1 #[2], tensor 1 #[0], tensor 2 #[0, 0]], 1⟩ }

/-- Of two compiled sinks, the first is seeded although the target of the second has another shape.
-/
theorem not_allOrNothing_seedLoss : ∃ n store, compile "A=RELU,A~RELU,A~TANH"
      ⟨false, true, [1], .relu, .squared, 0, 0⟩ .empty = .ok (n, store)
    ∧ ¬ (n.seedLoss [⟨0⟩, ⟨1⟩] [⟨2⟩, ⟨3⟩]).AllOrNothing := by
  have read : readArchitecture "A=RELU,A~RELU,A~TANH" = .ok [.define "A" [.token "RELU"],
      .chain [.token "A", .token "RELU"], .chain [.token "A", .token "TANH"]] := rfl
  have compiles : (compile "A=RELU,A~RELU,A~TANH"
      ⟨false, true, [1], .relu, .squared, 0, 0⟩ .empty).toOption.any (fun built =>
        let ran := (built.1.seedLoss [⟨0⟩, ⟨1⟩] [⟨2⟩, ⟨3⟩]).run unevenTargets
        !ran.1.isOk && (ran.2.store.get? ⟨0⟩).any fun t => t.gradient.isSome) = true := by
    unfold compile componentsOf
    rw [read]
    unfold ComponentGraph.normalize ComponentGraph.splitFanOut ComponentGraph.joinFanIn
      ComponentGraph.build buildNetwork buildLayer placementOf Digraph.insertAfter
      Digraph.insertBefore
    simp only [Digraph.successorsInOrder_eq_insertionSort,
      Digraph.predecessorsInOrder_eq_insertionSort]
    decide +kernel
  obtain ⟨⟨n, store⟩, compiled, ran⟩ := except_exists_of_any compiles
  refine ⟨n, store, compiled, fun whole => ?_⟩
  have unseeded : (unevenTargets.store.get? ⟨0⟩).any (fun t => t.gradient.isSome) = false := by rfl
  cases run : (n.seedLoss [⟨0⟩, ⟨1⟩] [⟨2⟩, ⟨3⟩]).run unevenTargets with
  | mk result m' =>
    simp only [run, Bool.and_eq_true, Bool.not_eq_true'] at ran
    obtain ⟨fails, seeded⟩ := ran
    cases result with
    | ok total => cases fails
    | error failure =>
      rw [whole _ _ _ run, unseeded] at seeded
      cases seeded

end Network

end LayerNet
