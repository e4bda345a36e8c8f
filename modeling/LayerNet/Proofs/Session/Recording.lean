import LayerNet.Layer.Forward
import LayerNet.Proofs.Operation.Calls
import LayerNet.Proofs.Session.Runs
import Mathlib.Logic.Relation

/-!
# Recordings — what holds of a trace however it came about

While a session records, a program creates tensors, runs operations and losses, records results with
rules of its own that keep the promise of a rule, and sets or drops gradients (`Records`). It never
writes values of a tensor that is there. `Machine.Sound` is what every step keeps:

* all tensors are well formed, and their gradients are as large as they are;
* every entry's operands and results are there with contents that its rule answers for, and the
  results have later identities than the operands;
* the results of an entry have later identities than anything that earlier entries refer to.

The last two say that the results of an operation are new tensors. They are why replaying backwards
is enough: whatever consumes a result was recorded after it.
-/

namespace LayerNet

/-- All contents are well formed, and gradients are as large as their tensors. -/
structure Store.WellFormed (s : Store) : Prop where
  contents : ∀ id t, s.get? id = some t → t.toContent.WellFormed
  gradients : ∀ id t, s.get? id = some t → ∀ g : Buffer, t.gradient = some g → g.size = t.count

theorem Store.wellFormed_empty : empty.WellFormed := by
  have nothing (id : TensorId) : empty.get? id = none := rfl
  exact ⟨fun id t there => absurd ((nothing id).symm.trans there) (by simp),
    fun id t there => absurd ((nothing id).symm.trans there) (by simp)⟩

/-- The operands and results are there, later ones for the results, and the rule answers for
them. -/
structure Entry.Sound (s : Store) (e : Entry) : Prop where
  fresh : ∀ i ∈ e.inputs, ∀ o ∈ e.outputs, i.index < o.index
  rule : ∃ inputs outputs,
    List.Forall₂ (fun id c => s.content? id = some c) e.inputs inputs
      ∧ List.Forall₂ (fun id c => s.content? id = some c) e.outputs outputs
      ∧ e.rule.Sound inputs outputs

/-- The results of the later entry are newer than all that the earlier one refers to. -/
def Entry.Before (earlier later : Entry) : Prop :=
  ∀ id ∈ earlier.inputs ++ earlier.outputs, ∀ o ∈ later.outputs, id.index < o.index

/-- The invariant of a machine whose session records. -/
structure Machine.Sound (m : Machine) : Prop where
  recording : m.session.finalized = false
  store : m.store.WellFormed
  entries : ∀ e ∈ m.session.trace.toList, e.Sound m.store
  ordered : m.session.trace.toList.Pairwise Entry.Before

/-- One step of a program while its session records. -/
inductive Records : Machine → Machine → Prop where
  /-- An operation, whether it succeeds or not. -/
  | apply (m : Machine) (op : Operation TensorId) : Records m ((Session.apply op).run m).2
  /-- A loss layer. -/
  | loss (m : Machine) (x : TensorId) (loss : Loss) :
    Records m ((Layer.forwardLoss x loss).run m).2
  /-- A result of the program's own, with a rule that answers for it. -/
  | record (m : Machine) (name : String) (inputs : List TensorId) (output : Content) (rule : Rule)
    (contents : List Content) : output.WellFormed →
    List.Forall₂ (fun id c => m.store.content? id = some c) inputs contents →
    rule.Sound contents [output] →
    Records m ((Session.record name inputs output rule).run m).2
  /-- A new tensor. -/
  | create (m : Machine) (values : Buffer) (shape : Shape) (content : Content)
    (name : Option String) : Content.make values shape = .ok content →
    Records m { m with store := (m.store.add content name).2 }
  /-- A gradient set to a buffer of the tensor's size, or dropped. -/
  | assign (m : Machine) (id : TensorId) (gradient : Option Buffer) :
    (∀ t, m.store.get? id = some t → ∀ g : Buffer, gradient = some g → g.size = t.count) →
    Records m { m with store := m.store.update id fun t => { t with gradient } }
  /-- Noise drawn. -/
  | draw (m : Machine) (noise : Generator) : Records m { m with noise }

/-- Any number of such steps. -/
abbrev Recording : Machine → Machine → Prop := Relation.ReflTransGen Records

/-! ## Stores that keep contents -/

/-- No content is lost or changed. -/
def Store.Keeps (before after : Store) : Prop :=
  ∀ id c, before.content? id = some c → after.content? id = some c

namespace Store.Adds

variable {contents : List Content} {before after : Store} {ids : List TensorId}
  (adds : Adds contents before ids after)
include adds

theorem keeps : before.Keeps after := by
  intro id c there
  obtain ⟨t, tensor, rfl⟩ := Option.map_eq_some_iff.mp there
  exact content?_of_get? (adds.kept id t tensor)

theorem wellFormed (wf : before.WellFormed) (new : ∀ c ∈ contents, c.WellFormed) :
    after.WellFormed where
  contents id t there := by
    rcases adds.others id t there with old | ⟨member, -⟩
    · exact wf.contents id t old
    · exact new _ member
  gradients id t there g gradient := by
    rcases adds.others id t there with old | ⟨-, none⟩
    · exact wf.gradients id t old g gradient
    · rw [none] at gradient
      cases gradient

end Store.Adds

theorem Entry.Sound.mono {e : Entry} {before after : Store} (sound : e.Sound before)
    (keeps : before.Keeps after) : e.Sound after := by
  obtain ⟨fresh, inputs, outputs, into, out, rule⟩ := sound
  exact ⟨fresh, inputs, outputs, into.imp fun id c => keeps id c, out.imp fun id c => keeps id c,
    rule⟩

theorem Store.index_lt_of_contents {s : Store} {ids : List TensorId} {contents : List Content}
    (there : List.Forall₂ (fun id c => s.content? id = some c) ids contents) {id : TensorId}
    (member : id ∈ ids) : id.index < s.tensors.size := by
  induction there with
  | nil => cases member
  | cons first _ ih =>
    rcases List.mem_cons.mp member with rfl | member
    · obtain ⟨t, tensor, -⟩ := Option.map_eq_some_iff.mp first
      exact Store.index_lt_of_get? tensor
    · exact ih member

/-- Everything that an entry refers to is there. -/
theorem Entry.Sound.index_lt {e : Entry} {s : Store} (sound : e.Sound s) {id : TensorId}
    (member : id ∈ e.inputs ++ e.outputs) : id.index < s.tensors.size := by
  obtain ⟨-, inputs, outputs, into, out, -⟩ := sound
  rcases List.mem_append.mp member with inside | inside
  · exact Store.index_lt_of_contents into inside
  · exact Store.index_lt_of_contents out inside

namespace Machine.Sound

variable {m : Machine} (sound : m.Sound)
include sound

/-- Another store with the same contents in it. -/
theorem of_store {store : Store} (wf : store.WellFormed) (keeps : m.store.Keeps store) :
    Machine.Sound { m with store } where
  recording := sound.recording
  store := wf
  entries e member := (sound.entries e member).mono keeps
  ordered := sound.ordered

/-- One entry more, for results that are new. -/
theorem push {store : Store} {e : Entry} {inputs outputs : List Content}
    (adds : Store.Adds outputs m.store e.outputs store)
    (wf : ∀ c ∈ outputs, c.WellFormed)
    (into : List.Forall₂ (fun id c => m.store.content? id = some c) e.inputs inputs)
    (rule : e.rule.Sound inputs outputs) :
    Machine.Sound { m with
      store := store
      session := { m.session with trace := m.session.trace.push e } } := by
  have keeps := adds.keeps
  have older {i o : TensorId} (old : i.index < m.store.tensors.size) (new : o ∈ e.outputs) :
      i.index < o.index := Nat.lt_of_lt_of_le old (adds.new o new)
  refine ⟨sound.recording, adds.wellFormed sound.store wf, ?_, ?_⟩
  · intro entry member
    rw [Array.toList_push, List.mem_append, List.mem_singleton] at member
    rcases member with member | rfl
    · exact (sound.entries entry member).mono keeps
    · exact ⟨fun i inside o new => older (Store.index_lt_of_contents into inside) new, inputs,
        outputs, into.imp fun id c => keeps id c, adds.added, rule⟩
  · rw [Array.toList_push, List.pairwise_append]
    refine ⟨sound.ordered, List.pairwise_singleton _ _, fun earlier member later last => ?_⟩
    rw [List.mem_singleton.mp last]
    exact fun id inside o new => older ((sound.entries earlier member).index_lt inside) new

end Machine.Sound

/-! ## Every step keeps the invariant -/

theorem Session.passThrough_sound {x output : Content} (count : output.count = x.count) :
    Rule.Sound passThrough [x] [output] := by
  intro gradients sizes
  rcases sizes with _ | @⟨gradient, _, _, _, size, ⟨⟩⟩
  exact ⟨_, rfl, .cons (size.trans count) .nil⟩

/-- The operands of a call, as the store has them. -/
theorem Session.operands_operandsOf {store : Store} {op : Operation TensorId}
    (there : ∀ id ∈ op.operands, ∃ c, store.content? id = some c) :
    List.Forall₂ (fun id c => store.content? id = some c) op.operands
      (operandsOf store op).operands := by
  rw [operandsOf, Operation.operands_map, List.forall₂_map_right_iff, List.forall₂_same]
  intro id member
  obtain ⟨c, content⟩ := there id member
  rw [content]
  rfl

theorem Store.WellFormed.content {s : Store} (wf : s.WellFormed) {id : TensorId} {c : Content}
    (there : s.content? id = some c) : c.WellFormed := by
  obtain ⟨t, tensor, rfl⟩ := Option.map_eq_some_iff.mp there
  exact wf.contents id t tensor

/-- The operands of a call on a well-formed store are well formed. -/
theorem Session.wellFormed_operands {store : Store} (wf : store.WellFormed)
    {op : Operation TensorId} (there : ∀ id ∈ op.operands, ∃ c, store.content? id = some c) :
    ∀ x ∈ (operandsOf store op).operands, x.WellFormed := by
  intro x member
  rw [operandsOf, Operation.operands_map] at member
  obtain ⟨id, inside, rfl⟩ := List.mem_map.mp member
  obtain ⟨c, content⟩ := there id inside
  rw [content]
  exact wf.content content

namespace Machine.Sound

variable {m : Machine} (sound : m.Sound)
include sound

theorem apply (op : Operation TensorId) : ((Session.apply op).run m).2.Sound := by
  rcases Session.run_apply_cases op m with same | ⟨computed, ids, store, there, success, adds, run⟩
  · rw [same]
    exact sound
  · rw [run]
    have computedSound :=
      Operation.compute_sound (Session.wellFormed_operands sound.store there) success
    exact sound.push (e := ⟨op.name, op.operands, ids, computed.rule⟩) adds computedSound.outputs
      (Session.operands_operandsOf there) computedSound.rule

theorem record {name : String} {inputs : List TensorId} {output : Content} {rule : Rule}
    {contents : List Content} (wf : output.WellFormed)
    (into : List.Forall₂ (fun id c => m.store.content? id = some c) inputs contents)
    (answers : rule.Sound contents [output]) :
    ((Session.record name inputs output rule).run m).2.Sound := by
  rcases Session.run_record_cases name inputs output rule m with same | ⟨id, store, adds, run⟩
  · rw [same]
    exact sound
  · rw [run]
    exact sound.push (e := ⟨name, inputs, [id], rule⟩) adds
      (fun c member => List.mem_singleton.mp member ▸ wf) into answers

/-- A result as large as its operand, recorded with the rule that hands the gradient on. -/
theorem handOn {x : TensorId} {c : Content} (there : m.store.content? x = some c)
    {values : Buffer} (size : values.size = c.count) (name : String) :
    ((do
      let output ← Step.lift (Content.make values c.shape)
      return [← Session.record name [x] output Session.passThrough] :
        Step TensorError (List TensorId)).run m).2.Sound := by
  cases made : Content.make values c.shape with
  | error failure =>
    rw [Step.run_bind_error (Step.run_lift _ m)]
    exact sound
  | ok output =>
    rw [Step.run_bind_ok (Step.run_lift _ m)]
    obtain ⟨-, valued, -⟩ := Content.of_make_eq_ok made
    have count : output.count = c.count := by rw [Content.count, valued, size]
    have kept : ((Session.record name [x] output Session.passThrough).run m).2.Sound :=
      sound.record (Content.wellFormed_of_make made) (.cons there .nil)
        (Session.passThrough_sound count)
    cases result : (Session.record name [x] output Session.passThrough).run m with
    | mk answer m' =>
      rw [result] at kept
      cases answer with
      | error failure =>
        rw [Step.run_bind_error result]
        exact kept
      | ok id =>
        rw [Step.run_bind_ok result]
        exact kept

/-- A loss is as large as its input. -/
theorem loss (x : TensorId) (loss : Loss) : ((Layer.forwardLoss x loss).run m).2.Sound := by
  unfold Layer.forwardLoss
  cases found : m.store.get? x with
  | none =>
    have missing : (Step.tensor x : Step TensorError Tensor).run m = (Outcome.fatal, m) := by
      show ((m.store.tensor x : Checked Tensor), m) = _
      rw [Store.tensor, found]
      rfl
    rw [Step.run_bind_error missing]
    exact sound
  | some tensor =>
    have there : (Step.tensor x : Step TensorError Tensor).run m = (.ok tensor, m) := by
      show ((m.store.tensor x : Checked Tensor), m) = _
      rw [Store.tensor, found]
      rfl
    rw [Step.run_bind_ok there]
    have content := Store.content?_of_get? found
    cases loss with
    | squared => exact sound.handOn content rfl "loss"
    | crossEntropy =>
      refine sound.handOn content ?_ "loss"
      refine Content.size_mapRows (sound.store.contents x tensor found) rfl fun r row width => ?_
      rw [softmaxRow, List.length_map, List.length_map]
      exact width

/-- A gradient of the tensor's size changes no content. -/
theorem assign (id : TensorId) {gradient : Option Buffer}
    (fits : ∀ t, m.store.get? id = some t → ∀ g : Buffer, gradient = some g → g.size = t.count) :
    Machine.Sound { m with store := m.store.update id fun t => { t with gradient } } := by
  refine sound.of_store ⟨fun other t there => ?_, fun other t there g some => ?_⟩ ?_
  · rw [Store.get?_update] at there
    split at there
    · obtain ⟨old, tensor, rfl⟩ := Option.map_eq_some_iff.mp there
      exact sound.store.contents other old tensor
    · exact sound.store.contents other t there
  · rw [Store.get?_update] at there
    split at there
    next same =>
      obtain ⟨old, tensor, rfl⟩ := Option.map_eq_some_iff.mp there
      exact fits old (same ▸ tensor) g some
    · exact sound.store.gradients other t there g some
  · intro other c there
    obtain ⟨t, tensor, rfl⟩ := Option.map_eq_some_iff.mp there
    rw [Store.content?, Store.get?_update, tensor]
    split <;> rfl

theorem create {values : Buffer} {shape : Shape} {content : Content}
    (made : Content.make values shape = .ok content) (name : Option String) :
    Machine.Sound { m with store := (m.store.add content name).2 } := by
  have adds : Store.Adds [content] m.store [(m.store.add content name).1]
      (m.store.add content name).2 := .cons rfl rfl (.refl _)
  refine sound.of_store (adds.wellFormed sound.store fun c member => ?_) adds.keeps
  rw [List.mem_singleton.mp member]
  exact Content.wellFormed_of_make made

/-- Every step of a program keeps the invariant. -/
theorem of_records {m' : Machine} (step : Records m m') : m'.Sound := by
  cases step with
  | apply op => exact sound.apply op
  | loss x loss => exact sound.loss x loss
  | record name inputs output rule contents wf into answers =>
    exact sound.record wf into answers
  | create values shape content name made => exact sound.create made name
  | assign id gradient fits => exact sound.assign id fits
  | draw noise => exact ⟨sound.recording, sound.store, sound.entries, sound.ordered⟩

/-- Every recording keeps the invariant, by induction on its steps. -/
theorem of_recording {m' : Machine} (steps : Recording m m') : m'.Sound := by
  induction steps with
  | refl => exact sound
  | tail _ step ih => exact ih.of_records step

end Machine.Sound

/-- A session that has recorded nothing keeps the invariant on well-formed tensors. -/
theorem Machine.sound_of_fresh {m : Machine} (wf : m.store.WellFormed)
    (recording : m.session.finalized = false) (fresh : m.session.trace = #[]) : m.Sound := by
  refine ⟨recording, wf, fun e member => ?_, ?_⟩
  · rw [fresh] at member
    exact absurd member List.not_mem_nil
  · rw [fresh]
    exact .nil

end LayerNet
