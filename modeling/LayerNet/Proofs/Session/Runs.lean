import LayerNet.Proofs.Outcome
import LayerNet.Session

/-!
# Runs — what a single step does to a machine

A step takes a machine to a result and a machine. Steps in sequence run one after the other, up to
the first that fails (`Step.run_bind`). Storing contents adds tensors with them at the end of the
store (`Store.Adds`, `Session.run_keep`). An operation runs in one of two ways
(`Session.run_apply`): it fails and the machine is as it was, or its results are stored and the
trace has one entry more. A replay closes the session, wherever it stops
(`Session.run_finalize_of_recording`).

So operations are atomic. A call leaves every tensor that was there as it was (`Store.Untouched`).
When it fails, the whole machine is as it was, and when it succeeds the machine has its results and
one entry more (`Session.Appends`). No call leaves half of its work behind, and the results of
different calls are never one tensor.
-/

namespace LayerNet

/-- The content of the tensor with an identity. -/
def Store.content? (s : Store) (id : TensorId) : Option Content := (s.get? id).map Tensor.toContent

namespace Step

variable {ε α β : Type}

theorem run_bind (x : Step ε α) (f : α → Step ε β) (m : Machine) :
    (x >>= f).run m = match x.run m with
      | (.ok a, m') => (f a).run m'
      | (.error failure, m') => (.error failure, m') := by
  show (ExceptT.bindCont f (x.run m).1).run (x.run m).2 = _
  rcases x.run m with ⟨_ | _, _⟩ <;> rfl

/-- A sequence succeeds when both steps do. -/
theorem run_bind_ok {x : Step ε α} {f : α → Step ε β} {m m' : Machine} {a : α}
    (first : x.run m = (.ok a, m')) : (x >>= f).run m = (f a).run m' := by
  rw [run_bind, first]

/-- A sequence fails when its first step does. -/
theorem run_bind_error {x : Step ε α} {f : α → Step ε β} {m m' : Machine} {failure : Failure ε}
    (first : x.run m = (.error failure, m')) : (x >>= f).run m = (.error failure, m') := by
  rw [run_bind, first]

/-- A sequence of two steps has a value exactly when both have one. -/
theorem run_bind_eq_ok_iff {x : Step ε α} {f : α → Step ε β} {m m' : Machine} {b : β} :
    (x >>= f).run m = (.ok b, m') ↔
      ∃ a m₁, x.run m = (.ok a, m₁) ∧ (f a).run m₁ = (.ok b, m') := by
  rw [run_bind]
  constructor
  · intro run
    split at run
    next a m₁ first => exact ⟨a, m₁, first, run⟩
    next => cases run
  · rintro ⟨a, m₁, first, run⟩
    rw [first]
    exact run

theorem run_get (m : Machine) : (get : Step ε Machine).run m = (.ok m, m) := rfl

theorem run_lift (x : Outcome ε α) (m : Machine) : (lift x).run m = (x, m) := rfl

theorem run_modifyStore (f : Store → Store) (m : Machine) :
    (modifyStore f : Step ε Unit).run m = (.ok (), { m with store := f m.store }) := rfl

theorem run_modifySession (f : Session → Session) (m : Machine) :
    (modifySession f : Step ε Unit).run m = (.ok (), { m with session := f m.session }) := rfl

theorem run_tensor {m : Machine} {id : TensorId} {t : Tensor} (found : m.store.get? id = some t) :
    (tensor id : Step ε Tensor).run m = (.ok t, m) := by
  show ((m.store.tensor id : Outcome ε Tensor), m) = _
  rw [Store.tensor, found]
  rfl

/-- Computations that do not need the machine, over a list. -/
theorem run_mapM_lift (f : α → Outcome ε β) (xs : List α) (m : Machine) :
    (xs.mapM fun x => lift (f x)).run m = (xs.mapM f, m) := by
  induction xs with
  | nil => rfl
  | cons x xs ih =>
    rw [List.mapM_cons, List.mapM_cons]
    cases first : f x with
    | error failure => exact run_bind_error (run_lift _ m)
    | ok y =>
      rw [run_bind_ok (run_lift _ m)]
      cases rest : xs.mapM f with
      | error failure =>
        rw [rest] at ih
        exact run_bind_error ih
      | ok ys =>
        rw [rest] at ih
        rw [run_bind_ok ih]
        rfl

end Step

/-! ## Growing stores -/

/-- A store has tensors with given contents, and without gradients, added to those of another under
given identities. -/
structure Store.Adds (contents : List Content) (before : Store) (ids : List TensorId)
    (after : Store) : Prop where
  kept : ∀ id t, before.get? id = some t → after.get? id = some t
  added : List.Forall₂ (fun id c => after.content? id = some c) ids contents
  new : ∀ id ∈ ids, before.tensors.size ≤ id.index
  distinct : ids.Nodup
  others : ∀ id t, after.get? id = some t →
    before.get? id = some t ∨ (t.toContent ∈ contents ∧ t.gradient = none)

namespace Store

theorem content?_of_get? {s : Store} {id : TensorId} {t : Tensor} (there : s.get? id = some t) :
    s.content? id = some t.toContent := by
  rw [content?, there]
  rfl

theorem index_lt_of_get? {s : Store} {id : TensorId} {t : Tensor} (there : s.get? id = some t) :
    id.index < s.tensors.size := by
  obtain ⟨inside, -⟩ := Array.getElem?_eq_some_iff.mp there
  exact inside

theorem get?_push (s : Store) (t : Tensor) (buffers : Nat) (id : TensorId) :
    (⟨s.tensors.push t, buffers⟩ : Store).get? id
      = if id.index = s.tensors.size then some t else s.get? id := by
  simp only [get?, Array.getElem?_push]

theorem Adds.refl (s : Store) : Adds [] s [] s where
  kept _ _ there := there
  added := .nil
  new _ member := absurd member List.not_mem_nil
  distinct := .nil
  others _ _ there := .inl there

/-- One tensor after another. -/
theorem Adds.cons {c : Content} {contents : List Content} {t : Tensor} {before after : Store}
    {buffers : Nat} {ids : List TensorId} (content : t.toContent = c) (gradient : t.gradient = none)
    (rest : Adds contents ⟨before.tensors.push t, buffers⟩ ids after) :
    Adds (c :: contents) before (⟨before.tensors.size⟩ :: ids) after where
  kept id t' there := by
    have inside := index_lt_of_get? there
    refine rest.kept id t' ?_
    rw [get?_push, if_neg (Nat.ne_of_lt inside)]
    exact there
  added := by
    refine .cons ?_ rest.added
    rw [← content]
    refine content?_of_get? (rest.kept _ t ?_)
    rw [get?_push, if_pos rfl]
  new id member := by
    rcases List.mem_cons.mp member with rfl | member
    · exact Nat.le_refl _
    · refine Nat.le_trans ?_ (rest.new id member)
      rw [Array.size_push]
      exact Nat.le_succ _
  distinct := by
    refine List.nodup_cons.mpr ⟨fun again => ?_, rest.distinct⟩
    have later := rest.new _ again
    rw [Array.size_push] at later
    exact absurd later (Nat.not_succ_le_self _)
  others id t' there := by
    rcases rest.others id t' there with pushed | ⟨member, none⟩
    · rw [get?_push] at pushed
      split at pushed
      · cases pushed
        exact .inr ⟨content ▸ List.mem_cons_self, gradient⟩
      · exact .inl pushed
    · exact .inr ⟨List.mem_cons_of_mem c member, none⟩

end Store

namespace Session

/-! ## Recording -/

theorem run_checkRecording {m : Machine} (recording : m.session.finalized = false)
    (operation : String) : (checkRecording operation).run m = (.ok (), m) := by
  unfold checkRecording
  rw [Step.run_bind_ok (Step.run_get m), recording]
  rfl

theorem run_checkRecording_of_finalized {m : Machine} (finalized : m.session.finalized = true)
    (operation : String) :
    (checkRecording operation).run m = (.error (.error (.sessionFinalized operation)), m) := by
  unfold checkRecording
  rw [Step.run_bind_ok (Step.run_get m), finalized]
  rfl

theorem run_register {m : Machine} (recording : m.session.finalized = false) (entry : Entry) :
    (register entry).run m
      = (.ok (), { m with session := { m.session with trace := m.session.trace.push entry } }) := by
  unfold register
  rw [Step.run_bind_ok (run_checkRecording recording entry.name)]
  rfl

/-- Contents are stored one after the other when each is stored at the end. -/
theorem run_mapM_store {step : Content → Step TensorError TensorId}
    (one : ∀ c m, ∃ t buffers, t.toContent = c ∧ t.gradient = none ∧ (step c).run m
      = (.ok ⟨m.store.tensors.size⟩, { m with store := ⟨m.store.tensors.push t, buffers⟩ }))
    (contents : List Content) (m : Machine) :
    ∃ ids store, (contents.mapM step).run m = (.ok ids, { m with store })
      ∧ Store.Adds contents m.store ids store := by
  induction contents generalizing m with
  | nil => exact ⟨[], m.store, rfl, .refl m.store⟩
  | cons c contents ih =>
    obtain ⟨t, buffers, content, gradient, first⟩ := one c m
    obtain ⟨ids, store, rest, adds⟩ := ih { m with store := ⟨m.store.tensors.push t, buffers⟩ }
    refine ⟨⟨m.store.tensors.size⟩ :: ids, store, ?_, .cons content gradient adds⟩
    rw [List.mapM_cons, Step.run_bind_ok first, Step.run_bind_ok rest]
    rfl

theorem run_keep (computed : Computed) (buffer : Option BufferId) (m : Machine) :
    ∃ ids store, (keep computed buffer).run m = (.ok ids, { m with store })
      ∧ Store.Adds computed.outputs m.store ids store := by
  refine run_mapM_store (fun c m => ?_) computed.outputs m
  split <;> exact ⟨_, _, rfl, rfl, rfl⟩

/-- What an operation is computed on. -/
def operandsOf (store : Store) (op : Operation TensorId) : Operation Content :=
  op.map fun id => (store.content? id).getD default

/-- Tensors are there when their contents are. -/
theorem exists_tensors_iff (store : Store) (ids : List TensorId) :
    (∃ tensors, (ids.mapM fun id => (store.tensor id : Checked Tensor)) = .ok tensors)
      ↔ ∀ id ∈ ids, ∃ c, store.content? id = some c := by
  have one (id : TensorId) :
      (∃ t, (store.tensor id : Checked Tensor) = .ok t) ↔ ∃ c, store.content? id = some c := by
    unfold Store.tensor Store.content?
    simp only [Outcome.get_eq_ok_iff, Option.map_eq_some_iff]
    exact ⟨fun ⟨t, found⟩ => ⟨_, t, found, rfl⟩, fun ⟨_, t, found, _⟩ => ⟨t, found⟩⟩
  simp only [Outcome.mapM_eq_ok_iff, ← one]
  induction ids with
  | nil => simp
  | cons id ids ih =>
    rw [List.forall_mem_cons]
    constructor
    · rintro ⟨tensors, pairs⟩
      cases pairs with
      | cons first rest => exact ⟨⟨_, first⟩, ih.mp ⟨_, rest⟩⟩
    · rintro ⟨⟨t, first⟩, others⟩
      obtain ⟨tensors, rest⟩ := ih.mpr others
      exact ⟨t :: tensors, .cons first rest⟩

theorem run_apply_of_finalized {m : Machine} (finalized : m.session.finalized = true)
    (op : Operation TensorId) :
    (apply op).run m = (.error (.error (.sessionFinalized op.name)), m) :=
  Step.run_bind_error (run_checkRecording_of_finalized finalized op.name)

section Apply

variable {m : Machine} (recording : m.session.finalized = false) {op : Operation TensorId}
include recording

theorem run_apply_of_missing {failure : Failure TensorError}
    (missing : (op.operands.mapM fun id => (m.store.tensor id : Checked Tensor)) = .error failure) :
    (apply op).run m = (.error failure, m) := by
  unfold apply
  rw [Step.run_bind_ok (run_checkRecording recording op.name), Step.run_bind_ok (Step.run_get m)]
  refine Step.run_bind_error ?_
  rw [Step.run_mapM_lift, missing]

variable (there : ∀ id ∈ op.operands, ∃ c, m.store.content? id = some c)
include there

/-- An operation that cannot be computed leaves the machine as it was. -/
theorem run_apply_of_error {failure : Failure TensorError}
    (failed : (operandsOf m.store op).compute = .error failure) :
    (apply op).run m = (.error failure, m) := by
  obtain ⟨tensors, found⟩ := (exists_tensors_iff m.store op.operands).mpr there
  unfold apply
  rw [Step.run_bind_ok (run_checkRecording recording op.name), Step.run_bind_ok (Step.run_get m),
    Step.run_bind_ok (a := tensors) (by rw [Step.run_mapM_lift, found])]
  refine Step.run_bind_error ?_
  rw [Step.run_lift]
  exact congrArg (·, m) failed

/-- Once the results of an operation are stored, an entry is recorded. -/
theorem run_apply_of_kept {computed : Computed}
    (success : (operandsOf m.store op).compute = .ok computed) {ids : List TensorId} {store : Store}
    (kept : (keep computed ((op.operands.head?.bind m.store.get?).map Tensor.buffer)).run m
      = (.ok ids, { m with store })) :
    (apply op).run m = (.ok ids, { m with
      store := store
      session := { m.session with
        trace := m.session.trace.push ⟨op.name, op.operands, ids, computed.rule⟩ } }) := by
  obtain ⟨tensors, found⟩ := (exists_tensors_iff m.store op.operands).mpr there
  unfold apply
  rw [Step.run_bind_ok (run_checkRecording recording op.name), Step.run_bind_ok (Step.run_get m),
    Step.run_bind_ok (a := tensors) (by rw [Step.run_mapM_lift, found]),
    Step.run_bind_ok (a := computed) (by rw [Step.run_lift]; exact congrArg (·, m) success),
    Step.run_bind_ok kept]
  rfl

/-- The results of an operation are stored, and an entry is recorded. -/
theorem run_apply_of_ok {computed : Computed}
    (success : (operandsOf m.store op).compute = .ok computed) :
    ∃ ids store, Store.Adds computed.outputs m.store ids store
      ∧ (apply op).run m = (.ok ids, { m with
          store := store
          session := { m.session with
            trace := m.session.trace.push ⟨op.name, op.operands, ids, computed.rule⟩ } }) := by
  obtain ⟨ids, store, kept, adds⟩ :=
    run_keep computed ((op.operands.head?.bind m.store.get?).map Tensor.buffer) m
  exact ⟨ids, store, adds, run_apply_of_kept recording there success kept⟩

end Apply

/-- An operation fails and leaves the machine as it was, or stores its results and records an
entry. -/
theorem run_apply (op : Operation TensorId) (m : Machine) :
    (∃ failure, (apply op).run m = (.error failure, m))
      ∨ ∃ computed ids store,
        (∀ id ∈ op.operands, ∃ c, m.store.content? id = some c)
        ∧ (operandsOf m.store op).compute = .ok computed
        ∧ Store.Adds computed.outputs m.store ids store
        ∧ (apply op).run m = (.ok ids, { m with
          store := store
          session := { m.session with
            trace := m.session.trace.push ⟨op.name, op.operands, ids, computed.rule⟩ } }) := by
  cases finalized : m.session.finalized with
  | true => exact .inl ⟨_, run_apply_of_finalized finalized op⟩
  | false =>
    cases found : op.operands.mapM fun id => (m.store.tensor id : Checked Tensor) with
    | error failure => exact .inl ⟨failure, run_apply_of_missing finalized found⟩
    | ok tensors =>
      have there := (exists_tensors_iff m.store op.operands).mp ⟨tensors, found⟩
      cases computes : (operandsOf m.store op).compute with
      | error failure => exact .inl ⟨failure, run_apply_of_error finalized there computes⟩
      | ok computed =>
        obtain ⟨ids, store, adds, run⟩ := run_apply_of_ok finalized there computes
        exact .inr ⟨computed, ids, store, there, rfl, adds, run⟩

/-- An operation leaves the machine as it was, or stores its results and records an entry. -/
theorem run_apply_cases (op : Operation TensorId) (m : Machine) :
    ((apply op).run m).2 = m
      ∨ ∃ computed ids store,
        (∀ id ∈ op.operands, ∃ c, m.store.content? id = some c)
        ∧ (operandsOf m.store op).compute = .ok computed
        ∧ Store.Adds computed.outputs m.store ids store
        ∧ ((apply op).run m).2 = { m with
          store := store
          session := { m.session with
            trace := m.session.trace.push ⟨op.name, op.operands, ids, computed.rule⟩ } } := by
  rcases run_apply op m with ⟨failure, run⟩ | ⟨computed, ids, store, there, computes, adds, run⟩
  · exact .inl (congrArg Prod.snd run)
  · exact .inr ⟨computed, ids, store, there, computes, adds, congrArg Prod.snd run⟩

/-- A result that the caller computed is stored, and an entry is recorded. -/
theorem run_record_of_recording {m : Machine} (recording : m.session.finalized = false)
    (name : String) (inputs : List TensorId) (output : Content) (rule : Rule) :
    ∃ id store, Store.Adds [output] m.store [id] store
      ∧ (record name inputs output rule).run m = (.ok id, { m with
        store := store
        session := { m.session with
          trace := m.session.trace.push ⟨name, inputs, [id], rule⟩ } }) := by
  unfold record
  rw [Step.run_bind_ok (run_checkRecording recording name)]
  exact ⟨_, _, .cons rfl rfl (.refl _), rfl⟩

/-- Recording a result leaves the machine as it was, or stores the result and records an entry. -/
theorem run_record_cases (name : String) (inputs : List TensorId) (output : Content) (rule : Rule)
    (m : Machine) :
    ((record name inputs output rule).run m).2 = m
      ∨ ∃ id store, Store.Adds [output] m.store [id] store
        ∧ ((record name inputs output rule).run m).2 = { m with
          store := store
          session := { m.session with
            trace := m.session.trace.push ⟨name, inputs, [id], rule⟩ } } := by
  cases finalized : m.session.finalized with
  | true => exact .inl (congrArg Prod.snd
      (Step.run_bind_error (run_checkRecording_of_finalized finalized name)))
  | false =>
    obtain ⟨id, store, adds, run⟩ := run_record_of_recording finalized name inputs output rule
    exact .inr ⟨id, store, adds, congrArg Prod.snd run⟩

/-! ## Replaying -/

/-- The machine whose session has begun to replay. -/
def closing (m : Machine) : Machine :=
  { m with session := { m.session with trace := #[], finalized := true } }

theorem run_finalize_of_recording {m : Machine} (recording : m.session.finalized = false) :
    finalize.run m = (replayAll m.session.trace.toList.reverse).run (closing m) := by
  unfold finalize
  rw [Step.run_bind_ok (run_checkRecording recording "finalize"), Step.run_bind_ok (Step.run_get m),
    Step.run_bind_ok (Step.run_modifySession _ m)]
  rfl

end Session

/-! ## All of a call or nothing -/

/-- Every tensor of a store is in another as it was: its name, shape, values, buffer and gradient,
allocated or not. -/
def Store.Untouched (before after : Store) : Prop :=
  ∀ id t, before.get? id = some t → after.get? id = some t

namespace Store

theorem Untouched.refl (s : Store) : s.Untouched s := fun _ _ there => there

theorem get?_eq_none_of_le {s : Store} {id : TensorId} (beyond : s.tensors.size ≤ id.index) :
    s.get? id = none :=
  Array.getElem?_eq_none beyond

/-- Added tensors have no gradient. -/
theorem Adds.results {contents : List Content} {before after : Store} {ids : List TensorId}
    (adds : Adds contents before ids after) :
    List.Forall₂ (fun id c => ∃ t, after.get? id = some t ∧ t.toContent = c ∧ t.gradient = none)
      ids contents := by
  refine List.forall₂_iff_get.mpr ⟨adds.added.length_eq, fun i inside inside' => ?_⟩
  obtain ⟨t, there, content⟩ := Option.map_eq_some_iff.mp (adds.added.get inside inside')
  refine ⟨t, there, content, ?_⟩
  rcases adds.others _ t there with old | ⟨-, none⟩
  · have new := get?_eq_none_of_le (adds.new _ (List.get_mem ids ⟨i, inside⟩))
    exact absurd (old.symm.trans new) nofun
  · exact none

end Store

namespace Session

/-- A machine has the results of a call stored and one entry more than another: the entry lists the
operands in argument order and the results in result order, and the results are distinct tensors
that were not there before and have no gradient. -/
structure Appends (op : Operation TensorId) (computed : Computed) (ids : List TensorId)
    (before after : Machine) : Prop where
  computes : (operandsOf before.store op).compute = .ok computed
  session : after.session = { before.session with
    trace := before.session.trace.push ⟨op.name, op.operands, ids, computed.rule⟩ }
  noise : after.noise = before.noise
  distinct : ids.Nodup
  new : ∀ id ∈ ids, before.store.get? id = none
  results : List.Forall₂
    (fun id c => ∃ t, after.store.get? id = some t ∧ t.toContent = c ∧ t.gradient = none)
    ids computed.outputs

/-- What an operation may do to a machine, with its answer. -/
inductive Performed (op : Operation TensorId) (m : Machine) :
    Except (Failure TensorError) (List TensorId) × Machine → Prop
  | refused (failure : Failure TensorError) : Performed op m (.error failure, m)
  | done {computed : Computed} {ids : List TensorId} {m' : Machine} :
    m.store.Untouched m'.store → Appends op computed ids m m' → Performed op m (.ok ids, m')

/-- A call is refused and does nothing, or is done completely. -/
theorem performed_apply (op : Operation TensorId) (m : Machine) :
    Performed op m ((apply op).run m) := by
  rcases run_apply op m with ⟨failure, run⟩ | ⟨computed, ids, store, -, computes, adds, run⟩
  · rw [run]
    exact .refused failure
  · rw [run]
    exact .done adds.kept ⟨computes, rfl, rfl, adds.distinct,
      fun id member => Store.get?_eq_none_of_le (adds.new id member), adds.results⟩

/-- An operation with any arguments, in any state, changes no tensor that was there. If it fails,
nothing at all has changed, and if it succeeds, its results are new tensors without a gradient and
the trace has exactly one entry more, with its operands and its results in order. -/
theorem apply_atomic (op : Operation TensorId) (m : Machine) :
    m.store.Untouched ((apply op).run m).2.store
      ∧ (∀ failure, ((apply op).run m).1 = .error failure → ((apply op).run m).2 = m)
      ∧ ∀ ids, ((apply op).run m).1 = .ok ids →
        ∃ computed, Appends op computed ids m ((apply op).run m).2 := by
  have performed := performed_apply op m
  generalize (apply op).run m = outcome at performed
  cases performed with
  | refused failure => exact ⟨.refl _, fun _ _ => rfl, nofun⟩
  | @done computed ids m' kept appends =>
    refine ⟨kept, nofun, fun answer success => ?_⟩
    cases success
    exact ⟨computed, appends⟩

end Session

end LayerNet
