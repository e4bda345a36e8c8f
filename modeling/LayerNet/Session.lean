import LayerNet.Generator
import LayerNet.Operation.Call
import LayerNet.Store

/-!
# Sessions — operations recorded, and replayed backwards

A session records one entry for every operation that succeeds: its operands, its results and its
rule. `finalize` replays the entries from the last to the first. Since the results of an entry are
new tensors, all operations that consume them were recorded later, so the gradients of the results
are complete when the entry's turn comes.

A session runs on a machine: the store of all tensors and a generator for the noise of training.
Everything a session does is a `Step`; a step that fails keeps what it had done before. A single
operation does nothing before it is sure to succeed: its contents are computed first, then the
results are stored and the entry is recorded.
-/

namespace LayerNet

/-- A recorded operation. -/
structure Entry where
  name : String
  inputs : List TensorId
  outputs : List TensorId
  rule : Rule

/-- The entries recorded so far, whether the noise of training is on, and whether the entries have
been replayed. -/
structure Session where
  trace : Array Entry
  training : Bool
  finalized : Bool

namespace Session

/-- A session that has recorded nothing. -/
def fresh (training : Bool) : Session := ⟨#[], training, false⟩

instance : Inhabited Session := ⟨fresh false⟩

end Session

/-- All tensors, the session at work, and where the noise of training comes from. -/
structure Machine where
  store : Store
  session : Session
  noise : Generator

/-- A machine without tensors. -/
def Machine.fresh : Machine := ⟨Store.empty, Session.fresh false, Generator.ofSeed 0⟩

instance : Inhabited Machine := ⟨Machine.fresh⟩

/-- A computation on a machine; what it did before a failure stays done. -/
abbrev Step (ε α : Type) := ExceptT (Failure ε) (StateM Machine) α

namespace Step

/-- A computation that does not need the machine. -/
def lift {ε α : Type} (x : Outcome ε α) : Step ε α := ExceptT.mk (pure x)

/-- An error with its cause. -/
def fail {ε α : Type} (cause : ε) : Step ε α := lift (Outcome.fail cause)

/-- A change of the store. -/
def modifyStore {ε : Type} (f : Store → Store) : Step ε Unit :=
  modify fun m => { m with store := f m.store }

/-- A change of the session. -/
def modifySession {ε : Type} (f : Session → Session) : Step ε Unit :=
  modify fun m => { m with session := f m.session }

/-- The tensor with an identity. -/
def tensor {ε : Type} (id : TensorId) : Step ε Tensor := do
  lift ((← get).store.tensor id)

/-- A new tensor. -/
def add {ε : Type} (content : Content) (name : Option String) : Step ε TensorId :=
  modifyGet fun m =>
    let (id, store) := m.store.add content name
    (id, { m with store })

/-- A new tensor that shares a buffer. -/
def addView {ε : Type} (content : Content) (buffer : BufferId) : Step ε TensorId :=
  modifyGet fun m =>
    let (id, store) := m.store.addView content buffer
    (id, { m with store })

/-- The same computation with each cause seen from a wider vocabulary. -/
def mapCause {ε δ α : Type} (f : ε → δ) (x : Step ε α) : Step δ α :=
  ExceptT.mk fun m =>
    let (result, m) := x.run m
    (Outcome.mapCause f result, m)

end Step

namespace Session

/-! ## Recording -/

/-- Refuses to go on once the entries have been replayed. -/
def checkRecording (operation : String) : Step TensorError Unit := do
  if (← get).session.finalized then Step.fail (.sessionFinalized operation)

/-- Records an entry. -/
def push (entry : Entry) : Step TensorError Unit :=
  Step.modifySession fun s => { s with trace := s.trace.push entry }

/-- Records tensors of the caller's under a rule of the caller's own. -/
def register (entry : Entry) : Step TensorError Unit := do
  checkRecording entry.name
  push entry

/-- Stores a result that the caller computed, and records it with a rule of the caller's own. -/
def record (name : String) (inputs : List TensorId) (output : Content) (rule : Rule) :
    Step TensorError TensorId := do
  checkRecording name
  let id ← Step.add output none
  push ⟨name, inputs, [id], rule⟩
  return id

/-- Stores the results of an operation. The results of a view share a buffer with the operand. -/
def keep (computed : Computed) (buffer : Option BufferId) : Step TensorError (List TensorId) :=
  computed.outputs.mapM fun content =>
    match buffer, computed.isView with
    | some buffer, true => Step.addView content buffer
    | _, _ => Step.add content none

/-- Runs an operation, and records it if it succeeds. -/
def apply (op : Operation TensorId) : Step TensorError (List TensorId) := do
  checkRecording op.name
  let store := (← get).store
  let _ ← op.operands.mapM fun id => Step.lift (store.tensor id : Checked Tensor)
  let contents := op.map fun id => ((store.get? id).map Tensor.toContent).getD default
  let computed ← Step.lift contents.compute
  let outputs ← keep computed ((op.operands.head?.bind store.get?).map Tensor.buffer)
  push ⟨op.name, op.operands, outputs, computed.rule⟩
  return outputs

/-- Runs an operation of one result. -/
def apply1 (op : Operation TensorId) : Step TensorError TensorId := do
  match ← apply op with
  | [id] => return id
  | _ => Step.lift Outcome.fatal

/-! ## Replay -/

/-- Adds to the gradients of tensors, one after the other. -/
def addDeltas (store : Store) : List (TensorId × Delta) → Checked Store
  | [] => .ok store
  | (id, delta) :: rest => do
    let tensor ← store.tensor id
    addDeltas (store.put id (← tensor.add delta)) rest

/-- What the rule of an entry is shown. -/
def seen (store : Store) (entry : Entry) : Checked Seen := do
  let inputs ← entry.inputs.mapM fun id => store.tensor id
  let outputs ← entry.outputs.mapM fun id => store.tensor id
  return {
    inputs := inputs.map Tensor.toContent
    outputs := outputs.map Tensor.toContent
    gradients := outputs.map Tensor.gradientOrZeros }

/-- Replays an entry: the gradients of its results are allocated, and its rule's amounts are added
to the gradients of its operands. -/
def replay (store : Store) (entry : Entry) : Checked Store := do
  let deltas ← entry.rule (← seen store entry)
  let store := entry.outputs.foldl (fun s id => s.update id Tensor.allocate) store
  addDeltas store (entry.inputs.zip deltas)

/-- Replays entries in the given order, up to the first that fails. -/
def replayAll : List Entry → Step TensorError Unit
  | [] => pure ()
  | entry :: rest => do
    let store ← Step.lift (replay (← get).store entry)
    Step.modifyStore fun _ => store
    replayAll rest

/-- Replays all entries, the last first. The session records nothing more until it is reset, also
when an entry fails. -/
def finalize : Step TensorError Unit := do
  checkRecording "finalize"
  let entries := (← get).session.trace.toList
  Step.modifySession fun s => { s with trace := #[], finalized := true }
  replayAll entries.reverse

/-- Forgets the entries and makes the session record again. -/
def reset : Step TensorError Unit :=
  Step.modifySession fun s => { s with trace := #[], finalized := false }

/-- Starts another session. -/
def start (training : Bool) : Step TensorError Unit :=
  Step.modifySession fun _ => fresh training

/-! ## Rules of the caller's own -/

/-- The rule that hands the gradient of one result to one operand unchanged. -/
def passThrough : Rule := fun seen => .ok [.whole (seen.gradient 0)]

/-- What a rule of the caller's own does with the gradient: it multiplies it, or fails. -/
inductive Custom where
  | factor (value : Float32)
  | failing (reason : String)

/-- The rule. -/
def Custom.rule : Custom → Rule
  | .factor value => fun seen => .ok [.whole ((seen.gradient 0).map (· * value))]
  | .failing reason => fun _ => Outcome.fail (.internal (.custom reason))

/-- A tensor times a factor, recorded with a rule of the caller's own. The tensor is built before
the session is asked. -/
def custom (x : TensorId) (factor : Float32) (back : Custom) : Step TensorError TensorId := do
  let tensor ← Step.tensor x
  let output ← Step.lift (Content.make (tensor.values.map (· * factor)) tensor.shape)
  record "custom" [x] output back.rule

end Session

end LayerNet
