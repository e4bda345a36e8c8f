import LayerNet.Proofs.Session.Runs
import Mathlib.Data.List.Induction

/-!
# Watching — which entries a run of calls replays

A session is asked for operations, for entries of the caller's own, for replays and for resets, in
any order and with anything happening to the tensors in between (`Session.Call`). What a call does
to the trace and to the flag is said once (`Session.Moves`).

To say which entry a replay comes to, a run of calls is watched (`Session.Watched`): every entry of
the trace carries the number of the call that recorded it, and `Session.noted` is a replay that
notes each entry it comes to. Watching changes nothing (`Session.noted_erases`,
`Session.machine_watch`). A replay takes the last entry first and stops at the first that fails, so
it comes to each entry once, or a later one has failed (`Session.noted_once`).
-/

namespace LayerNet

namespace Session

/-! ## Calls -/

/-- What can be asked of a session, and what can happen to the tensors besides. -/
inductive Call where
  | apply (op : Operation TensorId)
  | record (name : String) (inputs : List TensorId) (output : Content) (rule : Rule)
  | register (entry : Entry)
  | finalize
  | reset
  | besides (store : Store) (noise : Generator)

namespace Call

/-- What a call does. -/
def perform : Call → Step TensorError Unit
  | apply op => do let _ ← Session.apply op
  | record name inputs output rule => do let _ ← Session.record name inputs output rule
  | register entry => Session.register entry
  | finalize => Session.finalize
  | reset => Session.reset
  | besides store noise => modify fun m => { m with store, noise }

/-- The name that a finished session refuses a call under. Resets are never refused. -/
def name? : Call → Option String
  | apply op => some op.name
  | record name _ _ _ => some name
  | register entry => some entry.name
  | finalize => some "finalize"
  | reset | besides _ _ => none

end Call

/-- A machine after calls, of which some may have failed. -/
def afterCalls (m : Machine) (calls : List Call) : Machine :=
  calls.foldl (fun m c => (c.perform.run m).2) m

/-- A finished session refuses every call that it can refuse, and nothing changes. -/
theorem run_perform_of_finalized {m : Machine} (finalized : m.session.finalized = true) {c : Call}
    {name : String} (named : c.name? = some name) :
    c.perform.run m = (.error (.error (.sessionFinalized name)), m) := by
  cases c with
  | apply op =>
    cases named
    exact Step.run_bind_error (run_apply_of_finalized finalized op)
  | record name =>
    cases named
    exact Step.run_bind_error
      (Step.run_bind_error (run_checkRecording_of_finalized finalized name))
  | register entry =>
    cases named
    exact Step.run_bind_error (run_checkRecording_of_finalized finalized entry.name)
  | finalize =>
    cases named
    exact Step.run_bind_error (run_checkRecording_of_finalized finalized "finalize")
  | reset | besides => cases named

/-! ## What a call does to the session -/

/-- A replay leaves the session as it is. -/
theorem session_replayAll (entries : List Entry) (m : Machine) :
    ((replayAll entries).run m).2.session = m.session := by
  induction entries generalizing m with
  | nil => rfl
  | cons e entries ih =>
    unfold replayAll
    rw [Step.run_bind_ok (Step.run_get m)]
    cases first : replay m.store e with
    | error failure => rw [Step.run_bind_error (Step.run_lift (.error failure) m)]
    | ok store =>
      rw [Step.run_bind_ok (Step.run_lift (.ok store) m),
        Step.run_bind_ok (Step.run_modifyStore _ m)]
      exact ih _

/-- What a call may do to the trace and to the flag. -/
inductive Moves (c : Call) (before : Session) : Session → Prop
  /-- Nothing, as a refused or failed call, or because the session is not concerned. -/
  | stays : (c = .finalize → before.finalized = true) → c ≠ .reset → Moves c before before
  /-- One entry more. -/
  | records (e : Entry) : before.finalized = false → c ≠ .finalize → c ≠ .reset →
    Moves c before { before with trace := before.trace.push e }
  | finishes : c = .finalize → before.finalized = false →
    Moves c before { before with trace := #[], finalized := true }
  | restarts : c = .reset → Moves c before { before with trace := #[], finalized := false }

theorem moves_perform (c : Call) (m : Machine) :
    Moves c m.session (c.perform.run m).2.session := by
  cases finalized : m.session.finalized with
  | true =>
    cases c with
    | reset => exact .restarts rfl
    | besides => exact .stays nofun nofun
    | apply | record | register | finalize =>
      rw [run_perform_of_finalized finalized rfl]
      exact .stays (fun _ => finalized) nofun
  | false =>
    cases c with
    | apply op =>
      show Moves _ _ ((apply op >>= fun _ => pure ()).run m).2.session
      rcases run_apply op m with ⟨failure, run⟩ | ⟨computed, ids, store, -, -, -, run⟩
      · rw [Step.run_bind_error run]
        exact .stays nofun nofun
      · rw [Step.run_bind_ok run]
        exact .records _ finalized nofun nofun
    | record name inputs output rule =>
      show Moves _ _ ((record name inputs output rule >>= fun _ => pure ()).run m).2.session
      obtain ⟨id, store, -, run⟩ := run_record_of_recording finalized name inputs output rule
      rw [Step.run_bind_ok run]
      exact .records _ finalized nofun nofun
    | register entry =>
      show Moves _ _ ((register entry).run m).2.session
      rw [run_register finalized]
      exact .records entry finalized nofun nofun
    | finalize =>
      show Moves _ _ (finalize.run m).2.session
      rw [run_finalize_of_recording finalized, session_replayAll]
      exact .finishes rfl finalized
    | reset => exact .restarts rfl
    | besides => exact .stays nofun nofun

/-! ## Watching -/

/-- An entry that a replay comes to: the numbers of the calls that recorded it and that replay it,
and whether its rule answered amounts that could be added. -/
structure Attempt where
  recorded : Nat
  entry : Entry
  during : Nat
  answered : Bool

/-- Replays entries, each with the number of the call that recorded it, in the given order, up to
the first that fails, and notes each that it comes to. -/
def noted (during : Nat) : List (Nat × Entry) → Machine →
    List Attempt × Except (Failure TensorError) Unit × Machine
  | [], m => ([], .ok (), m)
  | (recorded, entry) :: rest, m =>
    match replay m.store entry with
    | .ok store =>
      let (attempts, outcome) := noted during rest { m with store }
      (⟨recorded, entry, during, true⟩ :: attempts, outcome)
    | .error failure => ([⟨recorded, entry, during, false⟩], .error failure, m)

/-- A machine, how many calls there have been, the entries of its trace with the numbers of the
calls that recorded them, and everything that was noted. -/
structure Watched where
  machine : Machine
  calls : Nat
  waiting : List (Nat × Entry)
  attempts : List Attempt

/-- What a call replays: `finalize` all entries that wait, the last first, unless the session is
finished. -/
def Watched.replays (w : Watched) : Call → List Attempt
  | .finalize =>
    if w.machine.session.finalized then []
    else (noted w.calls w.waiting.reverse (closing w.machine)).1
  | _ => []

theorem Watched.replays_finalize (w : Watched) (recording : w.machine.session.finalized = false) :
    w.replays .finalize = (noted w.calls w.waiting.reverse (closing w.machine)).1 := by
  rw [Watched.replays, recording]
  rfl

theorem Watched.replays_of_finalized (w : Watched)
    (finalized : w.machine.session.finalized = true) :
    w.replays .finalize = [] := by
  rw [Watched.replays, if_pos finalized]

/-- A call, watched. An entry that the trace did not have yet is this call's. -/
def Watched.call (w : Watched) (c : Call) : Watched :=
  let machine := (c.perform.run w.machine).2
  { machine
    calls := w.calls + 1
    waiting := (w.waiting.map Prod.fst ++ [w.calls]).zip machine.session.trace.toList
    attempts := w.attempts ++ w.replays c }

/-- A run of calls, watched. -/
def watch (m : Machine) (calls : List Call) : Watched :=
  calls.foldl Watched.call ⟨m, 0, [], []⟩

/-- Watching a replay changes nothing. -/
theorem noted_erases (during : Nat) (entries : List (Nat × Entry)) (m : Machine) :
    (noted during entries m).2 = (replayAll (entries.map Prod.snd)).run m := by
  induction entries generalizing m with
  | nil => rfl
  | cons first entries ih =>
    obtain ⟨recorded, e⟩ := first
    rw [List.map_cons, replayAll, Step.run_bind_ok (Step.run_get m), noted]
    cases replay m.store e with
    | error failure => exact (Step.run_bind_error (Step.run_lift (.error failure) m)).symm
    | ok store =>
      rw [Step.run_bind_ok (Step.run_lift (.ok store) m),
        Step.run_bind_ok (Step.run_modifyStore _ m)]
      exact ih _

/-- Watching a run changes nothing. -/
theorem machine_watch (m : Machine) (calls : List Call) :
    (watch m calls).machine = afterCalls m calls := by
  induction calls using List.reverseRecOn with
  | nil => rfl
  | append_singleton calls c ih =>
    rw [watch, afterCalls, List.foldl_concat, List.foldl_concat, ← afterCalls, ← ih]
    rfl

theorem calls_watch (m : Machine) (calls : List Call) : (watch m calls).calls = calls.length := by
  induction calls using List.reverseRecOn with
  | nil => rfl
  | append_singleton calls c ih =>
    rw [watch, List.foldl_concat, List.length_append, List.length_singleton, ← ih]
    rfl

/-! ## What is noted -/

/-- An entry recorded later failed in the same replay. -/
def Overtaken (attempts : List Attempt) (i during : Nat) : Prop :=
  ∃ a ∈ attempts, a.during = during ∧ i < a.recorded ∧ a.answered = false

/-- How often the entry that a call recorded was replayed. -/
def attemptsOf (attempts : List Attempt) (i : Nat) : Nat :=
  attempts.countP fun a => a.recorded = i

/-- An entry was replayed exactly once, or never because a later one failed. -/
structure Once (attempts : List Attempt) (i during : Nat) : Prop where
  once : ¬ Overtaken attempts i during → attemptsOf attempts i = 1
  never : Overtaken attempts i during → attemptsOf attempts i = 0

/-- An attempt that tells nothing about the entry of a call in a replay: it is of another entry, and
either no later one, or answered, or of another replay. -/
structure Attempt.Unconcerned (i during : Nat) (a : Attempt) : Prop where
  other : a.recorded ≠ i
  harmless : a.during = during → i < a.recorded → a.answered = true

section Attempts

variable {attempts more : List Attempt} {i during : Nat}

theorem attemptsOf_append :
    attemptsOf (attempts ++ more) i = attemptsOf attempts i + attemptsOf more i :=
  List.countP_append

theorem overtaken_append : Overtaken (attempts ++ more) i during
    ↔ Overtaken attempts i during ∨ Overtaken more i during := by
  simp only [Overtaken, List.mem_append, or_and_right, exists_or]

theorem attemptsOf_eq_zero (others : ∀ a ∈ attempts, a.recorded ≠ i) :
    attemptsOf attempts i = 0 := by
  apply List.countP_eq_zero.mpr
  intro a member
  simpa using others a member

theorem not_overtaken (harmless : ∀ a ∈ attempts, a.during = during → i < a.recorded →
    a.answered = true) : ¬ Overtaken attempts i during := by
  rintro ⟨a, member, same, later, failed⟩
  rw [harmless a member same later] at failed
  cases failed

theorem Once.congr (once : Once attempts i during)
    (count : attemptsOf more i = attemptsOf attempts i)
    (overtaken : Overtaken more i during ↔ Overtaken attempts i during) : Once more i during where
  once free := count.trans (once.once fun later => free (overtaken.mpr later))
  never later := count.trans (once.never (overtaken.mp later))

theorem Once.append_left (once : Once more i during)
    (others : ∀ a ∈ attempts, a.Unconcerned i during) : Once (attempts ++ more) i during := by
  apply once.congr
  · rw [attemptsOf_append, attemptsOf_eq_zero fun a member => (others a member).other, Nat.zero_add]
  · rw [overtaken_append]
    exact or_iff_right (not_overtaken fun a member => (others a member).harmless)

theorem Once.append_right (once : Once attempts i during)
    (others : ∀ a ∈ more, a.Unconcerned i during) : Once (attempts ++ more) i during := by
  apply once.congr
  · rw [attemptsOf_append, attemptsOf_eq_zero fun a member => (others a member).other, Nat.add_zero]
  · rw [overtaken_append]
    exact or_iff_left (not_overtaken fun a member => (others a member).harmless)

/-- An entry that is come to first. -/
theorem once_singleton (e : Entry) (answered : Bool) :
    Once [⟨i, e, during, answered⟩] i during := by
  constructor
  · intro _
    simp [attemptsOf]
  · rintro ⟨a, there, -, later, -⟩
    cases List.mem_singleton.mp there
    exact absurd later (Nat.lt_irrefl _)

end Attempts

section Noted

variable {during : Nat} {entries : List (Nat × Entry)} {m : Machine}

/-- Only the given entries are noted. -/
theorem mem_noted {a : Attempt} (member : a ∈ (noted during entries m).1) :
    a.during = during ∧ (a.recorded, a.entry) ∈ entries := by
  induction entries generalizing m with
  | nil => cases member
  | cons first entries ih =>
    obtain ⟨recorded, e⟩ := first
    unfold noted at member
    cases replayed : replay m.store e with
    | error failure =>
      rw [replayed] at member
      cases List.mem_singleton.mp member
      exact ⟨rfl, List.mem_cons_self⟩
    | ok store =>
      rw [replayed] at member
      rcases List.mem_cons.mp member with rfl | member
      · exact ⟨rfl, List.mem_cons_self⟩
      · obtain ⟨same, there⟩ := ih member
        exact ⟨same, List.mem_cons_of_mem _ there⟩

/-- A replay of entries in the reverse order of their recording comes to each of them once, or a
later one has failed. -/
theorem noted_once (ordered : entries.Pairwise fun x y => y.1 < x.1) {i : Nat} {e : Entry}
    (member : (i, e) ∈ entries) : Once (noted during entries m).1 i during := by
  induction entries generalizing m with
  | nil => cases member
  | cons first entries ih =>
    obtain ⟨recorded, e'⟩ := first
    obtain ⟨before, ordered⟩ := List.pairwise_cons.mp ordered
    unfold noted
    cases replay m.store e' with
    | error failure =>
      rcases List.mem_cons.mp member with same | member
      · cases same
        exact once_singleton e false
      · -- the entries after one that fails are not come to
        have less : i < recorded := before _ member
        constructor
        · intro free
          exact absurd ⟨_, List.mem_singleton_self _, rfl, less, rfl⟩ free
        · intro _
          apply attemptsOf_eq_zero
          intro a there
          cases List.mem_singleton.mp there
          exact Nat.ne_of_gt less
    | ok store =>
      rcases List.mem_cons.mp member with same | member
      · cases same
        apply (once_singleton e true).append_right
        intro a there
        have less : a.recorded < i := before _ (mem_noted there).2
        exact ⟨Nat.ne_of_lt less, fun _ later => absurd later (Nat.lt_asymm less)⟩
      · have less : i < recorded := before _ member
        show Once ([_] ++ (noted during entries { m with store }).1) i during
        apply (ih ordered member).append_left
        intro a there
        cases List.mem_singleton.mp there
        exact ⟨Nat.ne_of_gt less, fun _ _ => rfl⟩

end Noted

end Session

end LayerNet
