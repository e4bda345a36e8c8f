import LayerNet.Proofs.Session.Watching

/-!
# The protocol — every recorded entry is replayed at most once

By induction on the calls, the entries that wait at any time are those recorded after the last
`finalize` and the last `reset`, in the order of their recording (`Session.Waiting`), and everything
that has been replayed was replayed by the first `finalize` after its recording
(`Session.Replays`). Both are kept by every call, whatever it does to the session.

From them follows the protocol of a session (`Session.Protocol`): an entry is replayed at most once,
and never after a `reset`, and a finished session does nothing until it is reset.
-/

namespace LayerNet

namespace Session

/-! ## Which entries wait -/

section Run

variable (m : Machine) (calls : List Call)

/-- Call `i` records an entry. -/
def Recorded (i : Nat) (e : Entry) : Prop :=
  i < calls.length ∧ (afterCalls m (calls.take (i + 1))).session.trace
    = (afterCalls m (calls.take i)).session.trace.push e

/-- No call after call `i` and before call `j` is a `finalize` or a `reset`. -/
def Undisturbed (i j : Nat) : Prop :=
  ∀ k, i < k → k < j → calls[k]? ≠ some .finalize ∧ calls[k]? ≠ some .reset

/-- Call `j` is the first `finalize` after call `i`, and no `reset` came in between. -/
structure FinalizedBy (i j : Nat) : Prop where
  later : i < j
  finalize : calls[j]? = some .finalize
  undisturbed : Undisturbed calls i j

/-- Before call `n`, the entries that wait are those that no `finalize` and no `reset` followed, in
the order of their recording, and there are none in a finished session. -/
structure Waiting (n : Nat) (w : Watched) : Prop where
  entries : w.waiting.map Prod.snd = w.machine.session.trace.toList
  ordered : w.waiting.Pairwise fun x y => x.1 < y.1
  mem_iff : ∀ i e, (i, e) ∈ w.waiting ↔ i < n ∧ Recorded m calls i e ∧ Undisturbed calls i n
  finished : w.machine.session.finalized = true → w.waiting = []

end Run

section Run

variable {m : Machine} {calls : List Call} {n : Nat} {c : Call}

theorem FinalizedBy.unique {i j k : Nat} (first : FinalizedBy calls i j)
    (second : FinalizedBy calls i k) : j = k := by
  rcases Nat.lt_trichotomy j k with less | same | less
  · exact absurd first.finalize (second.undisturbed j first.later less).1
  · exact same
  · exact absurd second.finalize (first.undisturbed k second.later less).1

theorem undisturbed_succ (there : calls[n]? = some c) {i : Nat} :
    Undisturbed calls i (n + 1)
      ↔ (i < n → c ≠ .finalize ∧ c ≠ .reset) ∧ Undisturbed calls i n := by
  constructor
  · intro calm
    refine ⟨fun less => ?_, fun k after before => calm k after (Nat.lt_succ_of_lt before)⟩
    obtain ⟨noFinalize, noReset⟩ := calm n less (Nat.lt_succ_self n)
    rw [there] at noFinalize noReset
    exact ⟨fun same => noFinalize (congrArg some same), fun same => noReset (congrArg some same)⟩
  · rintro ⟨last, calm⟩ k after before
    rcases Nat.lt_succ_iff_lt_or_eq.mp before with before | rfl
    · exact calm k after before
    · obtain ⟨noFinalize, noReset⟩ := last after
      rw [there]
      exact ⟨fun same => noFinalize (Option.some.inj same),
        fun same => noReset (Option.some.inj same)⟩

theorem watch_take_succ (there : calls[n]? = some c) :
    watch m (calls.take (n + 1)) = (watch m (calls.take n)).call c := by
  rw [List.take_add_one, there, Option.toList_some, watch, List.foldl_concat]
  rfl

theorem calls_watch_take (there : calls[n]? = some c) : (watch m (calls.take n)).calls = n := by
  obtain ⟨inside, -⟩ := List.getElem?_eq_some_iff.mp there
  rw [calls_watch, List.length_take_of_le (Nat.le_of_lt inside)]

/-- What call `n` records, in terms of the watched run. -/
theorem recorded_iff (there : calls[n]? = some c) {e : Entry} :
    Recorded m calls n e
      ↔ ((watch m (calls.take n)).call c).machine.session.trace
        = (watch m (calls.take n)).machine.session.trace.push e := by
  obtain ⟨inside, -⟩ := List.getElem?_eq_some_iff.mp there
  rw [Recorded, ← watch_take_succ there, machine_watch, machine_watch]
  exact and_iff_right inside

/-- Numbers and entries go together, also when one number more is at hand. -/
theorem zip_waiting (waiting : List (Nat × Entry)) (k : Nat) (more : List Entry) :
    (waiting.map Prod.fst ++ [k]).zip (waiting.map Prod.snd ++ more)
      = waiting ++ [k].zip more := by
  rw [List.zip_append (by rw [List.length_map, List.length_map])]
  congr 1
  induction waiting with
  | nil => rfl
  | cons first waiting ih => rw [List.map_cons, List.map_cons, List.zip_cons_cons, ih]

/-- Nothing waits once the trace is emptied. -/
theorem Waiting.cleared (there : calls[n]? = some c) (clears : c = .finalize ∨ c = .reset)
    (empty : ((watch m (calls.take n)).call c).machine.session.trace = #[]) :
    Waiting m calls (n + 1) ((watch m (calls.take n)).call c) := by
  have none : ((watch m (calls.take n)).call c).waiting = [] := by
    show List.zip _ ((watch m (calls.take n)).call c).machine.session.trace.toList = []
    rw [empty]
    exact List.zip_nil_right
  refine ⟨by rw [none, empty]; rfl, none ▸ .nil, fun i e => ?_, fun _ => none⟩
  rw [none, undisturbed_succ there]
  constructor
  · nofun
  · rintro ⟨before, recorded, last, -⟩
    rcases Nat.lt_succ_iff_lt_or_eq.mp before with before | rfl
    · obtain ⟨noFinalize, noReset⟩ := last before
      exact absurd clears (not_or.mpr ⟨noFinalize, noReset⟩)
    · rw [recorded_iff there, empty] at recorded
      exact absurd (congrArg Array.size recorded) (by simp)

/-- The same entries wait while the trace stays. -/
theorem Waiting.stays (there : calls[n]? = some c)
    (waiting : Waiting m calls n (watch m (calls.take n)))
    (same : ((watch m (calls.take n)).call c).machine.session
      = (watch m (calls.take n)).machine.session)
    (finishes : c = .finalize → (watch m (calls.take n)).machine.session.finalized = true)
    (noReset : c ≠ .reset) : Waiting m calls (n + 1) ((watch m (calls.take n)).call c) := by
  have kept : ((watch m (calls.take n)).call c).waiting = (watch m (calls.take n)).waiting := by
    show List.zip _ ((watch m (calls.take n)).call c).machine.session.trace.toList = _
    rw [same, ← waiting.entries]
    have zipped := zip_waiting (watch m (calls.take n)).waiting (watch m (calls.take n)).calls []
    rwa [List.append_nil, List.zip_nil_right, List.append_nil] at zipped
  refine ⟨?_, kept ▸ waiting.ordered, fun i e => ?_, fun done => ?_⟩
  · rw [kept, same, waiting.entries]
  · rw [kept, waiting.mem_iff, undisturbed_succ there]
    constructor
    · rintro ⟨before, recorded, calm⟩
      refine ⟨Nat.lt_succ_of_lt before, recorded, fun _ => ⟨fun isFinalize => ?_, noReset⟩, calm⟩
      -- a session that refuses to finalize has nothing that waits
      have member := (waiting.mem_iff i e).mpr ⟨before, recorded, calm⟩
      rw [waiting.finished (finishes isFinalize)] at member
      cases member
    · rintro ⟨before, recorded, -, calm⟩
      rcases Nat.lt_succ_iff_lt_or_eq.mp before with before | rfl
      · exact ⟨before, recorded, calm⟩
      · rw [recorded_iff there, same] at recorded
        exact absurd (congrArg Array.size recorded) (by simp)
  · rw [kept]
    exact waiting.finished (same ▸ done)

/-- A recorded entry waits from then on. -/
theorem Waiting.records (there : calls[n]? = some c)
    (waiting : Waiting m calls n (watch m (calls.take n))) {e : Entry}
    (trace : ((watch m (calls.take n)).call c).machine.session.trace
      = (watch m (calls.take n)).machine.session.trace.push e)
    (recording : ((watch m (calls.take n)).call c).machine.session.finalized = false)
    (noFinalize : c ≠ .finalize) (noReset : c ≠ .reset) :
    Waiting m calls (n + 1) ((watch m (calls.take n)).call c) := by
  have more : ((watch m (calls.take n)).call c).waiting
      = (watch m (calls.take n)).waiting ++ [(n, e)] := by
    show List.zip _ ((watch m (calls.take n)).call c).machine.session.trace.toList = _
    rw [trace, Array.toList_push, ← waiting.entries, zip_waiting, calls_watch_take there]
    rfl
  refine ⟨?_, ?_, fun i e' => ?_, fun done => ?_⟩
  · rw [more, trace, Array.toList_push, List.map_append, waiting.entries]
    rfl
  · rw [more]
    refine List.pairwise_append.mpr ⟨waiting.ordered, List.pairwise_singleton _ _, ?_⟩
    intro x old y new
    cases List.mem_singleton.mp new
    exact ((waiting.mem_iff x.1 x.2).mp old).1
  · rw [more, List.mem_append, waiting.mem_iff, undisturbed_succ there]
    constructor
    · rintro (⟨before, recorded, calm⟩ | new)
      · exact ⟨Nat.lt_succ_of_lt before, recorded, fun _ => ⟨noFinalize, noReset⟩, calm⟩
      · cases List.mem_singleton.mp new
        refine ⟨Nat.lt_succ_self n, (recorded_iff there).mpr trace,
          fun less => absurd less (Nat.lt_irrefl n), ?_⟩
        intro k after before
        exact absurd before (Nat.lt_asymm after)
    · rintro ⟨before, recorded, -, calm⟩
      rcases Nat.lt_succ_iff_lt_or_eq.mp before with before | rfl
      · exact .inl ⟨before, recorded, calm⟩
      · rw [recorded_iff there, trace] at recorded
        cases (Array.push_inj_right.mp recorded)
        exact .inr (List.mem_singleton_self _)
  · rw [recording] at done
    cases done

/-- Each call keeps count of the entries that wait. -/
theorem Waiting.call (there : calls[n]? = some c)
    (waiting : Waiting m calls n (watch m (calls.take n))) :
    Waiting m calls (n + 1) ((watch m (calls.take n)).call c) := by
  have moves : Moves c (watch m (calls.take n)).machine.session
      ((watch m (calls.take n)).call c).machine.session := moves_perform c _
  generalize after : ((watch m (calls.take n)).call c).machine.session = session at moves
  cases moves with
  | stays finishes noReset => exact waiting.stays there after finishes noReset
  | records e recording noFinalize noReset =>
    exact waiting.records there (congrArg Session.trace after)
      ((congrArg Session.finalized after).trans recording) noFinalize noReset
  | finishes isFinalize => exact .cleared there (.inl isFinalize) (congrArg Session.trace after)
  | restarts isReset => exact .cleared there (.inr isReset) (congrArg Session.trace after)

/-- The entries that wait, at every point of a run that starts with an empty trace. -/
theorem waiting_watch (fresh : m.session.trace = #[]) (within : n ≤ calls.length) :
    Waiting m calls n (watch m (calls.take n)) := by
  induction n with
  | zero =>
    refine ⟨by rw [machine_watch]; exact (congrArg Array.toList fresh).symm, .nil, ?_, fun _ => rfl⟩
    intro i e
    exact ⟨nofun, fun impossible => absurd impossible.1 (Nat.not_lt_zero i)⟩
  | succ n ih =>
    have there : calls[n]? = some calls[n] := List.getElem?_eq_getElem within
    rw [watch_take_succ there]
    exact (ih (Nat.le_of_succ_le within)).call there

/-! ## What has been replayed -/

/-- What a call replays waited before it. -/
theorem mem_replays (there : calls[n]? = some c) {a : Attempt}
    (member : a ∈ (watch m (calls.take n)).replays c) :
    c = .finalize ∧ a.during = n ∧ (a.recorded, a.entry) ∈ (watch m (calls.take n)).waiting := by
  cases c with
  | finalize =>
    cases finalized : (watch m (calls.take n)).machine.session.finalized with
    | true =>
      rw [Watched.replays_of_finalized _ finalized] at member
      cases member
    | false =>
      rw [Watched.replays_finalize _ finalized, calls_watch_take there] at member
      obtain ⟨during, waits⟩ := mem_noted member
      exact ⟨rfl, during, List.mem_reverse.mp waits⟩
  | apply | record | register | reset | besides => cases member

variable (m calls) in
/-- Before call `n`, everything that was replayed was replayed by the first `finalize` after its
recording, and every entry that such a call found was replayed once, or a later one failed. -/
structure Replays (n : Nat) (w : Watched) : Prop where
  replayed : ∀ a ∈ w.attempts, a.during < n
    ∧ Recorded m calls a.recorded a.entry ∧ FinalizedBy calls a.recorded a.during
  once : ∀ i e j, j < n → Recorded m calls i e → FinalizedBy calls i j → Once w.attempts i j
  accounted : ∀ j, j < n → calls[j]? = some .finalize →
    w.attempts.filter (fun a => a.during = j) = (watch m (calls.take j)).replays .finalize

/-- Each call replays what waits, if it replays anything. -/
theorem Replays.call (there : calls[n]? = some c)
    (waiting : Waiting m calls n (watch m (calls.take n)))
    (replays : Replays m calls n (watch m (calls.take n))) :
    Replays m calls (n + 1) ((watch m (calls.take n)).call c) := by
  have new (a : Attempt) (member : a ∈ (watch m (calls.take n)).replays c) :
      a.during = n ∧ Recorded m calls a.recorded a.entry ∧ FinalizedBy calls a.recorded n := by
    obtain ⟨isFinalize, during, waits⟩ := mem_replays there member
    obtain ⟨before, recorded, calm⟩ := (waiting.mem_iff _ _).mp waits
    exact ⟨during, recorded, before, isFinalize ▸ there, calm⟩
  refine ⟨?_, ?_, ?_⟩
  · intro a member
    rcases List.mem_append.mp member with old | member
    · obtain ⟨during, recorded, finalized⟩ := replays.replayed a old
      exact ⟨Nat.lt_succ_of_lt during, recorded, finalized⟩
    · obtain ⟨during, recorded, finalized⟩ := new a member
      exact ⟨during ▸ Nat.lt_succ_self _, recorded, during ▸ finalized⟩
  · intro i e j before recorded finalized
    rcases Nat.lt_succ_iff_lt_or_eq.mp before with before | rfl
    · -- what this call replays is replayed by no other
      apply (replays.once i e j before recorded finalized).append_right
      intro a member
      obtain ⟨during, -, again⟩ := new a member
      refine ⟨?_, fun same => absurd (during.symm.trans same) (Nat.ne_of_gt before)⟩
      rintro rfl
      exact absurd (finalized.unique again) (Nat.ne_of_lt before)
    · have isFinalize : c = .finalize := Option.some.inj (there.symm.trans finalized.finalize)
      have waits := (waiting.mem_iff i e).mpr ⟨finalized.later, recorded, finalized.undisturbed⟩
      refine Once.append_left ?_ fun a old => ?_
      · cases isFinalize
        cases finished : (watch m (calls.take j)).machine.session.finalized with
        | true =>
          rw [waiting.finished finished] at waits
          cases waits
        | false =>
          rw [Watched.replays_finalize _ finished, calls_watch_take there]
          exact noted_once (List.pairwise_reverse.mpr waiting.ordered) (List.mem_reverse.mpr waits)
      · obtain ⟨during, -, earlier⟩ := replays.replayed a old
        refine ⟨?_, fun same => absurd same (Nat.ne_of_lt during)⟩
        rintro rfl
        exact absurd (earlier.unique finalized) (Nat.ne_of_lt during)
  · intro j before isFinalize
    show List.filter _ (_ ++ _) = _
    rw [List.filter_append]
    rcases Nat.lt_succ_iff_lt_or_eq.mp before with before | rfl
    · rw [replays.accounted j before isFinalize, List.filter_eq_nil_iff.mpr, List.append_nil]
      intro a member
      obtain ⟨during, -⟩ := new a member
      simpa using during ▸ Nat.ne_of_gt before
    · rw [List.filter_eq_nil_iff.mpr, List.filter_eq_self.mpr, List.nil_append,
        Option.some.inj (there.symm.trans isFinalize)]
      · intro a member
        simpa using (new a member).1
      · intro a old
        simpa using Nat.ne_of_lt (replays.replayed a old).1

theorem replays_watch (fresh : m.session.trace = #[]) (within : n ≤ calls.length) :
    Replays m calls n (watch m (calls.take n)) := by
  induction n with
  | zero => exact ⟨nofun, fun _ _ j before => absurd before (Nat.not_lt_zero j),
      fun j before => absurd before (Nat.not_lt_zero j)⟩
  | succ n ih =>
    have there : calls[n]? = some calls[n] := List.getElem?_eq_getElem within
    have before := Nat.le_of_succ_le within
    rw [watch_take_succ there]
    exact (ih before).call there (waiting_watch fresh before)

/-- A session stays finished until it is reset. -/
theorem finalized_watch {j : Nat} (there : calls[j]? = some .finalize) (later : j < n)
    (within : n ≤ calls.length) (noReset : ∀ k, j < k → k < n → calls[k]? ≠ some .reset) :
    (watch m (calls.take n)).machine.session.finalized = true := by
  induction n with
  | zero => exact absurd later (Nat.not_lt_zero j)
  | succ n ih =>
    have this : calls[n]? = some calls[n] := List.getElem?_eq_getElem within
    rw [watch_take_succ this]
    have moves : Moves calls[n] (watch m (calls.take n)).machine.session
        ((watch m (calls.take n)).call calls[n]).machine.session := moves_perform _ _
    generalize ((watch m (calls.take n)).call calls[n]).machine.session = session at moves
    rcases Nat.lt_succ_iff_lt_or_eq.mp later with later | rfl
    · have finished := ih later (Nat.le_of_succ_le within)
        fun k after before => noReset k after (Nat.lt_succ_of_lt before)
      have stays : calls[n] ≠ .reset := fun isReset =>
        noReset n later (Nat.lt_succ_self n) (this.trans (congrArg some isReset))
      cases moves with
      | stays => exact finished
      | records e recording => exact absurd (finished.symm.trans recording) nofun
      | finishes => rfl
      | restarts isReset => exact absurd isReset stays
    · have isFinalize : calls[j] = .finalize := Option.some.inj (this.symm.trans there)
      cases moves with
      | stays finishes => exact finishes isFinalize
      | records e recording noFinalize => exact absurd isFinalize noFinalize
      | finishes => rfl
      | restarts isReset => exact absurd (isFinalize.symm.trans isReset) nofun

end Run

/-! ## The whole protocol -/

/-- A session without entries that refuses everything but a reset, and changes nothing. -/
structure Finished (m : Machine) : Prop where
  empty : m.session.trace = #[]
  refuses : ∀ (c : Call) (name : String), c.name? = some name →
    c.perform.run m = (.error (.error (.sessionFinalized name)), m)

/-- What holds of a run of calls on a machine. -/
structure Protocol (m : Machine) (calls : List Call) : Prop where
  /-- What is replayed was recorded before, and is replayed during the first `finalize` after that,
  with no `reset` in between. -/
  replayed : ∀ a ∈ (watch m calls).attempts,
    Recorded m calls a.recorded a.entry ∧ FinalizedBy calls a.recorded a.during
  /-- The first `finalize` after its recording, with no `reset` in between, replays an entry exactly
  once, or never if one that was recorded later failed. -/
  once : ∀ i e j, Recorded m calls i e → FinalizedBy calls i j → Once (watch m calls).attempts i j
  /-- No entry is replayed twice. -/
  atMostOnce : ∀ i, attemptsOf (watch m calls).attempts i ≤ 1
  /-- What is noted of a `finalize` is what it did: it replays the entries of the trace, the last
  first. -/
  accounted : ∀ j, calls[j]? = some .finalize →
    (afterCalls m (calls.take j)).session.finalized = false →
    ∃ entries : List (Nat × Entry),
      entries.map Prod.snd = (afterCalls m (calls.take j)).session.trace.toList.reverse
      ∧ (watch m calls).attempts.filter (fun a => a.during = j)
        = (noted j entries (closing (afterCalls m (calls.take j)))).1
      ∧ finalize.run (afterCalls m (calls.take j))
        = (noted j entries (closing (afterCalls m (calls.take j)))).2
  /-- From a `finalize`, whatever its answer, to the next `reset` the session is finished. -/
  finished : ∀ j n, calls[j]? = some .finalize → j < n → n ≤ calls.length →
    (∀ k, j < k → k < n → calls[k]? ≠ some .reset) → Finished (afterCalls m (calls.take n))

section Run

variable {m : Machine} {calls : List Call}

theorem replays_all (fresh : m.session.trace = #[]) :
    Replays m calls calls.length (watch m calls) := by
  have replays : Replays m calls calls.length (watch m (calls.take calls.length)) :=
    replays_watch fresh (Nat.le_refl _)
  rwa [List.take_length] at replays

theorem once_of_recorded (fresh : m.session.trace = #[]) {i j : Nat} {e : Entry}
    (recorded : Recorded m calls i e) (finalized : FinalizedBy calls i j) :
    Once (watch m calls).attempts i j := by
  obtain ⟨inside, -⟩ := List.getElem?_eq_some_iff.mp finalized.finalize
  exact (replays_all fresh).once i e j inside recorded finalized

theorem attemptsOf_le_one (fresh : m.session.trace = #[]) (i : Nat) :
    attemptsOf (watch m calls).attempts i ≤ 1 := by
  by_cases attempted : ∃ a ∈ (watch m calls).attempts, a.recorded = i
  · obtain ⟨a, member, rfl⟩ := attempted
    obtain ⟨-, recorded, finalized⟩ := (replays_all fresh).replayed a member
    have settled := once_of_recorded fresh recorded finalized
    by_cases overtaken : Overtaken (watch m calls).attempts a.recorded a.during
    · rw [settled.never overtaken]
      exact Nat.zero_le 1
    · exact Nat.le_of_eq (settled.once overtaken)
  · rw [attemptsOf_eq_zero fun a member same => attempted ⟨a, member, same⟩]
    exact Nat.zero_le 1

theorem exists_accounted (fresh : m.session.trace = #[]) {j : Nat}
    (isFinalize : calls[j]? = some .finalize)
    (recording : (afterCalls m (calls.take j)).session.finalized = false) :
    ∃ entries : List (Nat × Entry),
      entries.map Prod.snd = (afterCalls m (calls.take j)).session.trace.toList.reverse
      ∧ (watch m calls).attempts.filter (fun a => a.during = j)
        = (noted j entries (closing (afterCalls m (calls.take j)))).1
      ∧ finalize.run (afterCalls m (calls.take j))
        = (noted j entries (closing (afterCalls m (calls.take j)))).2 := by
  obtain ⟨inside, -⟩ := List.getElem?_eq_some_iff.mp isFinalize
  have waiting : Waiting m calls j (watch m (calls.take j)) :=
    waiting_watch fresh (Nat.le_of_lt inside)
  have entries : (watch m (calls.take j)).waiting.reverse.map Prod.snd
      = (afterCalls m (calls.take j)).session.trace.toList.reverse := by
    rw [List.map_reverse, waiting.entries, machine_watch]
  refine ⟨_, entries, ?_, ?_⟩
  · rw [← machine_watch] at recording ⊢
    rw [(replays_all fresh).accounted j inside isFinalize, Watched.replays_finalize _ recording,
      calls_watch_take isFinalize]
  · rw [noted_erases, entries]
    exact run_finalize_of_recording recording

theorem finished_afterCalls (fresh : m.session.trace = #[]) {j n : Nat}
    (isFinalize : calls[j]? = some .finalize) (later : j < n) (within : n ≤ calls.length)
    (noReset : ∀ k, j < k → k < n → calls[k]? ≠ some .reset) :
    Finished (afterCalls m (calls.take n)) := by
  have finalized := finalized_watch (m := m) isFinalize later within noReset
  have waiting : Waiting m calls n (watch m (calls.take n)) := waiting_watch fresh within
  have entries := waiting.entries
  rw [waiting.finished finalized] at entries
  rw [← machine_watch]
  exact ⟨Array.toList_eq_nil_iff.mp entries.symm,
    fun c name named => run_perform_of_finalized finalized named⟩

end Run

/-- Every run of calls on a session that starts fresh, whatever the tensors are and whatever happens
to them in between, keeps the protocol: recorded entries are replayed at most once, by the first
`finalize` after them, and a finished session does nothing until it is reset. -/
theorem protocol_of_calls (store : Store) (training : Bool) (noise : Generator)
    (calls : List Call) : Protocol ⟨store, fresh training, noise⟩ calls where
  replayed a member := ((replays_all rfl).replayed a member).2
  once _ _ _ recorded finalized := once_of_recorded rfl recorded finalized
  atMostOnce i := attemptsOf_le_one rfl i
  accounted _ isFinalize recording := exists_accounted rfl isFinalize recording
  finished _ _ isFinalize later within noReset :=
    finished_afterCalls rfl isFinalize later within noReset

/-- When an entry fails, those recorded before it are not come to, and only a reset makes a later
`finalize` replay again. -/
example :
    let entry (rule : Rule) : Entry := ⟨"own", [], [], rule⟩
    let calls : List Call := [.register (entry fun _ => .ok []),
      .register (entry fun _ => Outcome.fatal), .finalize, .finalize, .reset,
      .register (entry fun _ => .ok []), .finalize]
    (watch ⟨.empty, fresh false, .ofSeed 0⟩ calls).attempts.map
      (fun a => (a.recorded, a.during, a.answered)) = [(1, 2, false), (5, 6, true)] := by
  rfl

end Session

end LayerNet
