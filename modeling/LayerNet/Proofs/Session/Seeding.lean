import LayerNet.Access
import LayerNet.Proofs.Session.Replay

/-!
# Seeding — gradients handed to tensors before the replay

A caller seeds tensors by adding to their gradients, one buffer to each (`Session.seed`), and has the
session replayed then. Seeding depends on nothing but the tensors, and changes nothing but their
gradients (`Session.seed_spec`, by induction along the tensors).

So two ways to the same tensors leave the same gradients, once seeded and replayed, when only the
entries that they recorded last differ and these, replayed, leave the same store
(`Session.seeded_same`).
-/

namespace LayerNet

namespace Session

/-- Adds to the gradients of tensors, one buffer to each. -/
def seed (ids : List TensorId) (gradients : List Buffer) : Step TensorError Unit :=
  (ids.zip gradients).forM fun (id, gradient) => Access.accumulate id gradient

/-- Seeds the tensors that a step gives, and has all entries replayed. -/
def seeded (x : Step TensorError (List TensorId)) (gradients : List Buffer) :
    Step TensorError Unit := do
  seed (← x) gradients
  finalize

/-- The second store has the contents of the first, and is well formed if that is. -/
structure Reseeded (before after : Store) : Prop where
  wellFormed : before.WellFormed → after.WellFormed
  contents : ∀ id, after.content? id = before.content? id

theorem Reseeded.trans {s s' s'' : Store} (first : Reseeded s s') (second : Reseeded s' s'') :
    Reseeded s s'' where
  wellFormed wf := second.wellFormed (first.wellFormed wf)
  contents id := (second.contents id).trans (first.contents id)

/-- A buffer is added to the gradient of a tensor that it fits. -/
theorem reseeded_put {s : Store} {id : TensorId} {t : Tensor} {amounts : Buffer}
    (there : s.get? id = some t) (size : amounts.size = t.count) :
    Reseeded s (s.put id (t.plus (.whole amounts))) := by
  have fits : ∀ amount ∈ [(id, Delta.whole amounts)], ∃ t, s.get? amount.1 = some t
      ∧ amount.2.Fits t.toContent := List.forall_mem_singleton.mpr ⟨t, there, size⟩
  obtain ⟨s', run, settles⟩ := addDeltas_spec fits
  have tensor : (s.tensor id : Checked Tensor) = .ok t := Outcome.get_eq_ok_iff.mpr there
  have same : s.put id (t.plus (.whole amounts)) = s' := by
    unfold addDeltas at run
    rw [tensor] at run
    dsimp only [bind, Except.bind] at run
    rw [Tensor.add_eq_ok (d := .whole amounts) size] at run
    exact Except.ok.inj run
  rw [same]
  exact ⟨settles.wellFormed, settles.content?_eq⟩

/-- Adding to one gradient, as the store stands. -/
theorem accumulate_spec (id : TensorId) (amounts : Buffer) (s : Store) : ∃ result s',
    (∀ m : Machine, m.store = s →
      (Access.accumulate id amounts).run m = (result, { m with store := s' }))
    ∧ Reseeded s s'
    ∧ ((∃ c, s.content? id = some c ∧ amounts.size = c.count) → result = .ok ()) := by
  cases there : s.get? id with
  | none =>
    refine ⟨Outcome.fatal, s, ?_, ⟨fun wf => wf, fun _ => rfl⟩, ?_⟩
    · rintro m rfl
      have missing : (Step.tensor id : Step TensorError Tensor).run m = (Outcome.fatal, m) := by
        show ((m.store.tensor id : Checked Tensor), m) = _
        rw [Store.tensor, there]
        rfl
      exact Step.run_bind_error missing
    · rintro ⟨c, content, -⟩
      rw [Store.content?, there] at content
      cases content
  | some t =>
    have run (m : Machine) (store : m.store = s) : (Access.accumulate id amounts).run m
        = (do
          let amended ← Step.lift (t.accumulate amounts)
          Step.modifyStore fun s => s.put id amended : Step TensorError Unit).run m :=
      Step.run_bind_ok (Step.run_tensor (store ▸ there))
    by_cases size : amounts.size = t.count
    · have added : t.accumulate amounts = .ok (t.plus (.whole amounts)) :=
        Tensor.add_eq_ok (d := .whole amounts) size
      refine ⟨.ok (), _, ?_, reseeded_put there size, fun _ => rfl⟩
      rintro m rfl
      rw [run m rfl, added]
      rfl
    · have refused : t.accumulate amounts
          = Outcome.fail (.shapeMismatch t.shape [amounts.size] "accumulate_grad") := if_pos size
      refine ⟨Outcome.fail (.shapeMismatch t.shape [amounts.size] "accumulate_grad"), s, ?_,
        ⟨fun wf => wf, fun _ => rfl⟩, ?_⟩
      · rintro m rfl
        rw [run m rfl, refused]
        rfl
      · rintro ⟨c, content, fits⟩
        rw [Store.content?_of_get? there] at content
        cases content
        exact absurd fits size

/-- Seeding, as the store stands: whatever the session, it comes to the same, and only gradients
change. Where the gradients fit, it succeeds. -/
theorem seed_spec (ids : List TensorId) (gradients : List Buffer) (s : Store) : ∃ result s',
    (∀ m : Machine, m.store = s → (seed ids gradients).run m = (result, { m with store := s' }))
    ∧ Reseeded s s'
    ∧ ((∀ pair ∈ ids.zip gradients, ∃ c, s.content? pair.1 = some c ∧ pair.2.size = c.count) →
      result = .ok ()) := by
  unfold seed
  induction ids.zip gradients generalizing s with
  | nil =>
    refine ⟨.ok (), s, ?_, ⟨fun wf => wf, fun _ => rfl⟩, fun _ => rfl⟩
    rintro m rfl
    rfl
  | cons pair pairs ih =>
    obtain ⟨id, gradient⟩ := pair
    obtain ⟨first, s₁, run, reseeded, succeeds⟩ := accumulate_spec id gradient s
    obtain ⟨rest, s₂, run', reseeded', succeeds'⟩ := ih s₁
    cases first with
    | error failure =>
      refine ⟨.error failure, s₁, fun m store => ?_, reseeded, fun fits => ?_⟩
      · exact Step.run_bind_error (run m store)
      · exact nomatch succeeds (fits _ List.mem_cons_self)
    | ok =>
      refine ⟨rest, s₂, fun m store => ?_, reseeded.trans reseeded', fun fits => ?_⟩
      · exact (Step.run_bind_ok (run m store)).trans (run' _ rfl)
      · refine succeeds' fun pair member => ?_
        rw [reseeded.contents]
        exact fits pair (List.mem_cons_of_mem _ member)

/-- Steps that give the same tensors, on whose entries no later replay depends, leave the same store
once the tensors are seeded and all entries replayed. -/
theorem seeded_same {m : Machine} (recording : m.session.finalized = false)
    {x y : Step TensorError (List TensorId)} {ids : List TensorId} {store : Store}
    {trace trace' : Array Entry} {old new new' : List Entry}
    (run : x.run m = (.ok ids, { m with store, session := { m.session with trace } }))
    (run' : y.run m = (.ok ids, { m with store, session := { m.session with trace := trace' } }))
    (recorded : trace.toList = old ++ new) (recorded' : trace'.toList = old ++ new')
    (replays : ∀ s, Reseeded store s → ∃ s', new.reverse.foldlM replay s = .ok s'
      ∧ new'.reverse.foldlM replay s = .ok s') (gradients : List Buffer) :
    ((seeded x gradients).run m).1 = ((seeded y gradients).run m).1
      ∧ ((seeded x gradients).run m).2.store = ((seeded y gradients).run m).2.store := by
  obtain ⟨result, s, seeds, reseeded, -⟩ := seed_spec ids gradients store
  obtain ⟨s', replayed, replayed'⟩ := replays s reseeded
  -- the old entries are replayed from one machine, since a replay begins with an empty trace
  have finalizes {trace : Array Entry} {new : List Entry} (recorded : trace.toList = old ++ new)
      (replayed : new.reverse.foldlM replay s = .ok s') :
      finalize.run { m with store := s, session := { m.session with trace } }
        = (replayAll old.reverse).run (closing { m with store := s' }) := by
    have run := run_finalize_of_recording
      (m := { m with store := s, session := { m.session with trace } }) recording
    rw [recorded, List.reverse_append] at run
    exact run.trans (run_replayAll_append old.reverse replayed)
  have seeding {x : Step TensorError (List TensorId)} {trace : Array Entry} {new : List Entry}
      (run : x.run m = (.ok ids, { m with store, session := { m.session with trace } }))
      (recorded : trace.toList = old ++ new)
      (replayed : new.reverse.foldlM replay s = .ok s') : (seeded x gradients).run m
        = match result with
          | .ok () => (replayAll old.reverse).run (closing { m with store := s' })
          | .error failure =>
            (.error failure, { m with store := s, session := { m.session with trace } }) := by
    unfold seeded
    rw [Step.run_bind_ok run, Step.run_bind, seeds _ rfl]
    cases result with
    | error failure => rfl
    | ok => exact finalizes recorded replayed
  rw [seeding run recorded replayed, seeding run' recorded' replayed']
  cases result <;> exact ⟨rfl, rfl⟩

/-- Where the gradients fit, a sound session replays all entries after they are seeded. -/
theorem seeded_eq_ok {m m' : Machine} {x : Step TensorError (List TensorId)} {ids : List TensorId}
    (run : x.run m = (.ok ids, m')) (sound : m'.Sound) {gradients : List Buffer}
    (fits : ∀ pair ∈ ids.zip gradients,
      ∃ c, m'.store.content? pair.1 = some c ∧ pair.2.size = c.count) :
    ((seeded x gradients).run m).1 = .ok () := by
  obtain ⟨result, s, seeds, reseeded, succeeds⟩ := seed_spec ids gradients m'.store
  have sound' : Machine.Sound { m' with store := s } :=
    sound.of_store (reseeded.wellFormed sound.store) fun id c there =>
      (reseeded.contents id).trans there
  obtain ⟨after, replayed⟩ := exists_replayed sound'
  have first := seeds m' rfl
  rw [succeeds fits] at first
  unfold seeded
  rw [Step.run_bind_ok run, Step.run_bind_ok first,
    run_finalize sound'.recording replayed.finished]

end Session

end LayerNet
