import LayerNet.Proofs.Session.Seeding
import LayerNet.Proofs.Session.Unary

/-!
# Chains — two operations in a row, seeded and replayed

Two operations of one operand each run one after the other, and the last result is seeded. Replayed,
the later entry distributes the seed over the result in between, whose gradient was zero, and the
earlier one distributes what arrived there over the first operand (`Session.seeded_chain`). No other
tensor that was there before gains anything, and what is replayed after these two are the entries
that there were.
-/

namespace LayerNet

/-- A well-formed store with the same contents stands for the other. -/
theorem Store.standsFor_of_contents {s s' : Store} (wf : s'.WellFormed)
    (contents : s.Keeps s') (ids : List TensorId) : s'.StandsFor false s ids :=
  fun id _ c there => ⟨c, contents id c there, wf.content (contents id c there), rfl,
    fun shaped => nomatch shaped⟩

/-- A new tensor has a gradient of zeros. -/
theorem Store.Adds.zeros {contents : List Content} {s s' : Store} {ids : List TensorId}
    (adds : Adds contents s ids s') {id : TensorId} (new : id ∈ ids) {t : Tensor}
    (there : s'.get? id = some t) : t.gradientOrZeros = Buffer.zeros t.count := by
  rcases adds.others id t there with before | ⟨-, none⟩
  · exact absurd (index_lt_of_get? before) (Nat.not_lt.mpr (adds.new id new))
  · rw [Tensor.gradientOrZeros, none]
    rfl

/-- What is received in two goes. -/
theorem Store.Receives.trans {s s' s'' : Store} {amounts amounts' : TensorId → Nat → List Float32}
    (first : s.Receives s' amounts) (second : s'.Receives s'' amounts') :
    s.Receives s'' fun id j => amounts id j ++ amounts' id j where
  size := second.size.trans first.size
  contents id := (second.contents id).trans (first.contents id)
  gradients id t t'' there there'' j small := by
    obtain ⟨t', there', content⟩ := first.tensor there
    have count : t'.count = t.count := congrArg Content.count content
    rw [second.gradients id t' t'' there' there'' j (count ▸ small),
      first.gradients id t t' there there' j small, ← List.foldl_append]

namespace Session

/-- A sound entry, replayed, leaves a well-formed store. -/
theorem wellFormed_replay {s s' : Store} {e : Entry} (wf : s.WellFormed) (sound : e.Sound s)
    (run : replay s e = .ok s') : s'.WellFormed := by
  obtain ⟨_, _, _, -, -, -, run', settles⟩ := replay_spec wf sound
  cases run.symm.trans run'
  exact settles.wellFormed wf

/-- One tensor is seeded with a buffer that it fits. -/
theorem seed_one {s : Store} {y : TensorId} {t : Tensor} {gradient : Buffer} (wf : s.WellFormed)
    (there : s.get? y = some t) (size : gradient.size = t.count) :
    ∃ s', (∀ m : Machine, m.store = s →
        (seed [y] [gradient]).run m = (.ok (), { m with store := s' }))
      ∧ s'.WellFormed ∧ s.Receives s' fun id j => if id = y then [gradient.element j] else [] := by
  have fits : ∀ amount ∈ [(y, Delta.whole gradient)], ∃ t, s.get? amount.1 = some t
      ∧ amount.2.Fits t.toContent := List.forall_mem_singleton.mpr ⟨t, there, size⟩
  have tensor : (s.tensor y : Checked Tensor) = .ok t := Outcome.get_eq_ok_iff.mpr there
  have added : t.accumulate gradient = .ok (t.plus (.whole gradient)) :=
    Tensor.add_eq_ok (d := .whole gradient) size
  obtain ⟨s', run, settles⟩ := addDeltas_spec fits
  have same : s.put y (t.plus (.whole gradient)) = s' := by
    unfold addDeltas at run
    rw [tensor] at run
    dsimp only [bind, Except.bind] at run
    rw [Tensor.add_eq_ok (d := .whole gradient) size] at run
    exact Except.ok.inj run
  refine ⟨s', ?_, settles.wellFormed wf, settles.size, settles.content?_eq, ?_⟩
  · rintro m rfl
    have first : (Access.accumulate y gradient).run m = (.ok (), { m with store := s' }) := by
      refine (Step.run_bind_ok (Step.run_tensor there)).trans ?_
      dsimp only
      rw [added, ← same]
      rfl
    exact Step.run_bind_ok first
  · intro id t₀ t₁ before after j small
    rw [settles.tensors, before, Option.map_some, Option.some_inj] at after
    subst after
    rw [Tensor.element_settled (settles.fits id t₀ before)
      (Tensor.size_gradientOrZeros (wf.gradients id t₀ before)) _ small, amountsTo_cons]
    dsimp only
    by_cases here : y = id
    · rw [if_pos here, if_pos here.symm]
      rfl
    · rw [if_neg here, if_neg (Ne.symm here)]
      rfl

/-- The gradient of one tensor, after it received amounts on top of zeros. -/
theorem element_received {s s' : Store} {amounts : TensorId → Nat → List Float32}
    (receives : s.Receives s' amounts) {id : TensorId} {t : Tensor} (there : s.get? id = some t)
    (zeros : t.gradientOrZeros = Buffer.zeros t.count) {g : Buffer} (shown : s'.gradients [id] = [g])
    {j : Nat} (small : j < t.count) : g.element j = (amounts id j).foldl (· + ·) 0 := by
  obtain ⟨t', there', -⟩ := receives.tensor there
  have gains := receives.gradients id t t' there there' j small
  rw [zeros, Buffer.element_zeros] at gains
  have same : t'.gradientOrZeros = g := by simpa [Store.gradients, there'] using shown
  rw [← same]
  exact gains

/-- An operation that gives one tensor gives it alone. -/
theorem run_apply_of_apply1 {op : Operation TensorId} {m m' : Machine} {id : TensorId}
    (run : (apply1 op).run m = (.ok id, m')) : (apply op).run m = (.ok [id], m') := by
  obtain ⟨ids, m'', ran, run⟩ := Step.run_bind_eq_ok_iff.mp run
  split at run <;> cases run
  exact ran

section Chain

variable {m m₁ m₂ : Machine} {first second : Operation TensorId} {x u y : TensorId}
  {shape shape' : Shape} {amounts amounts' : Buffer → Nat → List Float32}

/-- Two operations of one operand each, one on the result of the other, seeded and replayed. The
gradient of the last result is the seed on top of zero, that of the result in between is what the
later operation distributes on top of zero, and the operand gains what the earlier one distributes
of that. Nothing else that was there before gains anything, no content changes, and the entries that
there were before are replayed next; all of them are. -/
theorem seeded_chain (sound : m.Sound)
    (run : (apply first).run m = (.ok [u], m₁)) (run' : (apply second).run m₁ = (.ok [y], m₂))
    (distributes : Distributes m first x shape amounts)
    (distributes' : Distributes m₁ second u shape' amounts')
    {step : Step TensorError (List TensorId)} (whole : step.run m = (.ok [y], m₂))
    {gradient : Buffer} (size : gradient.size = shape'.prod) :
    ∃ (g g' : Buffer) (s : Store),
      (∀ r < shape'.prod, g.element r = 0 + gradient.element r)
      ∧ (∀ q < shape.prod, g'.element q = (amounts' g q).foldl (· + ·) 0)
      ∧ (∀ id, s.content? id = m₂.store.content? id)
      ∧ (∀ id, m.store.Gains s id fun j => if id = x then amounts g' j else [])
      ∧ (seeded step [gradient]).run m
        = (replayAll m.session.trace.toList.reverse).run (closing { m₂ with store := s })
      ∧ ((seeded step [gradient]).run m).1 = .ok () := by
  have sound₁ : m₁.Sound := by
    have kept := sound.apply first
    rwa [run] at kept
  have sound₂ : m₂.Sound := by
    have kept := sound₁.apply second
    rwa [run'] at kept
  obtain ⟨-, _, -, adds, -⟩ := of_run_apply run
  obtain ⟨-, _, -, adds', -⟩ := of_run_apply run'
  obtain ⟨_, d, e, same, there₁, shaped, recorded, replays⟩ := distributes _ _ run
  cases same
  obtain ⟨_, d', e', same, there₂, shaped', recorded', replays'⟩ := distributes' _ _ run'
  cases same
  obtain ⟨t₁, tensor₁, content⟩ := Option.map_eq_some_iff.mp there₁
  obtain ⟨t₂, tensor₂, content'⟩ := Option.map_eq_some_iff.mp there₂
  have count : t₁.count = shape.prod := by
    rw [← shaped, ← (sound₁.store.content there₁).count, ← content]
  have count' : t₂.count = shape'.prod := by
    rw [← shaped', ← (sound₂.store.content there₂).count, ← content']
  have newer : u.index < y.index :=
    Nat.lt_of_lt_of_le (Store.index_lt_of_get? tensor₁) (adds'.new y List.mem_cons_self)
  -- the seed, the later entry and the earlier one
  obtain ⟨s₀, seeds, wf₀, received₀⟩ := seed_one sound₂.store tensor₂ (size.trans count'.symm)
  have keeps₀ : m₂.store.Keeps s₀ := fun id c there => (received₀.contents id).trans there
  obtain ⟨g, s₁, shown, -, replayed', received₁⟩ :=
    replays' s₀ wf₀ (Store.standsFor_of_contents wf₀ keeps₀ _)
  have member : e' ∈ m₂.session.trace.toList := by simp [recorded']
  have wf₁ := wellFormed_replay wf₀ ((sound₂.entries e' member).mono keeps₀) replayed'
  have keeps₁ : m₁.store.Keeps s₁ := fun id c there =>
    (received₁.contents id).trans (keeps₀ id c (adds'.keeps id c there))
  obtain ⟨g', s₂, shown', -, replayed, received₂⟩ :=
    replays s₁ wf₁ (Store.standsFor_of_contents wf₁ keeps₁ _)
  have received := (received₀.trans received₁).trans received₂
  refine ⟨g, g', s₂, fun r small => ?_, fun q small => ?_, received.contents, fun id => ?_,
    ?_, ?_⟩
  · have arrived := element_received received₀ tensor₂ (adds'.zeros List.mem_cons_self tensor₂)
      shown (count' ▸ small)
    rwa [if_pos rfl] at arrived
  · have arrived := element_received (received₀.trans received₁) (adds'.kept u t₁ tensor₁)
      (adds.zeros List.mem_cons_self tensor₁) shown' (count ▸ small)
    rwa [if_neg fun same => Nat.ne_of_lt newer (congrArg TensorId.index same), if_pos rfl] at arrived
  · intro t t' before after j small
    have old := Store.index_lt_of_get? before
    have before' := adds.kept id t before
    have notU : id ≠ u := by
      rintro rfl
      exact Nat.not_lt.mpr (adds.new id List.mem_cons_self) old
    have notY : id ≠ y := by
      rintro rfl
      exact Nat.not_lt.mpr (adds'.new id List.mem_cons_self) (Store.index_lt_of_get? before')
    have gains := received.gradients id t t' (adds'.kept id t before') after j small
    simp only [if_neg notU, if_neg notY, List.nil_append] at gains
    exact gains
  · have entries : [e', e].foldlM replay s₀ = .ok s₂ := by
      rw [List.foldlM_cons, replayed']
      exact (List.foldlM_cons ..).trans (congrArg (· >>= _) replayed)
    have recording : ({ m₂ with store := s₀ } : Machine).session.finalized = false :=
      sound₂.recording
    unfold seeded
    rw [Step.run_bind_ok whole, Step.run_bind_ok (seeds m₂ rfl),
      run_finalize_of_recording recording]
    have trace : m₂.session.trace.toList.reverse
        = [e', e] ++ m.session.trace.toList.reverse := by
      rw [recorded', recorded]
      simp
    rw [trace]
    exact run_replayAll_append _ entries
  · refine seeded_eq_ok whole sound₂ fun pair member => ?_
    obtain rfl := List.mem_singleton.mp member
    refine ⟨d', there₂, ?_⟩
    rw [← content']
    exact size.trans count'.symm

end Chain

end Session

end LayerNet
