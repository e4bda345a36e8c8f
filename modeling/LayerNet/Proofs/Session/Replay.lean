import LayerNet.Proofs.Session.Additions

/-!
# Replay — backwards through the trace is complete accumulation

The entries are replayed from the last to the first. Each adds, for every operand, what its rule
says for the gradients of its results as they are by then (`Session.replay_spec`). No entry that
comes later in the replay refers to these results, so the gradients that the rule was shown are the
final ones, and what it said is what it says of the final store (`Session.contribution`). So in the
end every gradient is what it was, plus the contributions of all entries that consumed the tensor,
in the order of the replay (`Session.replayAll_spec`, by induction along the replay).
-/

namespace LayerNet

namespace Session

/-- What an entry adds as a store stands: an amount for each operand, in argument order. -/
def contribution (store : Store) (entry : Entry) : Checked (List (TensorId × Delta)) := do
  let deltas ← entry.rule (← seen store entry)
  return entry.inputs.zip deltas

/-- The store once the entries from number `k` on have been replayed, the last first. -/
def replayedFrom (store : Store) (entries : List Entry) (k : Nat) : Checked Store :=
  (entries.drop k).reverse.foldlM replay store

/-- What replaying entries does to a store. -/
structure Replayed (before : Store) (entries : List Entry) (after : Store) : Prop where
  /-- Every entry is replayed once, after those recorded later. -/
  eachOnce : ∀ k e, entries[k]? = some e → ∃ reached done,
    replayedFrom before entries (k + 1) = .ok reached ∧ replay reached e = .ok done
      ∧ replayedFrom before entries k = .ok done
  /-- The last of them is the first entry that was recorded. -/
  finished : replayedFrom before entries 0 = .ok after
  /-- Once an entry is replayed, nothing is written to its results any more. -/
  settled : ∀ k e, entries[k]? = some e → ∀ done, replayedFrom before entries k = .ok done →
    ∀ j ≤ k, ∀ later, replayedFrom before entries j = .ok later →
      ∀ o ∈ e.outputs, later.get? o = done.get? o
  /-- At the end every rule answers, with one amount for each operand. -/
  answered : ∀ e ∈ entries, ∃ shown deltas, seen after e = .ok shown ∧ e.rule shown = .ok deltas
    ∧ deltas.length = e.inputs.length
  /-- Every tensor is what it was, with the contributions added to its gradient, the last entry's
  first, each as the final store says; the gradients of results are allocated if nothing was
  added. -/
  accumulated : ∃ contributions, entries.reverse.mapM (contribution after) = .ok contributions
    ∧ ∀ id t, before.get? id = some t →
      ∃ t', (amountsTo id contributions.flatten).foldlM Tensor.add t = .ok t'
        ∧ after.get? id
          = some (if entries.any fun e => e.outputs.contains id then t'.allocate else t')
  /-- There are no other tensors. -/
  size : after.tensors.size = before.tensors.size

/-! ## One entry -/

/-- Amounts for tensors that are there and that they fit are added, each to its tensor. -/
theorem addDeltas_spec {s : Store} {amounts : List (TensorId × Delta)}
    (fits : ∀ amount ∈ amounts, ∃ t, s.get? amount.1 = some t ∧ amount.2.Fits t.toContent) :
    ∃ s', addDeltas s amounts = .ok s' ∧ s.Settles s' (fun _ => false) amounts := by
  induction amounts generalizing s with
  | nil => exact ⟨s, rfl, .refl s⟩
  | cons amount amounts ih =>
    obtain ⟨id, d⟩ := amount
    obtain ⟨⟨t, there, fit⟩, fits⟩ := List.forall_mem_cons.mp fits
    have first : s.Settles (s.put id (t.plus d)) (fun _ => false) [(id, d)] := by
      refine ⟨Array.size_setIfInBounds, fun other => ?_, fun other t' there' d' member => ?_⟩
      · by_cases same : id = other
        · subst same
          rw [Store.get?_put s _ (Store.index_lt_of_get? there), there]
          simp [amountsTo, Tensor.settled]
        · rw [Store.get?_put_of_ne s _ same, amountsTo_eq_nil (by simpa using same)]
          cases s.get? other <;> rfl
      · obtain ⟨rfl, rfl⟩ := Prod.mk.inj (List.mem_singleton.mp (mem_amountsTo.mp member))
        rw [there] at there'
        cases there'
        exact fit
    have fits' : ∀ amount ∈ amounts, ∃ t', (s.put id (t.plus d)).get? amount.1 = some t'
        ∧ amount.2.Fits t'.toContent := by
      intro amount member
      obtain ⟨t', there', fit'⟩ := fits amount member
      rw [first.tensors, there']
      exact ⟨_, rfl, (Tensor.toContent_settled _ _).symm ▸ fit'⟩
    obtain ⟨s', run, rest⟩ := ih fits'
    refine ⟨s', ?_, first.trans rest⟩
    have tensor : (s.tensor id : Checked Tensor) = .ok t := Outcome.get_eq_ok_iff.mpr there
    show (s.tensor id >>= fun tensor => tensor.add d >>= fun added =>
      addDeltas (s.put id added) amounts) = _
    rw [tensor]
    show (t.add d >>= fun added => addDeltas (s.put id added) amounts) = _
    rw [Tensor.add_eq_ok fit]
    exact run

/-- The gradients of results are allocated. -/
theorem allocate_spec (s : Store) (outputs : List TensorId) :
    s.Settles (outputs.foldl (fun s id => s.update id Tensor.allocate) s)
      (fun id => outputs.contains id) [] := by
  induction outputs generalizing s with
  | nil => exact .refl s
  | cons o outputs ih =>
    have first : s.Settles (s.update o Tensor.allocate) (fun id => id == o) [] := by
      refine ⟨Array.size_modify, fun id => ?_, fun _ _ _ _ member => absurd member List.not_mem_nil⟩
      rw [Store.get?_update]
      by_cases same : o = id
      · subst same
        rw [if_pos rfl]
        simp [amountsTo]
        rfl
      · rw [if_neg same]
        cases s.get? id <;> simp [amountsTo, Tensor.settled, Ne.symm same]
    have both := first.trans (ih (s.update o Tensor.allocate))
    simpa only [List.contains_cons, List.append_nil, List.foldl_cons] using both

/-- What holds of every tensor of a list holds of the list. -/
theorem exists_tensors {β : Type} {s : Store} {f : Tensor → β} {ids : List TensorId} {ys : List β}
    (there : List.Forall₂ (fun id y => (s.get? id).map f = some y) ids ys) :
    ∃ ts, (ids.mapM fun id => (s.tensor id : Checked Tensor)) = .ok ts ∧ ts.map f = ys := by
  induction there with
  | nil => exact ⟨[], rfl, rfl⟩
  | @cons id y ids ys first _ ih =>
    obtain ⟨ts, run, same⟩ := ih
    obtain ⟨t, tensor, rfl⟩ := Option.map_eq_some_iff.mp first
    refine ⟨t :: ts, Outcome.mapM_eq_ok_iff.mpr (.cons ?_ (Outcome.mapM_eq_ok_iff.mp run)), ?_⟩
    · exact Outcome.get_eq_ok_iff.mpr tensor
    · rw [List.map_cons, same]

/-- A rule is shown the contents of operands and results, and the gradients of the results. -/
theorem seen_eq_ok {s : Store} {e : Entry} {inputs outputs : List Content} {gradients : List Buffer}
    (into : List.Forall₂ (fun id c => s.content? id = some c) e.inputs inputs)
    (out : List.Forall₂ (fun id c => s.content? id = some c) e.outputs outputs)
    (grads : List.Forall₂ (fun id g => (s.get? id).map Tensor.gradientOrZeros = some g) e.outputs
      gradients) : seen s e = .ok ⟨inputs, outputs, gradients⟩ := by
  obtain ⟨ins, runIns, rfl⟩ := exists_tensors into
  obtain ⟨outs, runOuts, rfl⟩ := exists_tensors out
  obtain ⟨outs', runOuts', rfl⟩ := exists_tensors grads
  cases runOuts.symm.trans runOuts'
  unfold seen
  rw [runIns]
  show ((e.outputs.mapM fun id => (s.tensor id : Checked Tensor)) >>= _) = _
  rw [runOuts]
  rfl

theorem forall₂_gradients {s : Store} (wf : s.WellFormed) {ids : List TensorId}
    {contents : List Content}
    (there : List.Forall₂ (fun id c => s.content? id = some c) ids contents) :
    ∃ gradients,
      List.Forall₂ (fun id g => (s.get? id).map Tensor.gradientOrZeros = some g) ids gradients
        ∧ List.Forall₂ (fun (g : Buffer) (c : Content) => g.size = c.count) gradients contents := by
  induction there with
  | nil => exact ⟨[], .nil, .nil⟩
  | @cons id c ids contents first _ ih =>
    obtain ⟨gradients, grads, sizes⟩ := ih
    obtain ⟨t, tensor, rfl⟩ := Option.map_eq_some_iff.mp first
    refine ⟨t.gradientOrZeros :: gradients, .cons ?_ grads, .cons ?_ sizes⟩
    · rw [tensor]
      rfl
    · exact Tensor.size_gradientOrZeros (wf.gradients id t tensor)

/-- Two lists that stand to the same third one: members at one place have a member there in
common. -/
theorem exists_of_mem_zip {α β γ : Type} {R : α → γ → Prop} {S : β → γ → Prop} {xs : List α}
    {ys : List β} {zs : List γ} (left : List.Forall₂ R xs zs) (right : List.Forall₂ S ys zs)
    {p : α × β} (member : p ∈ xs.zip ys) : ∃ z, R p.1 z ∧ S p.2 z := by
  induction left generalizing ys with
  | nil => cases member
  | cons first _ ih =>
    cases right with
    | cons first' rest =>
      rcases List.mem_cons.mp member with rfl | member
      · exact ⟨_, first, first'⟩
      · exact ih rest member

/-- A sound entry is replayed: its rule is shown what the store has, and answers, and every tensor
is settled with what the answer has for it. -/
theorem replay_spec {s : Store} (wf : s.WellFormed) {e : Entry} (sound : e.Sound s) :
    ∃ shown deltas s', seen s e = .ok shown ∧ e.rule shown = .ok deltas
      ∧ deltas.length = e.inputs.length ∧ replay s e = .ok s'
      ∧ s.Settles s' (fun id => e.outputs.contains id) (e.inputs.zip deltas) := by
  obtain ⟨-, inputs, outputs, into, out, rule⟩ := sound
  obtain ⟨gradients, grads, sizes⟩ := forall₂_gradients wf out
  obtain ⟨deltas, answer, fit⟩ := rule gradients sizes
  have shown := seen_eq_ok into out grads
  have allocated := allocate_spec s e.outputs
  have fits : ∀ amount ∈ e.inputs.zip deltas, ∃ t,
      (e.outputs.foldl (fun s id => s.update id Tensor.allocate) s).get? amount.1 = some t
        ∧ amount.2.Fits t.toContent := by
    intro amount member
    obtain ⟨c, content, fit⟩ := exists_of_mem_zip into fit member
    obtain ⟨t, tensor, rfl⟩ := Option.map_eq_some_iff.mp content
    rw [allocated.tensors, tensor]
    exact ⟨_, rfl, (Tensor.toContent_settled _ _).symm ▸ fit⟩
  obtain ⟨s', run, added⟩ := addDeltas_spec fits
  refine ⟨_, deltas, s', shown, answer, ?_, ?_, ?_⟩
  · exact fit.length_eq.trans into.length_eq.symm
  · unfold replay
    rw [shown]
    show (e.rule _ >>= fun deltas => addDeltas _ (e.inputs.zip deltas)) = _
    rw [answer]
    exact run
  · simpa only [Bool.or_false, List.nil_append] using allocated.trans added

/-! ## All entries -/

/-- An entry writes to no tensor that it does not refer to. -/
theorem get?_replay {s s' : Store} {e : Entry} (run : replay s e = .ok s') {id : TensorId}
    (noInput : id ∉ e.inputs) (noOutput : id ∉ e.outputs) : s'.get? id = s.get? id := by
  have added {s s' : Store} {amounts : List (TensorId × Delta)}
      (run : addDeltas s amounts = .ok s') (other : ∀ amount ∈ amounts, amount.1 ≠ id) :
      s'.get? id = s.get? id := by
    induction amounts generalizing s with
    | nil =>
      cases run
      rfl
    | cons amount amounts ih =>
      obtain ⟨first, other⟩ := List.forall_mem_cons.mp other
      obtain ⟨t, -, run⟩ := Outcome.bind_eq_ok_iff.mp run
      obtain ⟨t', -, run⟩ := Outcome.bind_eq_ok_iff.mp run
      rw [ih run other, Store.get?_put_of_ne s t' first]
  obtain ⟨shown, -, run⟩ := Outcome.bind_eq_ok_iff.mp run
  obtain ⟨deltas, -, run⟩ := Outcome.bind_eq_ok_iff.mp run
  rw [added run, (allocate_spec s e.outputs).tensors]
  · have unallocated : e.outputs.contains id = false := by simpa using noOutput
    rw [unallocated]
    cases s.get? id <;> rfl
  · intro amount member same
    exact noInput (same ▸ (List.of_mem_zip member).1)

/-- Nothing is written to a tensor that no entry refers to. -/
theorem get?_foldlM_replay {s s' : Store} {entries : List Entry}
    (run : entries.foldlM replay s = .ok s') {id : TensorId}
    (other : ∀ e ∈ entries, id ∉ e.inputs ++ e.outputs) : s'.get? id = s.get? id := by
  induction entries generalizing s with
  | nil =>
    cases run
    rfl
  | cons e entries ih =>
    obtain ⟨first, other⟩ := List.forall_mem_cons.mp other
    rw [List.mem_append, not_or] at first
    rw [List.foldlM_cons] at run
    obtain ⟨s₁, replayed, run⟩ := Outcome.bind_eq_ok_iff.mp run
    rw [ih run other, get?_replay replayed first.1 first.2]

/-- Contributions are amounts for operands. -/
theorem mem_contribution {s : Store} {e : Entry} {amounts : List (TensorId × Delta)}
    (success : contribution s e = .ok amounts) {amount : TensorId × Delta}
    (member : amount ∈ amounts) : amount.1 ∈ e.inputs := by
  obtain ⟨shown, -, success⟩ := Outcome.bind_eq_ok_iff.mp success
  obtain ⟨deltas, -, success⟩ := Outcome.bind_eq_ok_iff.mp success
  cases success
  exact (List.of_mem_zip member).1

/-- A result that was settled with nothing but an allocation has the gradient that it had. -/
theorem gradientOrZeros_eq {s s' : Store} {allocates : TensorId → Bool}
    {amounts : List (TensorId × Delta)} (settles : s.Settles s' allocates amounts) {o : TensorId}
    (other : ∀ amount ∈ amounts, amount.1 ≠ o) :
    (s'.get? o).map Tensor.gradientOrZeros = (s.get? o).map Tensor.gradientOrZeros := by
  rw [settles.tensors, amountsTo_eq_nil other]
  cases s.get? o with
  | none => rfl
  | some t => cases allocates o <;> rfl

/-- Entries replayed one after the other, none of which refers to a result of one before it. By
induction along the replay: the first entry is shown the gradients of its results that the last
store still has, so it contributes what it contributes as that store stands. -/
theorem foldlM_replay_spec {s : Store} (wf : s.WellFormed) {entries : List Entry}
    (sound : ∀ e ∈ entries, e.Sound s) (ordered : entries.Pairwise fun later e => e.Before later) :
    ∃ contributions s', entries.foldlM replay s = .ok s'
      ∧ entries.mapM (contribution s') = .ok contributions
      ∧ (∀ e ∈ entries, ∃ shown deltas, seen s' e = .ok shown ∧ e.rule shown = .ok deltas
        ∧ deltas.length = e.inputs.length)
      ∧ s.Settles s' (fun id => entries.any fun e => e.outputs.contains id)
        contributions.flatten := by
  induction entries generalizing s with
  | nil => exact ⟨[], s, rfl, rfl, fun _ member => absurd member List.not_mem_nil, .refl s⟩
  | cons e entries ih =>
    obtain ⟨first, sound⟩ := List.forall_mem_cons.mp sound
    obtain ⟨before, ordered⟩ := List.pairwise_cons.mp ordered
    obtain ⟨shown, deltas, s₁, see, answer, length, replayed, settles⟩ := replay_spec wf first
    obtain ⟨contributions, s', run, contribute, answered, rest⟩ := ih (settles.wellFormed wf)
      (fun e' member => (sound e' member).mono settles.keeps) ordered
    have all := settles.trans rest
    have see' : seen s' e = .ok shown := by
      obtain ⟨inputs, outputs, into, out, -⟩ := first.rule
      obtain ⟨gradients, grads, -⟩ := forall₂_gradients wf out
      have same := see.symm.trans (seen_eq_ok into out grads)
      rw [same]
      refine seen_eq_ok (into.imp fun id c => all.keeps id c) (out.imp fun id c => all.keeps id c)
        (forall₂_imp_of_mem grads fun o result g grad => ?_)
      refine (gradientOrZeros_eq all fun amount member same => ?_).trans grad
      rcases List.mem_append.mp member with member | member
      · have older := first.fresh amount.1 (List.of_mem_zip member).1 o result
        rw [same] at older
        exact Nat.lt_irrefl _ older
      · obtain ⟨amounts, among, member⟩ := List.mem_flatten.mp member
        obtain ⟨e', inside, contributed⟩ := Outcome.exists_of_mapM_eq_ok contribute among
        have older := before e' inside amount.1
          (List.mem_append_left _ (mem_contribution contributed member)) o result
        rw [same] at older
        exact Nat.lt_irrefl _ older
    have mine : contribution s' e = .ok (e.inputs.zip deltas) := by
      unfold contribution
      rw [see']
      show (e.rule shown >>= fun deltas => pure (e.inputs.zip deltas)) = _
      rw [answer]
      rfl
    refine ⟨e.inputs.zip deltas :: contributions, s', ?_, ?_, ?_, ?_⟩
    · rw [List.foldlM_cons, replayed]
      exact run
    · rw [List.mapM_cons, mine]
      show (entries.mapM (contribution s') >>= fun rest => pure (e.inputs.zip deltas :: rest)) = _
      rw [contribute]
      rfl
    · rw [List.forall_mem_cons]
      exact ⟨⟨shown, deltas, see', answer, length⟩, answered⟩
    · simpa only [List.any_cons, List.flatten_cons] using all

/-! ## Whole traces -/

theorem foldlM_add_eq_ok {t : Tensor} {amounts : List Delta}
    (fits : ∀ d ∈ amounts, d.Fits t.toContent) :
    amounts.foldlM Tensor.add t = .ok (amounts.foldl Tensor.plus t) := by
  induction amounts generalizing t with
  | nil => rfl
  | cons d amounts ih =>
    obtain ⟨first, fits⟩ := List.forall_mem_cons.mp fits
    rw [List.foldlM_cons, Tensor.add_eq_ok first]
    exact ih fits

section Trace

variable {before : Store} {entries : List Entry}

/-- The replay from an earlier entry on goes through the replay from a later one on. -/
theorem replayedFrom_of_le {j k : Nat} (le : j ≤ k) :
    replayedFrom before entries j = replayedFrom before entries k >>= fun reached =>
      ((entries.drop j).take (k - j)).reverse.foldlM replay reached := by
  have parts : entries.drop j = (entries.drop j).take (k - j) ++ entries.drop k := by
    conv_lhs => rw [← List.take_append_drop (k - j) (entries.drop j)]
    rw [List.drop_drop, Nat.add_sub_cancel' le]
  unfold replayedFrom
  conv_lhs => rw [parts, List.reverse_append, List.foldlM_append]

theorem replayedFrom_eq_bind {k : Nat} {e : Entry} (there : entries[k]? = some e) :
    replayedFrom before entries k = replayedFrom before entries (k + 1) >>= fun reached =>
      replay reached e := by
  obtain ⟨inside, rfl⟩ := List.getElem?_eq_some_iff.mp there
  unfold replayedFrom
  rw [List.drop_eq_getElem_cons inside, List.reverse_cons, List.foldlM_append]
  simp only [List.foldlM_cons, List.foldlM_nil, bind_pure]

/-- If all entries can be replayed, so can those from any number on. -/
theorem exists_replayedFrom {after : Store}
    (finished : replayedFrom before entries 0 = .ok after) (k : Nat) :
    ∃ reached, replayedFrom before entries k = .ok reached := by
  rw [replayedFrom_of_le (Nat.zero_le k)] at finished
  obtain ⟨reached, run, -⟩ := Outcome.bind_eq_ok_iff.mp finished
  exact ⟨reached, run⟩

end Trace

/-- Every sound trace is replayed. -/
theorem exists_replayed {m : Machine} (sound : m.Sound) :
    ∃ after, Replayed m.store m.session.trace.toList after := by
  generalize entries_eq : m.session.trace.toList = entries
  have ordered : entries.Pairwise Entry.Before := entries_eq ▸ sound.ordered
  obtain ⟨contributions, after, run, contribute, answered, settles⟩ :=
    @foldlM_replay_spec m.store sound.store entries.reverse
      (fun e member => sound.entries e (entries_eq ▸ List.mem_reverse.mp member))
      (List.pairwise_reverse.mpr ordered)
  have finished : replayedFrom m.store entries 0 = .ok after := run
  refine ⟨after, ?_, finished, ?_, ?_, ⟨contributions, contribute, ?_⟩, settles.size⟩
  · intro k e there
    obtain ⟨reached, first⟩ := exists_replayedFrom finished (k + 1)
    obtain ⟨done, second⟩ := exists_replayedFrom finished k
    have replayed := second
    rw [replayedFrom_eq_bind there, first] at replayed
    exact ⟨reached, done, first, replayed, second⟩
  · intro k e there done first j le later second o result
    rw [replayedFrom_of_le le, first] at second
    refine get?_foldlM_replay second fun e' member refers => ?_
    -- the entries in between were recorded before this one
    have earlier : e' ∈ entries.take k := by
      rw [List.mem_reverse] at member
      rw [← List.drop_take] at member
      exact List.mem_of_mem_drop member
    obtain ⟨inside, rfl⟩ := List.getElem?_eq_some_iff.mp there
    have here : entries[k] ∈ entries.drop k := by
      rw [List.drop_eq_getElem_cons inside]
      exact List.mem_cons_self
    have before : e'.Before entries[k] := by
      rw [← List.take_append_drop k entries, List.pairwise_append] at ordered
      exact ordered.2.2 e' earlier _ here
    exact Nat.lt_irrefl _ (before o refers o result)
  · intro e member
    exact answered e (List.mem_reverse.mpr member)
  · intro id t there
    refine ⟨_, foldlM_add_eq_ok (settles.fits id t there), ?_⟩
    rw [settles.tensors, there, List.any_reverse]
    rfl

/-- The first entries are replayed as far as a fold of `replay` over them goes, then the others. -/
theorem run_replayAll_append {entries : List Entry} (rest : List Entry) {m : Machine} {after : Store}
    (run : entries.foldlM replay m.store = .ok after) :
    (replayAll (entries ++ rest)).run m = (replayAll rest).run { m with store := after } := by
  induction entries generalizing m with
  | nil =>
    cases run
    rfl
  | cons e entries ih =>
    rw [List.foldlM_cons] at run
    obtain ⟨s, replayed, run⟩ := Outcome.bind_eq_ok_iff.mp run
    rw [List.cons_append, replayAll, Step.run_bind_ok (Step.run_get m),
      Step.run_bind_ok (a := s) (by rw [Step.run_lift, replayed]),
      Step.run_bind_ok (Step.run_modifyStore _ m)]
    exact ih run

/-- The entries are replayed as far as a fold of `replay` over them goes. -/
theorem run_replayAll {entries : List Entry} {m : Machine} {after : Store}
    (run : entries.foldlM replay m.store = .ok after) :
    (replayAll entries).run m = (.ok (), { m with store := after }) := by
  rw [← List.append_nil entries, run_replayAll_append [] run]
  rfl

/-- `finalize` replays the entries as far as a fold of `replay` over them goes, the last first. -/
theorem run_finalize {m : Machine} {after : Store} (recording : m.session.finalized = false)
    (run : m.session.trace.toList.reverse.foldlM replay m.store = .ok after) :
    finalize.run m = (.ok (), { m with
      store := after
      session := { m.session with trace := #[], finalized := true } }) := by
  rw [run_finalize_of_recording recording]
  exact run_replayAll run

/-- Backwards replay is complete accumulation. Whatever a session recorded, and whatever gradients
were set before, `finalize` succeeds, and it replays the entries as `Replayed` says. -/
theorem finalize_recording {start m : Machine} (wf : start.store.WellFormed)
    (open? : start.session.finalized = false) (fresh : start.session.trace = #[])
    (recording : Recording start m) :
    ∃ after, Replayed m.store m.session.trace.toList after
      ∧ finalize.run m = (.ok (), { m with
        store := after
        session := { m.session with trace := #[], finalized := true } }) := by
  have sound := (Machine.sound_of_fresh wf open? fresh).of_recording recording
  obtain ⟨after, replayed⟩ := exists_replayed sound
  refine ⟨after, replayed, ?_⟩
  exact run_finalize sound.recording replayed.finished

/-- A square plus its root: the root is consumed three times, twice by the same operation. -/
theorem finalize_recording_square : ∃ m after, Recording Machine.fresh m
    ∧ m.session.trace.toList.map Entry.name = ["mul", "add"]
    ∧ Replayed m.store m.session.trace.toList after
    ∧ finalize.run m = (.ok (), { m with
        store := after
        session := { m.session with trace := #[], finalized := true } }) := by
  have made : Content.make #[1, 2] [2] = .ok ⟨[2], [1], #[1, 2]⟩ := by
    have valid : Shape.validate [2] = .ok () := (Shape.validate_eq_ok_iff _).mpr (by decide)
    have finite : Buffer.nonFinite? #[1, 2] = none := by decide +kernel
    unfold Content.make
    rw [valid, finite]
    rfl
  have recording := ((Relation.ReflTransGen.single
    (Records.create Machine.fresh _ _ _ none made)).tail
      (.apply _ (.mul ⟨0⟩ ⟨0⟩))).tail (.apply _ (.add ⟨1⟩ ⟨0⟩))
  obtain ⟨after, replayed, run⟩ := finalize_recording Store.wellFormed_empty rfl rfl recording
  exact ⟨_, after, recording, by decide +kernel, replayed, run⟩

end Session

end LayerNet
