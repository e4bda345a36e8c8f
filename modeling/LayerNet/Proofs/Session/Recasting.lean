import LayerNet.Proofs.Operation.Shapeless
import LayerNet.Proofs.Session.Replay
import LayerNet.Proofs.Session.Watching

/-!
# Recasting — replays after tensors were reshaped

Between the calls and the replay, tensors may be given other shapes of the same count
(`Store.Reshaped`). A replay then does what it would have done without, as long as every entry has a
shapeless rule or refers to no tensor that was reshaped (`Session.finalize_reshaped`). What
operations record has a shapeless rule (`Session.shapeless_of_operations`), so the exception is
about slices alone.

Two stores with the same values and gradients under different shapes stay so while they are replayed
side by side (`Store.Recast`): each entry is shown the same but for the shapes, so its rule answers
the same, and the same amounts are added.
-/

namespace LayerNet

/-- The same values and gradient, under another shape only where that is not excluded. -/
structure Tensor.Recast (same : Prop) (t t' : Tensor) : Prop where
  values : t'.values = t.values
  gradient : t'.gradient = t.gradient
  content : same → t'.toContent = t.toContent

namespace Tensor.Recast

variable {same : Prop} {t t' : Tensor}

theorem refl (same : Prop) (t : Tensor) : Recast same t t := ⟨rfl, rfl, fun _ => rfl⟩

variable (recast : Recast same t t')
include recast

theorem count : t'.count = t.count := congrArg Array.size recast.values

theorem gradientOrZeros : t'.gradientOrZeros = t.gradientOrZeros := by
  rw [Tensor.gradientOrZeros, Tensor.gradientOrZeros, recast.gradient, recast.count]

theorem allocate : Recast same t.allocate t'.allocate where
  values := recast.values
  gradient := congrArg some recast.gradientOrZeros
  content := recast.content

/-- What can be added to one can be added to the other. -/
theorem add {d : Delta} {u : Tensor} (added : t.add d = .ok u) :
    ∃ u', t'.add d = .ok u' ∧ Recast same u u' := by
  cases d with
  | whole amounts =>
    simp only [Tensor.add, accumulate] at added ⊢
    rw [recast.count, recast.gradientOrZeros]
    split at added
    · cases added
    next fits =>
      cases added
      rw [if_neg fits]
      exact ⟨_, rfl, recast.values, rfl, recast.content⟩
  | sparse amounts =>
    simp only [Tensor.add, scatter] at added ⊢
    rw [recast.count, recast.gradientOrZeros]
    split at added
    next fits =>
      cases added
      rw [if_pos fits]
      exact ⟨_, rfl, recast.values, rfl, recast.content⟩
    · cases added

end Tensor.Recast

/-- The same tensors but for the shapes of some, which the given ones are not among. -/
def Store.Recast (unmoved : TensorId → Prop) (s s' : Store) : Prop :=
  ∀ id, Option.Rel (Tensor.Recast (unmoved id)) (s.get? id) (s'.get? id)

namespace Store.Recast

variable {unmoved : TensorId → Prop} {s s' : Store}

theorem refl (unmoved : TensorId → Prop) (s : Store) : Recast unmoved s s := by
  intro id
  cases s.get? id with
  | none => exact .none
  | some t => exact .some (.refl _ t)

variable (recast : Recast unmoved s s')
include recast

theorem exists_of_get? {id : TensorId} {t : Tensor} (there : s.get? id = some t) :
    ∃ t', s'.get? id = some t' ∧ Tensor.Recast (unmoved id) t t' := by
  have related := recast id
  rw [there] at related
  generalize s'.get? id = found at related
  cases related with
  | some related => exact ⟨_, rfl, related⟩

theorem allocate (id : TensorId) :
    Recast unmoved (s.update id Tensor.allocate) (s'.update id Tensor.allocate) := by
  intro other
  have related := recast other
  rw [get?_update, get?_update]
  split
  · generalize s.get? other = found, s'.get? other = found' at related
    cases related with
    | some related => exact .some related.allocate
    | none => exact .none
  · exact related

theorem put {id : TensorId} {t t' u u' : Tensor} (there : s.get? id = some t)
    (there' : s'.get? id = some t') (new : Tensor.Recast (unmoved id) u u') :
    Recast unmoved (s.put id u) (s'.put id u') := by
  intro other
  by_cases here : id = other
  · subst here
    rw [get?_put s u (index_lt_of_get? there), get?_put s' u' (index_lt_of_get? there')]
    exact .some new
  · rw [get?_put_of_ne s u here, get?_put_of_ne s' u' here]
    exact recast other

theorem foldl_allocate (ids : List TensorId) :
    Recast unmoved (ids.foldl (fun s id => s.update id Tensor.allocate) s)
      (ids.foldl (fun s id => s.update id Tensor.allocate) s') := by
  induction ids generalizing s s' with
  | nil => exact recast
  | cons id ids ih => exact ih (recast.allocate id)

end Store.Recast

/-! ## Shapes changed in place -/

/-- Some tensors of a store are reshaped, one after the other, as often as one likes. -/
inductive Store.Reshaped (s : Store) : List TensorId → Store → Prop where
  | refl : Reshaped s [] s
  | reshape {ids : List TensorId} {s' : Store} {id : TensorId} {t : Tensor} {shape : Shape}
    {c : Content} : Reshaped s ids s' → s'.get? id = some t → t.toContent.reshape shape = .ok c →
    Reshaped s (id :: ids) (s'.put id { t with toContent := c })

/-- Values and gradients stay, and so do the shapes of all other tensors. -/
theorem Store.Reshaped.recast {s s' : Store} {ids : List TensorId} (reshaped : s.Reshaped ids s') :
    s.Recast (fun id => id ∉ ids) s' := by
  induction reshaped with
  | refl => exact .refl _ s
  | @reshape ids s' id t shape c _ there made ih =>
    have values : c.values = t.values := by
      unfold Content.reshape at made
      obtain ⟨⟨⟩, -, made⟩ := Outcome.bind_eq_ok_iff.mp made
      obtain ⟨count, -, made⟩ := Outcome.bind_eq_ok_iff.mp made
      split at made
      · cases made
      · obtain ⟨strides, -, made⟩ := Outcome.bind_eq_ok_iff.mp made
        cases made
        rfl
    intro other
    have related := ih other
    by_cases here : id = other
    · subst here
      rw [get?_put s' _ (index_lt_of_get? there)]
      rw [there] at related
      generalize s.get? id = found at related
      cases related with
      | some related =>
        exact .some ⟨values.trans related.values, related.gradient,
          fun moved => absurd List.mem_cons_self moved⟩
    · rw [get?_put_of_ne s' _ here]
      generalize s.get? other = found, s'.get? other = found' at related
      cases related with
      | none => exact .none
      | some related =>
        refine .some ⟨related.values, related.gradient, fun unmoved => related.content ?_⟩
        exact fun member => unmoved (List.mem_cons_of_mem id member)

namespace Session

/-! ## Replay -/

section Replay

variable {unmoved : TensorId → Prop} {s s' : Store} (recast : s.Recast unmoved s')
include recast

theorem addDeltas_recast {amounts : List (TensorId × Delta)} {after : Store}
    (run : addDeltas s amounts = .ok after) :
    ∃ after', addDeltas s' amounts = .ok after' ∧ after.Recast unmoved after' := by
  induction amounts generalizing s s' with
  | nil =>
    cases run
    exact ⟨s', rfl, recast⟩
  | cons amount amounts ih =>
    obtain ⟨id, d⟩ := amount
    obtain ⟨t, found, run⟩ := Outcome.bind_eq_ok_iff.mp run
    obtain ⟨u, added, run⟩ := Outcome.bind_eq_ok_iff.mp run
    have there := Outcome.get_eq_ok_iff.mp found
    obtain ⟨t', there', related⟩ := recast.exists_of_get? there
    obtain ⟨u', added', related'⟩ := related.add added
    obtain ⟨after', run', last⟩ := ih (recast.put there there' related') run
    refine ⟨after', ?_, last⟩
    refine Outcome.bind_eq_ok_iff.mpr ⟨t', Outcome.get_eq_ok_iff.mpr there', ?_⟩
    exact Outcome.bind_eq_ok_iff.mpr ⟨u', added', run'⟩

/-- The tensors that are looked up, in both stores. -/
theorem tensors_recast {ids : List TensorId} {ts : List Tensor}
    (found : (ids.mapM fun id => (s.tensor id : Checked Tensor)) = .ok ts) :
    ∃ ts', (ids.mapM fun id => (s'.tensor id : Checked Tensor)) = .ok ts'
      ∧ (ts'.map Tensor.toContent).map Content.values = (ts.map Tensor.toContent).map Content.values
      ∧ ts'.map Tensor.gradientOrZeros = ts.map Tensor.gradientOrZeros
      ∧ ((∀ id ∈ ids, unmoved id) → ts'.map Tensor.toContent = ts.map Tensor.toContent) := by
  simp only [Outcome.mapM_eq_ok_iff] at found ⊢
  induction found with
  | nil => exact ⟨[], .nil, rfl, rfl, fun _ => rfl⟩
  | @cons id t ids ts first _ ih =>
    obtain ⟨ts', found', values, gradients, contents⟩ := ih
    obtain ⟨t', there', related⟩ := recast.exists_of_get? (Outcome.get_eq_ok_iff.mp first)
    refine ⟨t' :: ts', .cons (Outcome.get_eq_ok_iff.mpr there') found', ?_, ?_, fun same => ?_⟩
    · simp only [List.map_cons, values, related.values]
    · simp only [List.map_cons, gradients, related.gradientOrZeros]
    · obtain ⟨here, same⟩ := List.forall_mem_cons.mp same
      simp only [List.map_cons, contents same, related.content here]

/-- What an entry is shown, in both stores. -/
theorem seen_recast {e : Entry} {shown : Seen} (run : seen s e = .ok shown) :
    ∃ shown', seen s' e = .ok shown' ∧ shown.Recast shown'
      ∧ ((∀ id ∈ e.inputs ++ e.outputs, unmoved id) → shown' = shown) := by
  obtain ⟨ins, foundIns, run⟩ := Outcome.bind_eq_ok_iff.mp run
  obtain ⟨outs, foundOuts, run⟩ := Outcome.bind_eq_ok_iff.mp run
  cases run
  obtain ⟨ins', foundIns', insValues, -, insContents⟩ := tensors_recast recast foundIns
  obtain ⟨outs', foundOuts', outsValues, gradients, outsContents⟩ := tensors_recast recast foundOuts
  refine ⟨⟨ins'.map Tensor.toContent, outs'.map Tensor.toContent, outs'.map Tensor.gradientOrZeros⟩,
    ?_, ⟨insValues, outsValues, gradients⟩, fun same => ?_⟩
  · refine Outcome.bind_eq_ok_iff.mpr ⟨ins', foundIns', ?_⟩
    exact Outcome.bind_eq_ok_iff.mpr ⟨outs', foundOuts', rfl⟩
  · rw [gradients, insContents fun id member => same id (List.mem_append_left _ member),
      outsContents fun id member => same id (List.mem_append_right _ member)]

/-- An entry is replayed in both stores alike if its rule is shapeless or what it refers to was not
reshaped. -/
theorem replay_recast {e : Entry}
    (geometry : e.rule.Shapeless ∨ ∀ id ∈ e.inputs ++ e.outputs, unmoved id) {after : Store}
    (run : replay s e = .ok after) :
    ∃ after', replay s' e = .ok after' ∧ after.Recast unmoved after' := by
  obtain ⟨shown, saw, run⟩ := Outcome.bind_eq_ok_iff.mp run
  obtain ⟨deltas, answered, run⟩ := Outcome.bind_eq_ok_iff.mp run
  obtain ⟨shown', saw', related, same⟩ := seen_recast recast saw
  have answered' : e.rule shown' = .ok deltas := by
    rcases geometry with shapeless | unmoved
    · exact (shapeless shown shown' related).trans answered
    · exact same unmoved ▸ answered
  obtain ⟨after', run', last⟩ := addDeltas_recast (recast.foldl_allocate e.outputs) run
  refine ⟨after', ?_, last⟩
  refine Outcome.bind_eq_ok_iff.mpr ⟨shown', saw', ?_⟩
  exact Outcome.bind_eq_ok_iff.mpr ⟨deltas, answered', run'⟩

theorem foldlM_replay_recast {entries : List Entry}
    (geometry : ∀ e ∈ entries, e.rule.Shapeless ∨ ∀ id ∈ e.inputs ++ e.outputs, unmoved id)
    {after : Store} (run : entries.foldlM replay s = .ok after) :
    ∃ after', entries.foldlM replay s' = .ok after' ∧ after.Recast unmoved after' := by
  induction entries generalizing s s' with
  | nil =>
    cases run
    exact ⟨s', rfl, recast⟩
  | cons e entries ih =>
    obtain ⟨here, geometry⟩ := List.forall_mem_cons.mp geometry
    rw [List.foldlM_cons] at run
    obtain ⟨s₁, first, run⟩ := Outcome.bind_eq_ok_iff.mp run
    obtain ⟨s₁', first', recast₁⟩ := replay_recast recast here first
    obtain ⟨after', run', last⟩ := ih recast₁ geometry run
    refine ⟨after', ?_, last⟩
    rw [List.foldlM_cons]
    exact Outcome.bind_eq_ok_iff.mpr ⟨s₁', first', run'⟩

end Replay

/-- What operations record has shapeless rules, slices apart. -/
theorem shapeless_of_operations {m : Machine} (fresh : m.session.trace = #[])
    (ops : List (Operation TensorId)) :
    ∀ e ∈ (afterCalls m (ops.map .apply)).session.trace.toList,
      e.name = "slice" ∨ e.rule.Shapeless := by
  induction ops using List.reverseRecOn with
  | nil =>
    intro e member
    rw [List.map_nil, afterCalls, List.foldl_nil, fresh] at member
    exact absurd member List.not_mem_nil
  | append_singleton ops op ih =>
    rw [List.map_append, List.map_singleton, afterCalls, List.foldl_concat, ← afterCalls]
    generalize afterCalls m (ops.map .apply) = before at ih ⊢
    show ∀ e ∈ ((apply op >>= fun _ => pure ()).run before).2.session.trace.toList, _
    rcases run_apply op before with ⟨failure, run⟩ | ⟨computed, ids, store, -, success, -, run⟩
    · rw [Step.run_bind_error run]
      exact ih
    · rw [Step.run_bind_ok run]
      intro e member
      rcases List.mem_append.mp (Array.toList_push ▸ member) with old | new
      · exact ih e old
      · cases List.mem_singleton.mp new
        cases isSlice : (operandsOf before.store op).isSlice with
        | true =>
          have same : op.isSlice = true := (Operation.isSlice_map _ op).symm.trans isSlice
          exact .inl (Operation.name_of_isSlice same)
        | false => exact .inr (Operation.compute_shapeless isSlice computed success)

/-- Replay uses the geometry of the calls. Whatever a session recorded and whichever tensors are
reshaped before the replay, `finalize` succeeds and leaves the values and gradients that it leaves
without, unless an entry refers to a reshaped tensor and its rule asks for shapes again. -/
theorem finalize_reshaped {start m : Machine} (wf : start.store.WellFormed)
    (open? : start.session.finalized = false) (fresh : start.session.trace = #[])
    (recording : Recording start m) {ids : List TensorId} {store : Store}
    (reshaped : m.store.Reshaped ids store)
    (geometry : ∀ e ∈ m.session.trace.toList,
      e.rule.Shapeless ∨ ∀ id ∈ e.inputs ++ e.outputs, id ∉ ids) :
    ∃ after after',
      finalize.run m = (.ok (), { m with
        store := after
        session := { m.session with trace := #[], finalized := true } })
      ∧ finalize.run { m with store } = (.ok (), { m with
        store := after'
        session := { m.session with trace := #[], finalized := true } })
      ∧ after.Recast (fun id => id ∉ ids) after' := by
  have sound := (Machine.sound_of_fresh wf open? fresh).of_recording recording
  obtain ⟨after, replayed⟩ := exists_replayed sound
  have run : m.session.trace.toList.reverse.foldlM replay m.store = .ok after := replayed.finished
  obtain ⟨after', run', recast⟩ := foldlM_replay_recast reshaped.recast
    (fun e member => geometry e (List.mem_reverse.mp member)) run
  exact ⟨after, after', run_finalize sound.recording run, run_finalize sound.recording run', recast⟩

end Session

end LayerNet
