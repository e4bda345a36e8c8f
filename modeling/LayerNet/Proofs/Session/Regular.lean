import LayerNet.Access
import LayerNet.Layer.Forward
import LayerNet.Proofs.Session.Runs
import LayerNet.Proofs.Store.Regular

/-!
# Regular tensors in a session — what no step breaks

A step carries the tensors when, run on a machine whose tensors are regular, it leaves one whose
tensors are regular, all that were there among them, with as many elements (`Step.Carries`). It does
so whether it succeeds or not, and whatever the arguments are: an entry may have any rule, a layer
may refer to any tensors. There is one rule for each way to combine steps. From these follow the
steps of a session, those on single tensors, and those of a layer.

A tensor that is to be replaced is replaced as a whole, or not at all (`Access.allOrNothing_amend`).
-/

namespace LayerNet

namespace Step

variable {ε α β : Type}

/-- On regular tensors, the step leaves regular tensors, as large as they were. -/
def Carries (x : Step ε α) : Prop :=
  ∀ m : Machine, m.store.Regular → m.store.Carries (x.run m).2.store

/-- The step fails only where it leaves the machine as it was. -/
def AllOrNothing (x : Step ε α) : Prop := ∀ m failure m', x.run m = (.error failure, m') → m' = m

theorem Carries.of_store {x : Step ε α} (same : ∀ m, (x.run m).2.store = m.store) : x.Carries :=
  fun m regular => by
    rw [same]
    exact .refl regular

/-- What reads a tensor first fails where it stands, or goes on with the tensor that is there. -/
theorem run_bind_tensor (id : TensorId) (f : Tensor → Step ε α) (m : Machine) :
    (∃ failure, (tensor id >>= f).run m = (.error failure, m))
      ∨ ∃ t, m.store.get? id = some t ∧ (tensor id >>= f).run m = (f t).run m := by
  have read : (tensor id : Step ε Tensor).run m = (m.store.tensor id, m) := rfl
  cases found : (m.store.tensor id : Outcome ε Tensor) with
  | error failure => exact .inl ⟨failure, run_bind_error (found ▸ read)⟩
  | ok t => exact .inr ⟨t, Outcome.get_eq_ok_iff.mp found, run_bind_ok (found ▸ read)⟩

theorem carries_pure (a : α) : (pure a : Step ε α).Carries := .of_store fun _ => rfl

theorem carries_lift (x : Outcome ε α) : (lift x).Carries := .of_store fun _ => rfl

theorem carries_fail (cause : ε) : (fail cause : Step ε α).Carries := carries_lift _

theorem carries_get : (get : Step ε Machine).Carries := .of_store fun _ => rfl

theorem carries_tensor (id : TensorId) : (tensor id : Step ε Tensor).Carries :=
  .of_store fun _ => rfl

theorem carries_modifySession (f : Session → Session) : (modifySession f : Step ε Unit).Carries :=
  .of_store fun _ => rfl

theorem carries_modifyStore {f : Store → Store}
    (carries : ∀ s : Store, s.Regular → s.Carries (f s)) : (modifyStore f : Step ε Unit).Carries :=
  fun m regular => carries m.store regular

/-- A sequence, of which the second step is run on the machine that the first left. -/
theorem Carries.bind_of_run {x : Step ε α} {f : α → Step ε β} (first : x.Carries)
    (rest : ∀ m a m', x.run m = (.ok a, m') → (f a).Carries) : (x >>= f).Carries := by
  intro m regular
  have carried := first m regular
  rw [run_bind]
  cases run : x.run m with
  | mk result m' =>
    rw [run] at carried
    cases result with
    | error failure => exact carried
    | ok a => exact carried.trans (rest m a m' run m' carried.regular)

theorem Carries.bind {x : Step ε α} {f : α → Step ε β} (first : x.Carries)
    (rest : ∀ a, (f a).Carries) : (x >>= f).Carries :=
  first.bind_of_run fun _ a _ _ => rest a

/-- A sequence that begins with a computation of its own. -/
theorem carries_bind_lift {x : Outcome ε α} {f : α → Step ε β}
    (rest : ∀ a, x = .ok a → (f a).Carries) : (lift x >>= f).Carries :=
  (carries_lift x).bind_of_run fun _ a _ run => rest a (congrArg Prod.fst run)

theorem carries_mapM {f : α → Step ε β} (xs : List α) (each : ∀ x ∈ xs, (f x).Carries) :
    (xs.mapM f).Carries := by
  induction xs with
  | nil => exact carries_pure _
  | cons x xs ih =>
    obtain ⟨first, rest⟩ := List.forall_mem_cons.mp each
    rw [List.mapM_cons]
    exact first.bind fun y => (ih rest).bind fun ys => carries_pure _

theorem carries_foldlM {f : β → α → Step ε β} (xs : List α) (start : β)
    (each : ∀ b x, (f b x).Carries) : (xs.foldlM f start).Carries := by
  induction xs generalizing start with
  | nil => exact carries_pure _
  | cons x xs ih =>
    rw [List.foldlM_cons]
    exact (each start x).bind fun b => ih b

/-- A new tensor. -/
theorem carries_add {c : Content} (made : c.Made) (name : Option String) :
    (add c name : Step ε TensorId).Carries := fun m regular => by
  have adds : Store.Adds [c] m.store [(m.store.add c name).1] (m.store.add c name).2 :=
    .cons rfl rfl (.refl _)
  exact adds.carries regular (List.forall_mem_singleton.mpr made.regular)

end Step

open Step

namespace Session

theorem carries_checkRecording (operation : String) : (checkRecording operation).Carries :=
  carries_get.bind fun m => by
    split
    · exact carries_fail _
    · exact carries_pure _

theorem carries_apply (op : Operation TensorId) : (apply op).Carries := by
  intro m regular
  rcases run_apply_cases op m with same | ⟨computed, ids, store, -, success, adds, run⟩
  · rw [same]
    exact .refl regular
  · rw [run]
    exact adds.carries regular fun c member =>
      (Operation.compute_made _ computed success c member).regular

theorem carries_apply1 (op : Operation TensorId) : (apply1 op).Carries :=
  (carries_apply op).bind fun ids => by
    split
    · exact carries_pure _
    · exact carries_lift _

theorem carries_record {output : Content} (made : output.Made) (name : String)
    (inputs : List TensorId) (rule : Rule) : (record name inputs output rule).Carries :=
  (carries_checkRecording name).bind fun _ => (carries_add made none).bind fun _ =>
    (carries_modifySession _).bind fun _ => carries_pure _

theorem carries_register (entry : Entry) : (register entry).Carries :=
  (carries_checkRecording entry.name).bind fun _ => carries_modifySession _

theorem carries_replayAll (entries : List Entry) : (replayAll entries).Carries := by
  induction entries with
  | nil => exact carries_pure _
  | cons e entries ih =>
    intro m regular
    unfold replayAll
    rw [run_bind_ok (run_get m)]
    cases replayed : replay m.store e with
    | error failure =>
      rw [run_bind_error (run_lift (.error failure) m)]
      exact .refl regular
    | ok store =>
      have carries := carries_replay regular replayed
      rw [run_bind_ok (run_lift (.ok store) m), run_bind_ok (run_modifyStore _ m)]
      exact carries.trans (ih { m with store } carries.regular)

/-- A replay, up to the entry that it stops at. -/
theorem carries_finalize : finalize.Carries :=
  (carries_checkRecording _).bind fun _ => carries_get.bind fun _ =>
    (carries_modifySession _).bind fun _ => carries_replayAll _

theorem carries_custom (x : TensorId) (factor : Float32) (back : Custom) :
    (custom x factor back).Carries :=
  (carries_tensor x).bind fun _ => carries_bind_lift fun _ made =>
    carries_record (Content.made_of_make made) _ _ _

end Session

/-! ## Single tensors -/

namespace Access

/-- A tensor is replaced, or the change fails and the machine is as it was. -/
theorem run_amend (id : TensorId) (f : Tensor → Checked Tensor) (m : Machine) :
    (∃ failure, (amend id f).run m = (.error failure, m))
      ∨ ∃ t t', m.store.get? id = some t ∧ f t = .ok t'
        ∧ (amend id f).run m = (.ok (), { m with store := m.store.put id t' }) := by
  unfold amend
  rcases run_bind_tensor id _ m with ⟨failure, run⟩ | ⟨t, there, run⟩
  · exact .inl ⟨failure, run⟩
  · rw [run]
    cases amended : f t with
    | error failure => exact .inl ⟨failure, run_bind_error (run_lift _ m)⟩
    | ok t' => exact .inr ⟨t, t', there, amended, rfl⟩

theorem allOrNothing_amend (id : TensorId) (f : Tensor → Checked Tensor) :
    (amend id f).AllOrNothing := by
  intro m failure m' run
  rcases run_amend id f m with ⟨_, refused⟩ | ⟨_, _, _, _, amended⟩
  · exact (congrArg Prod.snd (refused.symm.trans run)).symm
  · exact nomatch congrArg Prod.fst (amended.symm.trans run)

theorem carries_amend (id : TensorId) {f : Tensor → Checked Tensor}
    (follows : ∀ t t', t.Regular → f t = .ok t' → t.Follows t') : (amend id f).Carries := by
  intro m regular
  rcases run_amend id f m with ⟨failure, run⟩ | ⟨t, t', there, amended, run⟩
  · rw [run]
    exact .refl regular
  · rw [run]
    exact m.store.carries_put regular there (follows t t' (regular id t there) amended)

theorem carries_reshape (id : TensorId) (shape : Shape) : (reshape id shape).Carries :=
  carries_amend id fun t t' regular amended => by
    obtain ⟨content, reshaped, amended⟩ := Outcome.bind_eq_ok_iff.mp amended
    cases amended
    obtain ⟨regular', count⟩ := Content.Regular.of_reshape reshaped
    refine ⟨⟨regular', fun g there => ?_⟩, count⟩
    calc g.size = t.count := (regular.gradient g there).trans regular.count.symm
      _ = content.count := count.symm
      _ = content.shape.prod := regular'.values

theorem carries_accumulate (id : TensorId) (amounts : Buffer) : (accumulate id amounts).Carries :=
  carries_amend id fun _ _ regular added => regular.follows_add (d := .whole amounts) added

theorem carries_gradient (id : TensorId) : (gradient id).Carries :=
  (carries_modifyStore fun s regular => s.carries_update regular id fun t there =>
    (regular id t there).follows_gradient (regular id t there).size_gradientOrZeros).bind fun _ =>
      (carries_tensor id).bind fun _ => carries_pure _

theorem carries_editValues (id : TensorId) (edit : Edit) : (editValues id edit).Carries :=
  carries_modifyStore fun s regular => s.carries_mapValues regular id fun t _ => edit.size t.values

theorem carries_editGradient (id : TensorId) (edit : Edit) : (editGradient id edit).Carries :=
  carries_modifyStore fun s regular => s.carries_update regular id fun t there =>
    (regular id t there).follows_gradient
      ((edit.size _).trans (regular id t there).size_gradientOrZeros)

theorem carries_dropGradient (id : TensorId) : (dropGradient id).Carries :=
  carries_modifyStore fun s regular => s.carries_dropGradient regular id

theorem carries_rename (id : TensorId) (name : String) : (rename id name).Carries :=
  carries_modifyStore fun s regular => s.carries_update regular id fun t there =>
    ⟨⟨(regular id t there).content, (regular id t there).gradient⟩, rfl⟩

end Access

/-! ## Layers and losses -/

namespace Layer

theorem carries_onlyInput (layer : String) (xs : List TensorId) : (onlyInput layer xs).Carries := by
  unfold onlyInput
  split
  · exact carries_pure _
  · exact carries_fail _

theorem carries_batchSize (x : TensorId) (sample : Shape) (layer : String) :
    (batchSize x sample layer).Carries :=
  (carries_tensor x).bind fun t => by
    dsimp only
    split
    · exact carries_pure _
    · exact carries_fail _

theorem carries_flatten (x : TensorId) (leading : List Nat) (isFlat : Bool) (weight : TensorId) :
    (flatten x leading isFlat weight).Carries := by
  unfold flatten
  split
  · exact carries_pure _
  · exact (carries_tensor weight).bind fun t => (carries_lift _).bind fun features =>
      Session.carries_apply1 _

theorem carries_forwardUnits (x : TensorId) (inputShape : Shape) (weight bias : TensorId) :
    (forwardUnits x inputShape weight bias).Carries :=
  (carries_batchSize _ _ _).bind fun _ => (carries_flatten _ _ _ _).bind fun _ =>
    (Session.carries_apply1 _).bind fun _ => (Session.carries_apply1 _).bind fun _ =>
      carries_pure _

theorem carries_states (inputWeight stateWeight bias state : TensorId) (frames : List TensorId) :
    (states inputWeight stateWeight bias state frames).Carries := by
  induction frames generalizing state with
  | nil => exact carries_pure _
  | cons frame rest ih =>
    refine Carries.bind ?_ fun next => (ih next).bind fun later => carries_pure _
    exact (Session.carries_apply1 _).bind fun fromInput => (Session.carries_apply1 _).bind
      fun fromState => (Session.carries_apply1 _).bind fun sum => (Session.carries_apply1 _).bind
        fun biased => Session.carries_apply1 _

theorem carries_forwardStates (x : TensorId) (inputShape : Shape) (summarize : Bool)
    (inputWeight stateWeight bias : TensorId) :
    (forwardStates x inputShape summarize inputWeight stateWeight bias).Carries := by
  refine (carries_batchSize _ _ _).bind fun batch => (carries_flatten _ _ _ _).bind fun sequence =>
    (Session.carries_apply _).bind fun frames => (carries_tensor bias).bind fun t => ?_
  refine carries_bind_lift fun zeros made => (carries_add (Content.full_made made) none).bind
    fun start => (carries_states _ _ _ _ _).bind fun hs => ?_
  split
  · exact carries_pure _
  · exact (Session.carries_apply1 _).bind fun stacked => carries_pure _

theorem carries_forwardPooling (x : TensorId) (pooling : Pooling) (size : Nat)
    (inputShape : Shape) : (forwardPooling x pooling size inputShape).Carries :=
  (carries_batchSize _ _ _).bind fun _ => by
    split <;> exact (Session.carries_apply1 _).bind fun rows =>
      (Session.carries_apply1 _).bind fun pooled => carries_pure _

/-- The noise is drawn on the machine that the tensor was read from. -/
theorem carries_forwardDropout (x : TensorId) (keep : Float32) :
    (forwardDropout x keep).Carries := by
  intro m regular
  unfold forwardDropout
  rw [run_bind_ok (run_get m)]
  split
  · exact .refl regular
  rcases run_bind_tensor x _ m with ⟨failure, run⟩ | ⟨t, -, run⟩
  · rw [run]
    exact .refl regular
  rw [run]
  exact (Session.carries_apply1 _).bind (fun _ => carries_pure _)
    { m with noise := (m.noise.units t.count).2 } regular

theorem carries_forwardLoss (x : TensorId) (loss : Loss) : (forwardLoss x loss).Carries :=
  (carries_tensor x).bind fun _ => carries_bind_lift fun _ made =>
    (Session.carries_record (Content.made_of_make made) _ _ _).bind fun _ => carries_pure _

/-- A layer, whatever it refers to and whatever it is run on. -/
theorem carries_forward (layer : Layer) (xs : List TensorId) : (layer.forward xs).Carries := by
  unfold forward
  cases layer with
  | input shape =>
    exact (carries_onlyInput _ _).bind fun x => (carries_batchSize _ _ _).bind fun _ =>
      carries_pure _
  | fullyConnected => exact (carries_onlyInput _ _).bind fun x => carries_forwardUnits _ _ _ _
  | convolution =>
    exact (carries_onlyInput _ _).bind fun x => (carries_batchSize _ _ _).bind fun _ =>
      Session.carries_apply _
  | pool => exact (carries_onlyInput _ _).bind fun x => carries_forwardPooling _ _ _ _
  | recurrent => exact (carries_onlyInput _ _).bind fun x => carries_forwardStates _ _ _ _ _ _
  | dropout => exact (carries_onlyInput _ _).bind fun x => carries_forwardDropout _ _
  | scale | normalization =>
    exact (carries_onlyInput _ _).bind fun x => Session.carries_apply _
  | split branches shape =>
    exact (carries_onlyInput _ _).bind fun x => carries_mapM _ fun _ _ => Session.carries_apply1 _
  | concat inputs shape =>
    dsimp only
    split
    · exact carries_fail _
    · exact Session.carries_apply _
  | activation a shape =>
    refine (carries_onlyInput _ _).bind fun x => ?_
    cases a <;> exact Session.carries_apply _
  | loss l shape => exact (carries_onlyInput _ _).bind fun x => carries_forwardLoss _ _

end Layer

end LayerNet
