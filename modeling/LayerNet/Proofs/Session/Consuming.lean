import LayerNet.Proofs.Session.Handing
import LayerNet.Proofs.Session.Regular

/-!
# Consuming — whatever an operation consumed has a gradient in the end

A tensor is consumed when an entry of the trace has it for an operand (`Machine.Consumed`). What a
program does while its session records never takes an entry back (`Recording.trace_prefix`), so a
tensor that was consumed stays so. Replaying an entry adds an amount to the gradient of each of its
operands, whatever that amount is. So when all entries have been replayed every tensor that was
consumed has a gradient of its own size, also where nothing was seeded that depends on it
(`Session.finalize_reaches`).

Two properties of steps lead there. A step proceeds when everything that it does is part of a
recording (`Step.Proceeds`), and it consumes a tensor when, wherever it succeeds, the tensor was
consumed (`Step.Consumes`). There is one rule for each way to combine steps. What adds to gradients
by hand proceeds as well: it sets them to buffers of their size (`Records.put_accumulated`).
-/

namespace LayerNet

/-- An entry that was recorded has the tensor for an operand. -/
def Machine.Consumed (m : Machine) (id : TensorId) : Prop :=
  ∃ e ∈ m.session.trace.toList, id ∈ e.inputs

/-! ## The trace only grows -/

namespace Step

variable {ε α β : Type}

/-- What is made of a value at the end changes nothing else. -/
theorem machine_bind_pure (x : Step ε α) (f : α → β) (m : Machine) :
    ((x >>= fun a => pure (f a)).run m).2 = (x.run m).2 := by
  rw [run_bind]
  cases x.run m with
  | mk result m' => cases result <;> rfl

end Step

theorem Session.trace_prefix_apply (op : Operation TensorId) (m : Machine) :
    m.session.trace.toList <+: ((apply op).run m).2.session.trace.toList := by
  rcases run_apply_cases op m with same | ⟨computed, ids, store, -, -, -, run⟩
  · rw [same]
  · rw [run, Array.toList_push]
    exact List.prefix_append _ _

theorem Session.trace_prefix_record (name : String) (inputs : List TensorId) (output : Content)
    (rule : Rule) (m : Machine) :
    m.session.trace.toList
      <+: ((record name inputs output rule).run m).2.session.trace.toList := by
  rcases run_record_cases name inputs output rule m with same | ⟨id, store, -, run⟩
  · rw [same]
  · rw [run, Array.toList_push]
    exact List.prefix_append _ _

theorem Layer.trace_prefix_forwardLoss (x : TensorId) (loss : Loss) (m : Machine) :
    m.session.trace.toList <+: ((forwardLoss x loss).run m).2.session.trace.toList := by
  have recorded (values : Buffer) (shape : Shape) : m.session.trace.toList <+: ((do
      let output ← Step.lift (Content.make values shape)
      return [← Session.record "loss" [x] output Session.passThrough] :
        Step TensorError (List TensorId)).run m).2.session.trace.toList := by
    cases Content.make values shape with
    | error failure => rw [Step.run_bind_error (Step.run_lift _ m)]
    | ok output =>
      rw [Step.run_bind_ok (Step.run_lift _ m), Step.machine_bind_pure]
      exact Session.trace_prefix_record "loss" [x] output Session.passThrough m
  unfold forwardLoss
  rcases Step.run_bind_tensor x _ m with ⟨failure, run⟩ | ⟨t, -, run⟩ <;> rw [run]
  exact recorded _ t.shape

theorem Records.trace_prefix {m m' : Machine} (step : Records m m') :
    m.session.trace.toList <+: m'.session.trace.toList := by
  cases step with
  | apply op => exact Session.trace_prefix_apply op m
  | loss x loss => exact Layer.trace_prefix_forwardLoss x loss m
  | record name inputs output rule => exact Session.trace_prefix_record name inputs output rule m
  | create | assign | draw => exact List.prefix_rfl

/-- No entry is taken back, by induction on the steps. -/
theorem Recording.trace_prefix {m m' : Machine} (steps : Recording m m') :
    m.session.trace.toList <+: m'.session.trace.toList := by
  induction steps with
  | refl => exact List.prefix_rfl
  | tail _ step ih => exact ih.trans step.trace_prefix

theorem Machine.Consumed.recording {m m' : Machine} {id : TensorId} (consumed : m.Consumed id)
    (steps : Recording m m') : m'.Consumed id := by
  obtain ⟨e, recorded, operand⟩ := consumed
  exact ⟨e, (Recording.trace_prefix steps).subset recorded, operand⟩

/-! ## Steps that proceed and consume -/

namespace Step

variable {ε α β : Type}

/-- Whatever the step does on a sound machine, succeeding or not, is part of a recording. -/
def Proceeds (x : Step ε α) : Prop := ∀ m : Machine, m.Sound → Recording m (x.run m).2

/-- Where the step succeeds on a sound machine, it leaves one where the tensor was consumed. -/
def Consumes (x : Step ε α) (id : TensorId) : Prop :=
  ∀ m a m', m.Sound → x.run m = (.ok a, m') → m'.Sound ∧ m'.Consumed id

theorem Proceeds.of_same {x : Step ε α} (same : ∀ m, (x.run m).2 = m) : x.Proceeds :=
  fun m _ => by rw [same]

theorem proceeds_pure (a : α) : (pure a : Step ε α).Proceeds := .of_same fun _ => rfl

theorem proceeds_lift (x : Outcome ε α) : (lift x).Proceeds := .of_same fun _ => rfl

theorem proceeds_fail (cause : ε) : (fail cause : Step ε α).Proceeds := proceeds_lift _

theorem proceeds_tensor (id : TensorId) : (tensor id : Step ε Tensor).Proceeds :=
  .of_same fun _ => rfl

theorem Proceeds.bind_of_run {x : Step ε α} {f : α → Step ε β} (first : x.Proceeds)
    (rest : ∀ m a m', x.run m = (.ok a, m') → (f a).Proceeds) : (x >>= f).Proceeds := by
  intro m sound
  have begun := first m sound
  rw [run_bind]
  cases run : x.run m with
  | mk result m' =>
    rw [run] at begun
    cases result with
    | error failure => exact begun
    | ok a => exact begun.trans (rest m a m' run m' (sound.of_recording begun))

theorem Proceeds.bind {x : Step ε α} {f : α → Step ε β} (first : x.Proceeds)
    (rest : ∀ a, (f a).Proceeds) : (x >>= f).Proceeds :=
  first.bind_of_run fun _ a _ _ => rest a

/-- A sequence that begins with a computation of its own. -/
theorem proceeds_bind_lift {x : Outcome ε α} {f : α → Step ε β}
    (rest : ∀ a, x = .ok a → (f a).Proceeds) : (lift x >>= f).Proceeds :=
  (proceeds_lift x).bind_of_run fun _ a _ run => rest a (congrArg Prod.fst run)

theorem proceeds_mapM {f : α → Step ε β} (each : ∀ x, (f x).Proceeds) (xs : List α) :
    (xs.mapM f).Proceeds := by
  induction xs with
  | nil => exact proceeds_pure _
  | cons x xs ih =>
    rw [List.mapM_cons]
    exact (each x).bind fun y => ih.bind fun ys => proceeds_pure _

theorem proceeds_foldlM {f : β → α → Step ε β} (each : ∀ b x, (f b x).Proceeds) (xs : List α)
    (start : β) : (xs.foldlM f start).Proceeds := by
  induction xs generalizing start with
  | nil => exact proceeds_pure _
  | cons x xs ih =>
    rw [List.foldlM_cons]
    exact (each start x).bind fun b => ih b

/-- A new tensor, whose content was checked. -/
theorem proceeds_add {values : Buffer} {shape : Shape} {c : Content}
    (made : Content.make values shape = .ok c) (name : Option String) :
    (add c name : Step ε TensorId).Proceeds :=
  fun m _ => .single (.create m values shape c name made)

section Consumes

variable {x : Step ε α} {f : α → Step ε β} {id : TensorId}

/-- What the first step consumed stays consumed. -/
theorem Consumes.bind (first : x.Consumes id) (rest : ∀ a, (f a).Proceeds) :
    (x >>= f).Consumes id := by
  intro m b m' sound run
  obtain ⟨a, m₁, ran, run⟩ := run_bind_eq_ok_iff.mp run
  obtain ⟨sound₁, consumed⟩ := first m a m₁ sound ran
  have steps := rest a m₁ sound₁
  rw [run] at steps
  exact ⟨sound₁.of_recording steps, consumed.recording steps⟩

/-- The second step is run on the machine that the first left, which is sound. -/
theorem Proceeds.consumes_bind_of_run (first : x.Proceeds)
    (rest : ∀ m a m', m.Sound → x.run m = (.ok a, m') → (f a).Consumes id) :
    (x >>= f).Consumes id := by
  intro m b m' sound run
  obtain ⟨a, m₁, ran, run⟩ := run_bind_eq_ok_iff.mp run
  have begun := first m sound
  rw [ran] at begun
  exact rest m a m₁ sound ran m₁ b m' (sound.of_recording begun) run

theorem Proceeds.consumes_bind (first : x.Proceeds) (rest : ∀ a, (f a).Consumes id) :
    (x >>= f).Consumes id :=
  first.consumes_bind_of_run fun _ a _ _ _ => rest a

/-- What one turn of a loop consumes stays consumed in the turns after it. -/
theorem consumes_foldlM {f : β → α → Step ε β} (proceeds : ∀ b a, (f b a).Proceeds) {a : α}
    (each : ∀ b, (f b a).Consumes id) {xs : List α} (member : a ∈ xs) (start : β) :
    (xs.foldlM f start).Consumes id := by
  induction xs generalizing start with
  | nil => cases member
  | cons first xs ih =>
    rw [List.foldlM_cons]
    rcases List.mem_cons.mp member with rfl | member
    · exact (each start).bind fun b => proceeds_foldlM proceeds xs b
    · exact (proceeds start first).consumes_bind fun b => ih member b

end Consumes

end Step

namespace Session

theorem proceeds_apply (op : Operation TensorId) : (apply op).Proceeds :=
  fun m _ => .single (.apply m op)

theorem proceeds_apply1 (op : Operation TensorId) : (apply1 op).Proceeds :=
  (proceeds_apply op).bind fun ids => by
    split
    · exact Step.proceeds_pure _
    · exact Step.proceeds_lift _

/-- An operation consumes its operands. -/
theorem consumes_apply (op : Operation TensorId) {id : TensorId} (operand : id ∈ op.operands) :
    (apply op).Consumes id := by
  intro m ids m' sound ran
  have sound' := sound.apply op
  rw [ran] at sound'
  rcases run_apply op m with ⟨failure, run⟩ | ⟨computed, ids', store, -, -, -, run⟩ <;>
    cases ran.symm.trans run
  refine ⟨sound', ⟨op.name, op.operands, ids, computed.rule⟩, ?_, operand⟩
  rw [Array.toList_push]
  exact List.mem_append_right _ (List.mem_singleton_self _)

theorem consumes_apply1 (op : Operation TensorId) {id : TensorId} (operand : id ∈ op.operands) :
    (apply1 op).Consumes id :=
  (consumes_apply op operand).bind fun ids => by
    split
    · exact Step.proceeds_pure _
    · exact Step.proceeds_lift _

end Session

/-! ## Gradients set by hand -/

namespace Store

variable {s : Store} {id : TensorId}

theorem update_congr {f g : Tensor → Tensor} (same : ∀ t, s.get? id = some t → f t = g t) :
    s.update id f = s.update id g := by
  refine eq_update rfl ?_ fun other different => ?_
  · rw [get?_update, if_pos rfl]
    cases there : s.get? id with
    | none => rfl
    | some t => exact congrArg some (same t there)
  · rw [get?_update, if_neg different]

theorem put_eq_update {t t' : Tensor} (there : s.get? id = some t) :
    s.put id t' = s.update id fun _ => t' := by
  refine eq_update rfl ?_ fun _ => s.get?_put_of_ne t'
  rw [get?_put _ _ (index_lt_of_get? there), there, Option.map_some]

end Store

namespace Records

variable {m : Machine} {id : TensorId}

/-- A gradient is replaced by a buffer of the tensor's size, where there is the tensor. -/
theorem update_gradient {f : Tensor → Buffer}
    (sized : ∀ t, m.store.get? id = some t → (f t).size = t.count) :
    Records m
      { m with store := m.store.update id fun t => { t with gradient := some (f t) } } := by
  have same : (m.store.update id fun t => { t with gradient := some (f t) })
      = m.store.update id fun t => { t with gradient := (m.store.get? id).map f } :=
    Store.update_congr fun t there => by
      rw [there]
      rfl
  rw [same]
  refine .assign m id _ fun t there g set => ?_
  rw [there] at set
  cases set
  exact sized t there

/-- An amount is added to a gradient. -/
theorem put_accumulated (sound : m.Sound) {t t' : Tensor} (there : m.store.get? id = some t)
    {amounts : Buffer} (added : t.accumulate amounts = .ok t') :
    Records m { m with store := m.store.put id t' } := by
  unfold Tensor.accumulate at added
  split at added
  · cases added
  next fits =>
    cases added
    have same : m.store.put id (t.plus (.whole amounts)) = m.store.update id fun t =>
        { t with gradient := some (Buffer.combine (· + ·) t.gradientOrZeros amounts) } := by
      rw [Store.put_eq_update there]
      refine Store.update_congr fun t' there' => ?_
      cases there.symm.trans there'
      rfl
    show Records m { m with store := m.store.put id (t.plus (.whole amounts)) }
    rw [same]
    refine update_gradient fun t' there' => ?_
    cases there.symm.trans there'
    rw [Buffer.size_combine, not_not.mp fits,
      Tensor.size_gradientOrZeros (sound.store.gradients id t there), Nat.min_self]

end Records

namespace Access

theorem proceeds_accumulate (id : TensorId) (amounts : Buffer) :
    (accumulate id amounts).Proceeds := by
  intro m sound
  unfold accumulate amend
  rcases Step.run_bind_tensor id _ m with ⟨failure, run⟩ | ⟨t, there, run⟩ <;> rw [run]
  dsimp only
  cases added : t.accumulate amounts with
  | error failure => rw [Step.run_bind_error (Step.run_lift _ m)]
  | ok t' =>
    rw [Step.run_bind_ok (Step.run_lift _ m)]
    exact .single (.put_accumulated sound there added)

theorem proceeds_editGradient (id : TensorId) (edit : Edit) : (editGradient id edit).Proceeds :=
  fun _ sound => .single (.update_gradient fun t there =>
    (edit.size _).trans (Tensor.size_gradientOrZeros (sound.store.gradients id t there)))

end Access

theorem Loss.proceeds_seed (loss : Loss) (output target : TensorId) :
    (loss.seed output target).Proceeds := by
  intro m sound
  unfold seed
  rcases Step.run_bind_tensor output _ m with ⟨failure, run⟩ | ⟨predicted, there, run⟩ <;> rw [run]
  rcases Step.run_bind_tensor target _ m with ⟨failure, run⟩ | ⟨expected, -, run⟩ <;> rw [run]
  split
  · exact .refl
  dsimp only
  generalize Buffer.combine (fun y t => (y - t) / Float32.ofNat (predicted.shape.extent 0))
    predicted.values expected.values = gradient
  cases added : predicted.accumulate gradient with
  | error failure => rw [Step.run_bind_error (Step.run_lift _ m)]
  | ok seeded =>
    rw [Step.run_bind_ok (Step.run_lift _ m)]
    exact .single (.put_accumulated sound there added)

namespace Session

/-! ## Replays -/

/-- A tensor that an amount was added to has a gradient, as large as the tensor. -/
theorem exists_gradient_of_settles {s s' : Store} (wf : s.WellFormed) {allocates : TensorId → Bool}
    {amounts : List (TensorId × Delta)} (settles : s.Settles s' allocates amounts) {id : TensorId}
    (there : id.index < s.tensors.size) {d : Delta} (added : (id, d) ∈ amounts) :
    ∃ t g, s'.get? id = some t ∧ t.gradient = some g ∧ g.size = t.count := by
  have found := settles.tensors id
  have old : s.get? id = some _ := Array.getElem?_eq_getElem there
  rw [old] at found
  obtain ⟨g, same⟩ := Tensor.foldl_plus_eq (List.ne_nil_of_mem (mem_amountsTo.mpr added))
    s.tensors[id.index]
  have gradient : (s.tensors[id.index].settled (allocates id) (amountsTo id amounts)).gradient
      = some g := by
    rw [Tensor.settled, same]
    split <;> rfl
  exact ⟨_, g, found, gradient, (settles.wellFormed wf).gradients id _ found g gradient⟩

/-- Whatever was recorded and whatever was seeded, `finalize` succeeds, and every tensor that was
consumed has a gradient then, as large as the tensor. -/
theorem finalize_reaches {m : Machine} (sound : m.Sound) :
    ∃ m', finalize.run m = (.ok (), m') ∧ ∀ id, m.Consumed id →
      ∃ t g, m'.store.get? id = some t ∧ t.gradient = some g ∧ g.size = t.count := by
  obtain ⟨contributions, after, run, contribute, answered, settles⟩ :=
    @foldlM_replay_spec m.store sound.store m.session.trace.toList.reverse
      (fun e member => sound.entries e (List.mem_reverse.mp member))
      (List.pairwise_reverse.mpr sound.ordered)
  refine ⟨_, run_finalize sound.recording run, ?_⟩
  rintro id ⟨e, recorded, operand⟩
  -- the entry's own contribution has an amount for the operand
  obtain ⟨shown, deltas, see, answer, length⟩ := answered e (List.mem_reverse.mpr recorded)
  have mine : contribution after e = .ok (e.inputs.zip deltas) := by
    unfold contribution
    rw [see]
    show (e.rule shown >>= fun deltas => pure (e.inputs.zip deltas)) = _
    rw [answer]
    rfl
  obtain ⟨amounts, among, contributed⟩ := exists_rel_of_mem
    (Outcome.mapM_eq_ok_iff.mp contribute).flip (List.mem_reverse.mpr recorded)
  cases mine.symm.trans contributed
  rw [← List.map_fst_zip length.ge] at operand
  obtain ⟨⟨_, d⟩, paired, rfl⟩ := List.mem_map.mp operand
  have inside := (sound.entries e recorded).index_lt
    (List.mem_append_left e.outputs (List.of_mem_zip paired).1)
  exact exists_gradient_of_settles sound.store settles inside
    (List.mem_flatten.mpr ⟨_, among, paired⟩)

end Session

end LayerNet
