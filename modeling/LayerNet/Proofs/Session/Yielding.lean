import LayerNet.Proofs.Operation.Parting
import LayerNet.Proofs.Session.Abreast
import LayerNet.Proofs.Session.Returns
import LayerNet.Proofs.Store.Regular

/-!
# Yielding — what tensors a step gives

A step of a session yields contents when it runs through, gives tensors that have them, and leaves
what there was (`Session.Yields`); or the run ends in it (`Session.Ends`). There is one rule for each
way to put steps together: two in sequence, and one operation for every member of a list
(`Session.applyEach`). What an operation yields is what it computes on the contents of its operands
(`Session.yields_apply`).

Two steps agree when under one condition they yield the same contents, and otherwise the run ends in
both (`Session.Agree`). That is how one way to compute tensors is compared with another.
-/

namespace LayerNet

namespace Session

variable {m : Machine} {contents : List Content}

/-- The step gives tensors with these contents, and leaves the tensors there were. -/
def Yields (x : Step TensorError (List TensorId)) (m : Machine) (contents : List Content) : Prop :=
  ∃ ids m', x.run m = (.ok ids, m') ∧ m.Onward m' ∧ m'.store.Shows ids contents

/-- The run ends in the step. -/
def Ends (x : Step TensorError (List TensorId)) (m : Machine) : Prop :=
  ∃ reason m', x.run m = (Outcome.stop reason, m')

/-- Where a condition holds, both steps yield the same contents; otherwise the run ends in both. -/
structure Agree (condition : Prop) (m : Machine) (x y : Step TensorError (List TensorId))
    (Q : List Content → Prop) : Prop where
  yields : condition → ∃ contents, Q contents ∧ Yields x m contents ∧ Yields y m contents
  ends : ¬condition → Ends x m ∧ Ends y m

/-- The step yields one content, of these values and this shape, if all values are finite; otherwise
the run ends. -/
structure Makes (x : Step TensorError (List TensorId)) (m : Machine) (values : Buffer)
    (shape : Shape) : Prop where
  yields : values.nonFinite? = none → ∃ y, y.shape = shape ∧ y.values = values ∧ Yields x m [y]
  ends : values.nonFinite? ≠ none → Ends x m

/-! ## Sequences -/

section Sequence

variable {x : Step TensorError (List TensorId)}
  {f : List TensorId → Step TensorError (List TensorId)}

theorem Yields.bind {results : List Content} (first : Yields x m contents)
    (second : ∀ ids m', m.Onward m' → m'.store.Shows ids contents → Yields (f ids) m' results) :
    Yields (x >>= f) m results := by
  obtain ⟨ids, m', run, onward, shows⟩ := first
  obtain ⟨ids', m'', run', onward', shows'⟩ := second ids m' onward shows
  exact ⟨ids', m'', by rw [Step.run_bind_ok run, run'], onward.trans onward', shows'⟩

theorem Yields.bind_ends (first : Yields x m contents)
    (second : ∀ ids m', m.Onward m' → m'.store.Shows ids contents → Ends (f ids) m') :
    Ends (x >>= f) m := by
  obtain ⟨ids, m', run, onward, shows⟩ := first
  obtain ⟨reason, m'', run'⟩ := second ids m' onward shows
  exact ⟨reason, m'', by rw [Step.run_bind_ok run, run']⟩

theorem Ends.bind (first : Ends x m) : Ends (x >>= f) m := by
  obtain ⟨reason, m', run⟩ := first
  exact ⟨reason, m', Step.run_bind_error run⟩

end Sequence

/-! ## Operations -/

section Apply

variable {op : Operation TensorId} (recording : m.session.finalized = false)
  (there : ∀ id ∈ op.operands, ∃ c, m.store.content? id = some c)
include recording there

theorem yields_apply {computed : Computed}
    (success : (operandsOf m.store op).compute = .ok computed) :
    Yields (apply op) m computed.outputs := by
  obtain ⟨ids, store, adds, run⟩ := run_apply_of_ok recording there success
  refine ⟨ids, _, run, .of_adds adds fun wf => ?_, adds.added⟩
  exact (Operation.compute_sound (wellFormed_operands wf there) success).outputs

theorem ends_apply {reason : Fatality}
    (ended : (operandsOf m.store op).compute = Outcome.stop reason) : Ends (apply op) m :=
  ⟨reason, m, run_apply_of_error recording there ended⟩

end Apply

/-- A call on one tensor is computed on its content. -/
theorem operandsOf_one {s : Store} {x : TensorId} {c : Content} (there : s.content? x = some c)
    {op : Operation TensorId} (unary : op.operands = [x]) :
    operandsOf s op = op.map fun _ => c := by
  refine Operation.map_congr fun id member => ?_
  rw [unary, List.mem_singleton] at member
  rw [member, operand_of_content? there]

section Operand

variable (recording : m.session.finalized = false) {x : TensorId} {c : Content}
  (there : m.store.content? x = some c) {op : Operation TensorId} (unary : op.operands = [x])
include recording there unary

variable (op) in
/-- An operation on one tensor yields what it computes on its content. -/
theorem yields_one {computed : Computed} (success : (op.map fun _ => c).compute = .ok computed) :
    Yields (apply op) m computed.outputs := by
  refine yields_apply recording (fun id member => ?_) (operandsOf_one there unary ▸ success)
  rw [unary] at member
  exact ⟨c, List.mem_singleton.mp member ▸ there⟩

theorem ends_one {reason : Fatality}
    (ended : (op.map fun _ => c).compute = Outcome.stop reason) : Ends (apply op) m := by
  refine ends_apply recording (fun id member => ?_) (operandsOf_one there unary ▸ ended)
  rw [unary] at member
  exact ⟨c, List.mem_singleton.mp member ▸ there⟩

/-- An operation on one tensor that makes a content of values that it computes. -/
theorem makes_one {f : Content → Computed} (outputs : ∀ y, (f y).outputs = [y]) {values : Buffer}
    {shape : Shape} (computes : (op.map fun _ => c).compute = f <$> Content.make values shape)
    (valid : shape.IsValid) (size : values.size = shape.prod) (small : shape.prod < Size.limit) :
    Makes (apply op) m values shape := by
  rcases Content.make_of_lt valid size small with ⟨y, made⟩ | ⟨ended, infinite⟩
  · obtain ⟨shaped, valued, -, -, finite⟩ := Content.of_make_eq_ok made
    rw [made] at computes
    refine ⟨fun _ => ⟨y, shaped, valued, ?_⟩, fun infinite => absurd finite infinite⟩
    rw [← outputs y]
    exact yields_one recording there op unary computes
  · rw [ended] at computes
    refine ⟨fun finite => absurd finite infinite, fun _ => ?_⟩
    exact ends_one recording there unary computes

end Operand

section Operands

variable (recording : m.session.finalized = false) {xs : List TensorId}
  (shows : m.store.Shows xs contents) (op : {α : Type} → List α → Operation α)
  (natural : ∀ f : TensorId → Content, (op xs).map f = op (xs.map f)) (all : (op xs).operands = xs)
include shows natural

/-- A call on several tensors is computed on their contents. -/
theorem operandsOf_all : operandsOf m.store (op xs) = op contents := by
  rw [operandsOf, natural, map_content? shows]

include recording all

/-- An operation on several tensors yields what it computes on their contents. -/
theorem yields_all {computed : Computed} (success : (op contents).compute = .ok computed) :
    Yields (apply (op xs)) m computed.outputs := by
  refine yields_apply recording (fun id member => ?_) (operandsOf_all shows op natural ▸ success)
  rw [all] at member
  exact shows.exists_content id member

theorem ends_all {reason : Fatality} (ended : (op contents).compute = Outcome.stop reason) :
    Ends (apply (op xs)) m := by
  refine ends_apply recording (fun id member => ?_) (operandsOf_all shows op natural ▸ ended)
  rw [all] at member
  exact shows.exists_content id member

end Operands

/-! ## One operation for every member of a list -/

/-- An operation of one result, applied once for each member of a list. -/
def applyEach {α : Type} (op : α → Operation TensorId) (xs : List α) :
    Step TensorError (List TensorId) :=
  xs.mapM fun x => apply1 (op x)

theorem run_apply1 {op : Operation TensorId} {c : Content} (yields : Yields (apply op) m [c]) :
    ∃ id m', (apply1 op).run m = (.ok id, m') ∧ m.Onward m' ∧ m'.store.content? id = some c := by
  obtain ⟨ids, m', run, onward, shows⟩ := yields
  obtain ⟨id, _, there, none, rfl⟩ := List.forall₂_cons_right_iff.mp shows
  obtain rfl := List.forall₂_nil_right_iff.mp none
  exact ⟨id, m', Step.run_bind_ok run, onward, there⟩

/-- A step that makes a content from the one result of an operation. -/
theorem makes_after {op : Operation TensorId} {c : Content}
    {f : TensorId → Step TensorError (List TensorId)} {values : Buffer} {shape : Shape}
    (first : Yields (apply op) m [c])
    (second : ∀ id m', m.Onward m' → m'.store.content? id = some c → Makes (f id) m' values shape) :
    Makes (apply1 op >>= f) m values shape := by
  obtain ⟨id, m₁, run, onward, there⟩ := run_apply1 first
  obtain ⟨yields, ends⟩ := second id m₁ onward there
  refine ⟨fun finite => ?_, fun infinite => ?_⟩
  · obtain ⟨y, shaped, valued, ids, m₂, run', onward', shows⟩ := yields finite
    exact ⟨y, shaped, valued, ids, m₂, (Step.run_bind_ok run).trans run', onward.trans onward',
      shows⟩
  · obtain ⟨reason, m₂, run'⟩ := ends infinite
    exact ⟨reason, m₂, (Step.run_bind_ok run).trans run'⟩

theorem yields_applyEach {α : Type} {op : α → Operation TensorId} {xs : List α}
    (each : List.Forall₂ (fun x c => ∀ m', m.Onward m' → Yields (apply (op x)) m' [c]) xs
      contents) : Yields (applyEach op xs) m contents := by
  -- from any machine on, since the calls before the current one leave a machine of their own
  have later (m₁ : Machine) (before : m.Onward m₁) : Yields (applyEach op xs) m₁ contents := by
    unfold applyEach
    induction each generalizing m₁ with
    | nil => exact ⟨[], m₁, rfl, .refl m₁, .nil⟩
    | @cons x c xs contents first _ ih =>
      obtain ⟨id, m₂, run, onward, there⟩ := run_apply1 (first m₁ before)
      obtain ⟨ids, m₃, run', onward', shows⟩ := ih m₂ (before.trans onward)
      refine ⟨id :: ids, m₃, ?_, onward.trans onward', .cons (onward'.keeps id c there) shows⟩
      rw [List.mapM_cons, Step.run_bind_ok run, Step.run_bind_ok run']
      rfl
  exact later m (.refl m)

/-- Where every operation yields a result or ends the run, and one ends it, the run ends. -/
theorem ends_applyEach {α : Type} {op : α → Operation TensorId} {xs : List α}
    (each : ∀ x ∈ xs, (∃ c, ∀ m', m.Onward m' → Yields (apply (op x)) m' [c])
      ∨ ∀ m', m.Onward m' → Ends (apply (op x)) m')
    (one : ∃ x ∈ xs, ∀ m', m.Onward m' → Ends (apply (op x)) m') : Ends (applyEach op xs) m := by
  have later (m₁ : Machine) (before : m.Onward m₁) :
      ∃ reason m₂, (applyEach op xs).run m₁ = (Outcome.stop reason, m₂) := by
    unfold applyEach
    induction xs generalizing m₁ with
    | nil =>
      obtain ⟨x, member, -⟩ := one
      cases member
    | cons x xs ih =>
      obtain ⟨first, each⟩ := List.forall_mem_cons.mp each
      have ended (ends : Ends (apply (op x)) m₁) : ∃ reason m₂,
          ((x :: xs).mapM fun x => apply1 (op x)).run m₁ = (Outcome.stop reason, m₂) := by
        obtain ⟨reason, m₂, run⟩ := ends
        refine ⟨reason, m₂, ?_⟩
        rw [List.mapM_cons]
        exact Step.run_bind_error (Step.run_bind_error run)
      rcases first with ⟨c, yields⟩ | ends
      · obtain ⟨id, m₂, run, onward, -⟩ := run_apply1 (yields m₁ before)
        obtain ⟨x', member, ends⟩ := one
        rcases List.mem_cons.mp member with rfl | member
        · exact ended (ends m₁ before)
        · obtain ⟨reason, m₃, run'⟩ := ih each ⟨x', member, ends⟩ m₂ (before.trans onward)
          refine ⟨reason, m₃, ?_⟩
          rw [List.mapM_cons, Step.run_bind_ok run]
          exact Step.run_bind_error run'
      · exact ended (ends m₁ before)
  exact later m (.refl m)

section Each

variable (recording : m.session.finalized = false) {xs : List TensorId}
  (shows : m.store.Shows xs contents) {op : TensorId → Operation TensorId}
  (unary : ∀ x, (op x).operands = [x])
include recording shows unary

/-- An operation of one result on each of several tensors. -/
theorem yields_each {results : List Content}
    (computes : List.Forall₂ (fun c r => ∀ x, ∃ computed,
      ((op x).map fun _ => c).compute = .ok computed ∧ computed.outputs = [r]) contents results) :
    Yields (applyEach op xs) m results := by
  refine yields_applyEach (forall₂_of_common shows.flip computes ?_)
  intro c x r there computes m' onward
  obtain ⟨computed, success, outputs⟩ := computes x
  rw [← outputs]
  exact yields_one (onward.finalized ▸ recording) (onward.keeps x c there) (op x) (unary x) success

theorem ends_each
    (computes : ∀ c ∈ contents,
      (∃ r, ∀ x, ∃ computed,
        ((op x).map fun _ => c).compute = .ok computed ∧ computed.outputs = [r])
        ∨ ∃ reason, ∀ x, ((op x).map fun _ => c).compute = Outcome.stop reason)
    (one : ∃ c ∈ contents, ∃ reason, ∀ x, ((op x).map fun _ => c).compute = Outcome.stop reason) :
    Ends (applyEach op xs) m := by
  have ends {x : TensorId} {c : Content} (there : m.store.content? x = some c)
      (ended : ∃ reason, ∀ x, ((op x).map fun _ => c).compute = Outcome.stop reason) (m' : Machine)
      (onward : m.Onward m') : Ends (apply (op x)) m' := by
    obtain ⟨reason, ended⟩ := ended
    exact ends_one (onward.finalized ▸ recording) (onward.keeps x c there) (unary x) (ended x)
  refine ends_applyEach (fun x member => ?_) ?_
  · obtain ⟨c, among, there⟩ := exists_rel_of_mem shows.flip member
    rcases computes c among with ⟨r, computes⟩ | ended
    · obtain ⟨computed, success, outputs⟩ := computes x
      refine .inl ⟨r, fun m' onward => outputs ▸ ?_⟩
      exact yields_one (onward.finalized ▸ recording) (onward.keeps x c there) (op x) (unary x)
        success
    · exact .inr (ends there ended)
  · obtain ⟨c, among, ended⟩ := one
    obtain ⟨x, member, there⟩ := exists_rel_of_mem shows among
    exact ⟨x, member, ends there ended⟩

end Each

/-! ## A square -/

/-- A machine with one tensor, of two rows of two elements. -/
def ofSquare : Machine :=
  { Machine.fresh with store := (Machine.fresh.store.add ⟨[2, 2], [2, 1], #[1, 2, 3, 4]⟩ none).2 }

theorem make_square :
    Content.make #[1, 2, 3, 4] [2, 2] = .ok ⟨[2, 2], [2, 1], #[1, 2, 3, 4]⟩ := by
  have valid : Shape.validate [2, 2] = .ok () := (Shape.validate_eq_ok_iff _).mpr (by decide)
  have finite : Buffer.nonFinite? #[1, 2, 3, 4] = none := by decide +kernel
  unfold Content.make
  rw [valid, finite]
  rfl

theorem regular_ofSquare : ofSquare.store.Regular :=
  (Store.Adds.carries (.cons rfl rfl (.refl _)) Store.regular_empty
    (List.forall_mem_singleton.mpr (Content.made_of_make make_square).regular)).regular

theorem sound_ofSquare : ofSquare.Sound :=
  (Machine.sound_of_fresh (m := .fresh) Store.wellFormed_empty rfl rfl).create make_square none

end Session

end LayerNet
