import LayerNet.Proofs.Operation.Calls
import LayerNet.Proofs.Session.Shapes

/-!
# Steps abreast — a step that succeeds where another does

Two machines infer side by side, each on tensors of its own (`Machine.Abreast`). A step on the second
follows one on the first when it gives a value wherever the first does, and the values are related
in the stores that they leave (`Step.Follows`). There is one rule for each way to combine steps, and
one for each step a layer is made of. The rule for operations (`Session.follows_apply`) asks that the
two calls are alike (`Operation.Alike`).

Tensors are tied when a relation that layers respect ties their contents (`Store.Tied`).
-/

namespace LayerNet

/-- No content is lost or changed, and the session infers or trains, records or not, as before. -/
structure Machine.Onward (before after : Machine) : Prop where
  keeps : before.store.Keeps after.store
  wellFormed : before.store.WellFormed → after.store.WellFormed
  training : after.session.training = before.session.training
  finalized : after.session.finalized = before.session.finalized

/-- Two machines infer on well-formed tensors, and the second records if the first does. -/
structure Machine.Abreast (m₁ m₂ : Machine) : Prop where
  first : m₁.store.WellFormed
  second : m₂.store.WellFormed
  inferring : m₁.session.training = false ∧ m₂.session.training = false
  recording : m₁.session.finalized = false → m₂.session.finalized = false

namespace Machine

theorem Onward.refl (m : Machine) : m.Onward m where
  keeps := .refl m.store
  wellFormed wf := wf
  training := rfl
  finalized := rfl

theorem Onward.trans {m₁ m₂ m₃ : Machine} (first : m₁.Onward m₂) (second : m₂.Onward m₃) :
    m₁.Onward m₃ where
  keeps := first.keeps.trans second.keeps
  wellFormed wf := second.wellFormed (first.wellFormed wf)
  training := second.training.trans first.training
  finalized := second.finalized.trans first.finalized

/-- Tensors were added that are well formed where all others are. -/
theorem Onward.of_adds {m : Machine} {contents : List Content} {ids : List TensorId} {store : Store}
    {trace : Array Entry} (adds : Store.Adds contents m.store ids store)
    (new : m.store.WellFormed → ∀ c ∈ contents, c.WellFormed) :
    m.Onward { m with store, session := { m.session with trace } } where
  keeps := adds.keeps
  wellFormed wf := adds.wellFormed wf (new wf)
  training := rfl
  finalized := rfl

theorem Abreast.onward {m₁ m₂ m₁' m₂' : Machine} (abreast : m₁.Abreast m₂) (first : m₁.Onward m₁')
    (second : m₂.Onward m₂') : m₁'.Abreast m₂' where
  first := first.wellFormed abreast.first
  second := second.wellFormed abreast.second
  inferring := by
    rw [first.training, second.training]
    exact abreast.inferring
  recording recording := by
    rw [second.finalized]
    exact abreast.recording (first.finalized ▸ recording)

end Machine

/-- Both tensors are there, with contents that a relation ties. -/
def Store.Tied (R : Content → Content → Prop) (s₁ s₂ : Store) (x y : TensorId) : Prop :=
  ∃ c d, s₁.content? x = some c ∧ s₂.content? y = some d ∧ R c d

namespace Store

variable {R : Content → Content → Prop} {s₁ s₂ s₁' s₂' : Store}

theorem Tied.keeps {x y : TensorId} (tied : Tied R s₁ s₂ x y) (first : s₁.Keeps s₁')
    (second : s₂.Keeps s₂') : Tied R s₁' s₂' x y := by
  obtain ⟨c, d, there, there', related⟩ := tied
  exact ⟨c, d, first x c there, second y d there', related⟩

theorem Tied.exists_second {x y : TensorId} (tied : Tied R s₁ s₂ x y) :
    ∃ d, s₂.content? y = some d := by
  obtain ⟨_, d, -, there, -⟩ := tied
  exact ⟨d, there⟩

theorem exists_second_of_tied {xs ys : List TensorId} (tied : List.Forall₂ (Tied R s₁ s₂) xs ys) :
    ∀ y ∈ ys, ∃ d, s₂.content? y = some d := by
  intro y member
  obtain ⟨x, -, tied⟩ := exists_rel_of_mem tied member
  exact tied.exists_second

/-- Tensors have contents in a store. -/
def Shows (s : Store) : List TensorId → List Content → Prop :=
  List.Forall₂ fun id c => s.content? id = some c

theorem exists_shows {s : Store} {ids : List TensorId}
    (there : ∀ id ∈ ids, ∃ c, s.content? id = some c) : ∃ contents, s.Shows ids contents := by
  induction ids with
  | nil => exact ⟨[], .nil⟩
  | cons id ids ih =>
    obtain ⟨⟨c, first⟩, others⟩ := List.forall_mem_cons.mp there
    obtain ⟨contents, rest⟩ := ih others
    exact ⟨c :: contents, .cons first rest⟩

theorem Shows.keeps {s s' : Store} {ids : List TensorId} {contents : List Content}
    (shows : s.Shows ids contents) (keeps : s.Keeps s') : s'.Shows ids contents :=
  shows.imp fun id c there => keeps id c there

theorem Shows.exists_content {s : Store} {ids : List TensorId} {contents : List Content}
    (shows : s.Shows ids contents) : ∀ id ∈ ids, ∃ c, s.content? id = some c := by
  intro id member
  obtain ⟨c, -, there⟩ := exists_rel_of_mem shows.flip member
  exact ⟨c, there⟩

theorem Shows.wellFormed {s : Store} {ids : List TensorId} {contents : List Content}
    (shows : s.Shows ids contents) (wf : s.WellFormed) : ∀ c ∈ contents, c.WellFormed := by
  intro c member
  obtain ⟨id, -, there⟩ := exists_rel_of_mem shows member
  exact wf.content there

/-- Tensors with related contents are tied. -/
theorem Shows.tied {ids ids' : List TensorId} {contents contents' : List Content}
    (shows : s₁.Shows ids contents) (shows' : s₂.Shows ids' contents')
    (related : List.Forall₂ R contents contents') : List.Forall₂ (Tied R s₁ s₂) ids ids' := by
  induction related generalizing ids ids' with
  | nil =>
    cases shows
    cases shows'
    exact .nil
  | cons first _ ih =>
    rcases shows with _ | ⟨there, shows⟩
    rcases shows' with _ | ⟨there', shows'⟩
    exact .cons ⟨_, _, there, there', first⟩ (ih shows shows')

/-- Tensors that are tied have related contents. -/
theorem Shows.related {ids ids' : List TensorId} {contents contents' : List Content}
    (shows : s₁.Shows ids contents) (shows' : s₂.Shows ids' contents')
    (tied : List.Forall₂ (Tied R s₁ s₂) ids ids') : List.Forall₂ R contents contents' := by
  induction tied generalizing contents contents' with
  | nil =>
    cases shows
    cases shows'
    exact .nil
  | cons first _ ih =>
    rcases shows with _ | ⟨there, shows⟩
    rcases shows' with _ | ⟨there', shows'⟩
    obtain ⟨c, d, first, second, related⟩ := first
    rw [there] at first
    rw [there'] at second
    cases first
    cases second
    exact .cons related (ih shows shows')

theorem tied_of_adds {contents contents' : List Content} {ids ids' : List TensorId}
    (adds : Adds contents s₁ ids s₁') (adds' : Adds contents' s₂ ids' s₂')
    (related : List.Forall₂ R contents contents') : List.Forall₂ (Tied R s₁' s₂') ids ids' :=
  Shows.tied adds.added adds'.added related

end Store

namespace Step

variable {ε α β α' β' : Type}

/-- Where the first step gives a value, so does the second, and what they give is related in the
stores they leave. -/
def Follows (x : Step ε α) (m₁ : Machine) (y : Step ε β) (m₂ : Machine)
    (Q : Store → Store → α → β → Prop) : Prop :=
  m₁.Abreast m₂ → ∀ a m₁', x.run m₁ = (.ok a, m₁') →
    ∃ b m₂', y.run m₂ = (.ok b, m₂') ∧ m₁.Onward m₁' ∧ m₂.Onward m₂' ∧ Q m₁'.store m₂'.store a b

namespace Follows

variable {m₁ m₂ : Machine} {x : Step ε α} {y : Step ε β} {Q : Store → Store → α → β → Prop}

theorem pure {a : α} {b : β} (related : Q m₁.store m₂.store a b) :
    Follows (Pure.pure a : Step ε α) m₁ (Pure.pure b : Step ε β) m₂ Q := by
  intro _ a' m₁' run
  cases run
  exact ⟨b, m₂, rfl, .refl m₁, .refl m₂, related⟩

theorem bind {f : α → Step ε α'} {g : β → Step ε β'} {Q' : Store → Store → α' → β' → Prop}
    (first : Follows x m₁ y m₂ Q)
    (second : ∀ a b m₁' m₂', m₁.store.Keeps m₁'.store → m₂.store.Keeps m₂'.store →
      Q m₁'.store m₂'.store a b → Follows (f a) m₁' (g b) m₂' Q') :
    Follows (x >>= f) m₁ (y >>= g) m₂ Q' := by
  intro abreast a' m₁'' run
  obtain ⟨a, m₁', ran, run⟩ := run_bind_eq_ok_iff.mp run
  obtain ⟨b, m₂', ran', onward, onward', related⟩ := first abreast a m₁' ran
  obtain ⟨b', m₂'', run', later, later', related'⟩ := second a b m₁' m₂' onward.keeps
    onward'.keeps related (abreast.onward onward onward') a' m₁'' run
  refine ⟨b', m₂'', ?_, onward.trans later, onward'.trans later', related'⟩
  rw [run_bind_ok ran', run']

theorem mono {Q' : Store → Store → α → β → Prop} (follows : Follows x m₁ y m₂ Q)
    (weaker : ∀ s₁ s₂ a b, Q s₁ s₂ a b → Q' s₁ s₂ a b) : Follows x m₁ y m₂ Q' := by
  intro abreast a m₁' run
  obtain ⟨b, m₂', run', onward, onward', related⟩ := follows abreast a m₁' run
  exact ⟨b, m₂', run', onward, onward', weaker _ _ a b related⟩

/-- What is known of machines abreast may be used. -/
theorem of_abreast (follows : m₁.Abreast m₂ → Follows x m₁ y m₂ Q) : Follows x m₁ y m₂ Q :=
  fun abreast => follows abreast abreast

/-- What is known of the first step's value may be used. -/
theorem and_first {P : Store → α → Prop} (follows : Follows x m₁ y m₂ Q)
    (fact : ∀ a m₁', x.run m₁ = (.ok a, m₁') → P m₁'.store a) :
    Follows x m₁ y m₂ fun s₁ s₂ a b => Q s₁ s₂ a b ∧ P s₁ a := by
  intro abreast a m₁' run
  obtain ⟨b, m₂', run', onward, onward', related⟩ := follows abreast a m₁' run
  exact ⟨b, m₂', run', onward, onward', related, fact a m₁' run⟩

theorem lift {x : Outcome ε α} {y : Outcome ε β} {P : α → β → Prop}
    (each : ∀ a, x = .ok a → ∃ b, y = .ok b ∧ P a b) :
    Follows (Step.lift x) m₁ (Step.lift y) m₂ fun _ _ => P := by
  intro _ a m₁' run
  rw [run_lift] at run
  obtain ⟨value, rfl⟩ := Prod.mk.inj run
  obtain ⟨b, value', related⟩ := each a value
  exact ⟨b, m₂, by rw [run_lift, value'], .refl m₁, .refl m₂, related⟩

/-- Any step follows one that gives nothing. -/
theorem of_error {failure : Failure ε} : Follows (Step.lift (.error failure) : Step ε α) m₁ y m₂ Q := by
  intro _ a m₁' run
  cases run

theorem tensor {a b : TensorId} {c d : Content} (there : m₁.store.content? a = some c)
    (there' : m₂.store.content? b = some d) :
    Follows (Step.tensor a : Step ε Tensor) m₁ (Step.tensor b : Step ε Tensor) m₂
      fun _ _ t t' => t.toContent = c ∧ t'.toContent = d := by
  obtain ⟨t, found, rfl⟩ := Option.map_eq_some_iff.mp there
  obtain ⟨t', found', rfl⟩ := Option.map_eq_some_iff.mp there'
  intro _ u m₁' ran
  rw [run_tensor found] at ran
  cases ran
  exact ⟨t', m₂, run_tensor found', .refl m₁, .refl m₂, rfl, rfl⟩

/-- The same step, once for each element of a list. -/
theorem replicate {R : Content → Content → Prop} {x y : Step ε TensorId} (xs : List α)
    (each : ∀ m₁' m₂', m₁.store.Keeps m₁'.store → m₂.store.Keeps m₂'.store →
      Follows x m₁' y m₂' fun s₁ s₂ a b => s₁.Tied R s₂ a b) :
    Follows (xs.mapM fun _ => x) m₁ (xs.mapM fun _ => y) m₂
      fun s₁ s₂ => List.Forall₂ (s₁.Tied R s₂) := by
  induction xs generalizing m₁ m₂ with
  | nil =>
    rw [List.mapM_nil, List.mapM_nil]
    exact .pure .nil
  | cons _ xs ih =>
    rw [List.mapM_cons, List.mapM_cons]
    refine (each m₁ m₂ (.refl _) (.refl _)).bind fun a b m₁' m₂' keeps keeps' tied => ?_
    have later := ih fun m₁'' m₂'' more more' =>
      each m₁'' m₂'' (keeps.trans more) (keeps'.trans more')
    refine later.bind fun as bs m₁'' m₂'' more more' rest => ?_
    exact .pure (.cons (tied.keeps more more') rest)

theorem singleton {R : Content → Content → Prop} {x y : Step ε TensorId}
    (follows : Follows x m₁ y m₂ fun s₁ s₂ a b => s₁.Tied R s₂ a b) :
    Follows (do return [← x]) m₁ (do return [← y]) m₂ fun s₁ s₂ => List.Forall₂ (s₁.Tied R s₂) :=
  follows.bind fun _ _ _ _ _ _ tied => .pure (.cons tied .nil)

end Follows

end Step

namespace Session

open Content Step

variable {R : Content → Content → Prop} {m₁ m₂ : Machine}

/-- An operand is the content of its tensor. -/
theorem operand_of_content? {s : Store} {id : TensorId} {c : Content}
    (there : s.content? id = some c) : (s.content? id).getD default = c := by
  rw [there]
  rfl

theorem map_content? {s : Store} {ids : List TensorId} {contents : List Content}
    (there : List.Forall₂ (fun id c => s.content? id = some c) ids contents) :
    ids.map (fun id => (s.content? id).getD default) = contents := by
  rw [← List.forall₂_eq_eq_eq, List.forall₂_map_left_iff]
  exact there.imp fun _ _ => operand_of_content?

theorem tied_operand {s₁ s₂ : Store} {x y : TensorId} (tied : s₁.Tied R s₂ x y) :
    R ((s₁.content? x).getD default) ((s₂.content? y).getD default) := by
  obtain ⟨c, d, there, there', related⟩ := tied
  rwa [operand_of_content? there, operand_of_content? there']

theorem tied_operands {s₁ s₂ : Store} {xs ys : List TensorId}
    (tied : List.Forall₂ (s₁.Tied R s₂) xs ys) :
    List.Forall₂ R (xs.map fun x => (s₁.content? x).getD default)
      (ys.map fun y => (s₂.content? y).getD default) := by
  rw [List.forall₂_map_left_iff, List.forall₂_map_right_iff]
  exact tied.imp fun _ _ => tied_operand

/-- An operation that gave something recorded it, and was computed on operands that were there. -/
theorem of_run_apply {op : Operation TensorId} {m m' : Machine} {ids : List TensorId}
    (run : (apply op).run m = (.ok ids, m')) :
    m.session.finalized = false ∧ ∃ c, (operandsOf m.store op).compute = .ok c
      ∧ Store.Adds c.outputs m.store ids m'.store ∧ m.Onward m' := by
  cases finalized : m.session.finalized with
  | true =>
    rw [run_apply_of_finalized finalized] at run
    cases run
  | false =>
    refine ⟨rfl, ?_⟩
    cases found : op.operands.mapM fun id => (m.store.tensor id : Checked Tensor) with
    | error failure =>
      rw [run_apply_of_missing finalized found] at run
      cases run
    | ok tensors =>
      have there := (exists_tensors_iff m.store op.operands).mp ⟨tensors, found⟩
      cases computes : (operandsOf m.store op).compute with
      | error failure =>
        rw [run_apply_of_error finalized there computes] at run
        cases run
      | ok c =>
        obtain ⟨ids', store, adds, ran⟩ := run_apply_of_ok finalized there computes
        rw [ran] at run
        cases run
        refine ⟨c, rfl, adds, .of_adds adds fun wf => ?_⟩
        exact (Operation.compute_sound (wellFormed_operands wf there) computes).outputs

/-- Alike calls of an operation give tied results. -/
theorem follows_apply (respected : Respected R) (op op' : Operation TensorId)
    (there : ∀ id ∈ op'.operands, ∃ c, m₂.store.content? id = some c)
    (alike : Operation.Alike R (operandsOf m₁.store op) (operandsOf m₂.store op')) :
    Follows (apply op) m₁ (apply op') m₂ fun s₁ s₂ => List.Forall₂ (s₁.Tied R s₂) := by
  intro abreast ids m₁' run
  obtain ⟨recording, c, computes, adds, onward⟩ := of_run_apply run
  obtain ⟨d, computes', related⟩ := respected.computes _ _ c alike computes
  obtain ⟨ids', store, adds', run'⟩ := run_apply_of_ok (abreast.recording recording) there computes'
  have onward' := (of_run_apply run').2
  obtain ⟨_, _, _, onward'⟩ := onward'
  exact ⟨ids', _, run', onward, onward', Store.tied_of_adds adds adds' related⟩

theorem follows_only {op op' : Operation TensorId}
    (follows : Follows (apply op) m₁ (apply op') m₂ fun s₁ s₂ => List.Forall₂ (s₁.Tied R s₂)) :
    Follows (apply1 op) m₁ (apply1 op') m₂ fun s₁ s₂ x y => s₁.Tied R s₂ x y := by
  refine follows.bind fun ids ids' m₁' m₂' _ _ tied => ?_
  cases tied with
  | nil => exact .of_error
  | cons first rest =>
    cases rest with
    | nil => exact .pure first
    | cons _ _ => exact .of_error

theorem of_run_apply1 {op : Operation TensorId} {m m' : Machine} {id : TensorId}
    (run : (apply1 op).run m = (.ok id, m')) : ∃ c e, (operandsOf m.store op).compute = .ok c
      ∧ c.outputs = [e] ∧ m'.store.content? id = some e := by
  obtain ⟨ids, m'', ran, run⟩ := run_bind_eq_ok_iff.mp run
  obtain ⟨-, c, computes, adds, -⟩ := of_run_apply ran
  have added := adds.added
  split at run
  · cases run
    obtain ⟨e, rest, there, none, outputs⟩ := List.forall₂_cons_left_iff.mp added
    rw [List.forall₂_nil_left_iff.mp none] at outputs
    exact ⟨c, e, computes, outputs, there⟩
  · cases run

/-- An operation of one operand. -/
theorem follows_apply_one (respected : Respected R) {op op' : Operation TensorId} {x y : TensorId}
    (operands : op'.operands = [y]) (tied : m₁.store.Tied R m₂.store x y)
    (alike : R ((m₁.store.content? x).getD default) ((m₂.store.content? y).getD default) →
      Operation.Alike R (operandsOf m₁.store op) (operandsOf m₂.store op')) :
    Follows (apply op) m₁ (apply op') m₂ fun s₁ s₂ => List.Forall₂ (s₁.Tied R s₂) := by
  refine follows_apply respected op op' ?_ (alike (tied_operand tied))
  rw [operands]
  exact List.forall_mem_singleton.mpr tied.exists_second

/-! ## Results that a layer computes itself -/

theorem follows_checkRecording (name name' : String) :
    Follows (checkRecording name) m₁ (checkRecording name') m₂ fun _ _ _ _ => True := by
  intro abreast _ m₁' run
  cases finalized : m₁.session.finalized with
  | true =>
    rw [run_checkRecording_of_finalized finalized name] at run
    cases run
  | false =>
    rw [run_checkRecording finalized name] at run
    cases run
    exact ⟨(), m₂, run_checkRecording (abreast.recording finalized) name', .refl m₁, .refl m₂,
      trivial⟩

theorem follows_push (e e' : Entry) :
    Follows (push e) m₁ (push e') m₂ fun _ _ _ _ => True := by
  have onward (m : Machine) (e : Entry) :
      m.Onward { m with session := { m.session with trace := m.session.trace.push e } } :=
    .of_adds (.refl m.store) fun _ _ member => absurd member List.not_mem_nil
  intro _ _ m₁' run
  cases run
  exact ⟨(), _, rfl, onward m₁ e, onward m₂ e', trivial⟩

/-- Tied contents stored. -/
theorem follows_add {c d : Content} (wf : c.WellFormed ∧ d.WellFormed) (related : R c d)
    (name : Option String) :
    Follows (Step.add c name : Step TensorError TensorId) m₁ (Step.add d name) m₂
      fun s₁ s₂ x y => s₁.Tied R s₂ x y := by
  have adds (m : Machine) (c : Content) :
      Store.Adds [c] m.store [(m.store.add c name).1] (m.store.add c name).2 :=
    .cons rfl rfl (.refl _)
  have onward (m : Machine) {c : Content} (wf : c.WellFormed) :
      m.Onward { m with store := (m.store.add c name).2 } :=
    .of_adds (adds m c) fun _ c' member => List.mem_singleton.mp member ▸ wf
  intro _ id m₁' run
  cases run
  have tied := Store.tied_of_adds (adds m₁ c) (adds m₂ d) (.cons related .nil)
  rcases tied with _ | ⟨tied, -⟩
  exact ⟨_, _, rfl, onward m₁ wf.1, onward m₂ wf.2, tied⟩

/-- Tied contents stored and recorded. -/
theorem follows_record (name : String) (inputs inputs' : List TensorId) {c d : Content}
    (wf : c.WellFormed ∧ d.WellFormed) (related : R c d) (rule rule' : Rule) :
    Follows (record name inputs c rule) m₁ (record name inputs' d rule') m₂
      fun s₁ s₂ x y => s₁.Tied R s₂ x y := by
  refine (follows_checkRecording name name).bind fun _ _ _ _ _ _ _ => ?_
  refine (follows_add wf related none).bind fun id id' _ _ _ _ tied => ?_
  exact (follows_push _ _).bind fun _ _ _ _ more more' _ => .pure (tied.keeps more more')

end Session

end LayerNet
