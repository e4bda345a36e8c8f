import LayerNet.Proofs.Session.Yielding

/-!
# Hinging — steps that a condition decides

A step hinges on a condition when under it the step runs through, leaves what there was and gives
what is told, and otherwise the run ends in it (`Session.Hinges`). Steps in sequence hinge on both
conditions (`Session.Hinges.bind`), so what a layer computes is told step by step, together with
what it takes to be computed at all.

An operation that makes one content hinges on the number of its elements and on their being finite
(`Session.hinges_make`). What it gives is a tensor that holds known values under a known shape
(`Store.Has`), which the next step can rely on.
-/

namespace LayerNet

/-- The values of a tensor. -/
def Store.values (s : Store) (id : TensorId) : Buffer :=
  ((s.content? id).map Content.values).getD #[]

theorem Store.values_eq {s : Store} {id : TensorId} {c : Content} (there : s.content? id = some c) :
    s.values id = c.values := by
  rw [values, there]
  rfl

/-- The tensor is there, with these values under this shape. -/
def Store.Has (s : Store) (id : TensorId) (values : Buffer) (shape : Shape) : Prop :=
  ∃ c, s.content? id = some c ∧ c.Regular ∧ c.shape = shape ∧ c.values = values

namespace Store.Has

variable {s s' : Store} {id : TensorId} {values : Buffer} {shape : Shape}

theorem keeps (has : s.Has id values shape) (keeps : s.Keeps s') : s'.Has id values shape := by
  obtain ⟨c, content, rest⟩ := has
  exact ⟨c, keeps id c content, rest⟩

theorem of_made {c : Content} (content : s.content? id = some c)
    (made : Content.make values shape = .ok c) : s.Has id values shape := by
  obtain ⟨shaped, valued, -⟩ := Content.of_make_eq_ok made
  exact ⟨c, content, (Content.made_of_make made).regular, shaped, valued⟩

theorem size (has : s.Has id values shape) : values.size = shape.prod := by
  obtain ⟨c, -, regular, rfl, rfl⟩ := has
  exact regular.values

theorem values_eq (has : s.Has id values shape) : s.values id = values := by
  obtain ⟨c, content, -, -, rfl⟩ := has
  exact Store.values_eq content

theorem small (has : s.Has id values shape) : shape.prod < Size.limit := by
  obtain ⟨c, -, regular, rfl, -⟩ := has
  exact regular.fits

theorem valid (has : s.Has id values shape) : shape.IsValid := by
  obtain ⟨c, -, regular, rfl, -⟩ := has
  exact regular.wellFormed.valid

/-- The contents of tensors that hold what a list tells. -/
theorem exists_contents {α : Type} {ids : List TensorId} {as : List α} {values : α → Buffer}
    (each : List.Forall₂ (fun id a => s.Has id (values a) shape) ids as) :
    ∃ contents, s.Shows ids contents ∧ List.Forall₂ (fun (c : Content) a =>
      c.Regular ∧ c.shape = shape ∧ c.values = values a) contents as := by
  induction each with
  | nil => exact ⟨[], .nil, .nil⟩
  | cons first _ ih =>
    obtain ⟨c, content, first⟩ := first
    obtain ⟨contents, shows, rest⟩ := ih
    exact ⟨c :: contents, .cons content shows, .cons first rest⟩

end Store.Has

/-- A content is made, or the run ends. -/
theorem Content.make_cases {values : Buffer} {shape : Shape} (valid : shape.IsValid)
    (size : values.size = shape.prod) :
    (shape.prod < Size.limit ∧ values.nonFinite? = none → ∃ c, make values shape = .ok c)
      ∧ (¬(shape.prod < Size.limit ∧ values.nonFinite? = none) →
        ∃ reason, make values shape = Outcome.stop reason) := by
  by_cases small : shape.prod < Size.limit
  · rcases make_of_lt valid size small with made | ⟨ended, infinite⟩
    · obtain ⟨c, success⟩ := made
      exact ⟨fun _ => ⟨c, success⟩, fun fails => absurd ⟨small, (of_make_eq_ok success).2.2.2.2⟩ fails⟩
    · exact ⟨fun condition => absurd condition.2 infinite, fun _ => ⟨_, ended⟩⟩
  · have ended : ∃ reason, shape.elements = Outcome.stop reason := by
      rcases Size.product_ensures (ε := TensorError) shape with out | ⟨n, fits, rfl⟩
      · exact out.elim (⟨_, ·⟩) (⟨_, ·⟩)
      · exact absurd (Size.product_lt fits) small
    obtain ⟨reason, ended⟩ := ended
    refine ⟨fun condition => absurd condition.1 small, fun _ => ⟨reason, ?_⟩⟩
    unfold make
    rw [(Shape.validate_eq_ok_iff shape).mpr valid, ended]
    rfl

namespace Session

/-- Under the condition the step runs through, leaves what there was, and gives what is told;
otherwise the run ends in it. -/
structure Hinges {α : Type} (condition : Prop) (x : Step TensorError α) (m : Machine)
    (Q : Machine → α → Prop) : Prop where
  passes : condition → ∃ a m', x.run m = (.ok a, m') ∧ m.Onward m' ∧ Q m' a
  ends : ¬condition → ∃ reason m', x.run m = (Outcome.stop reason, m')

namespace Hinges

variable {α β : Type} {P P' : Prop} {x : Step TensorError α} {m : Machine} {Q : Machine → α → Prop}

theorem pure {a : α} (holds : Q m a) : Hinges True (Pure.pure a : Step TensorError α) m Q where
  passes _ := ⟨a, m, rfl, .refl m, holds⟩
  ends fails := absurd trivial fails

theorem bind {f : α → Step TensorError β} {Q' : Machine → β → Prop} (first : Hinges P x m Q)
    (second : ∀ a m', m.Onward m' → Q m' a → Hinges P' (f a) m' Q') :
    Hinges (P ∧ P') (x >>= f) m Q' := by
  by_cases passes : P
  · obtain ⟨a, m₁, run, onward, given⟩ := first.passes passes
    obtain ⟨through, ends⟩ := second a m₁ onward given
    refine ⟨fun ⟨_, passes'⟩ => ?_, fun fails => ?_⟩
    · obtain ⟨b, m₂, run', onward', given'⟩ := through passes'
      exact ⟨b, m₂, (Step.run_bind_ok run).trans run', onward.trans onward', given'⟩
    · obtain ⟨reason, m₂, run'⟩ := ends fun passes' => fails ⟨passes, passes'⟩
      exact ⟨reason, m₂, (Step.run_bind_ok run).trans run'⟩
  · obtain ⟨reason, m₁, run⟩ := first.ends passes
    exact ⟨fun both => absurd both.1 passes, fun _ => ⟨reason, m₁, Step.run_bind_error run⟩⟩

theorem mono {Q' : Machine → α → Prop} (hinges : Hinges P x m Q) (same : P' ↔ P)
    (weaker : ∀ m' a, m.Onward m' → Q m' a → Q' m' a) : Hinges P' x m Q' := by
  refine ⟨fun passes => ?_, fun fails => hinges.ends fun passes => fails (same.mpr passes)⟩
  obtain ⟨a, m', run, onward, given⟩ := hinges.passes (same.mp passes)
  exact ⟨a, m', run, onward, weaker m' a onward given⟩

theorem congr (hinges : Hinges P x m Q) (same : P' ↔ P) : Hinges P' x m Q :=
  hinges.mono same fun _ _ _ given => given

/-- Where a step that hinges on a condition runs through, the condition holds, and it gives what is
told. -/
theorem given {a : α} {m' : Machine} (hinges : Hinges P x m Q) (run : x.run m = (.ok a, m')) :
    P ∧ Q m' a := by
  by_cases passes : P
  · obtain ⟨_, _, run', -, given⟩ := hinges.passes passes
    cases run.symm.trans run'
    exact ⟨passes, given⟩
  · obtain ⟨reason, _, run'⟩ := hinges.ends passes
    cases run.symm.trans run'

/-- A step that always runs through, before one that hinges on a condition. -/
theorem after {f : α → Step TensorError β} {Q' : Machine → β → Prop} (first : Hinges True x m Q)
    (second : ∀ a m', m.Onward m' → Q m' a → Hinges P (f a) m' Q') : Hinges P (x >>= f) m Q' :=
  (first.bind second).congr (true_and P).symm.to_iff

/-- The last step before the result is put together. -/
theorem map {f : α → β} {Q' : Machine → β → Prop} (hinges : Hinges P x m Q)
    (given : ∀ m' a, m.Onward m' → Q m' a → Q' m' (f a)) :
    Hinges P (do return f (← x)) m Q' :=
  (hinges.bind fun a m' onward holds => Hinges.pure (given m' a onward holds)).congr
    (and_true P).symm.to_iff

/-- A step that gives one tensor. -/
theorem only {op : Operation TensorId} {Q : Machine → List TensorId → Prop}
    {Q' : Machine → TensorId → Prop} (hinges : Hinges P (apply op) m Q)
    (given : ∀ m' ids, m.Onward m' → Q m' ids → ∃ id, ids = [id] ∧ Q' m' id) :
    Hinges P (apply1 op) m Q' := by
  refine (hinges.bind fun ids m' onward made => ?_).congr (and_true P).symm.to_iff
  obtain ⟨id, rfl, holds⟩ := given m' ids onward made
  exact Hinges.pure holds

/-- A step that gives one tensor with a content that is made of known values. -/
theorem one {op : Operation TensorId} {values : Buffer} {shape : Shape}
    (hinges : Hinges P (apply op) m fun m' ids => ∃ results,
      (∃ y, results = [y] ∧ Content.make values shape = .ok y) ∧ m'.store.Shows ids results) :
    Hinges P (apply1 op) m fun m' id => m'.store.Has id values shape := by
  refine hinges.only fun m' ids _ given => ?_
  obtain ⟨_, ⟨y, rfl, made⟩, shows⟩ := given
  obtain ⟨id, _, there, none, rfl⟩ := List.forall₂_cons_right_iff.mp shows
  obtain rfl := List.forall₂_nil_right_iff.mp none
  exact ⟨id, rfl, .of_made there made⟩

/-- A computation that does not need the machine. -/
theorem lift {o : Outcome TensorError α} {Q : α → Prop} (passes : P → ∃ a, o = .ok a ∧ Q a)
    (ends : ¬P → ∃ reason, o = Outcome.stop reason) :
    Hinges P (Step.lift o) m fun m' a => m' = m ∧ Q a := by
  refine ⟨fun condition => ?_, fun fails => ?_⟩
  · obtain ⟨a, rfl, given⟩ := passes condition
    exact ⟨a, m, rfl, .refl m, rfl, given⟩
  · obtain ⟨reason, rfl⟩ := ends fails
    exact ⟨reason, m, rfl⟩

/-- A tensor with a content can be stored. -/
theorem stored {c : Content} (wf : c.WellFormed) (name : Option String) :
    Hinges True (Step.add c name : Step TensorError TensorId) m fun m' id =>
      m'.store.content? id = some c := by
  have adds : Store.Adds [c] m.store [(m.store.add c name).1] (m.store.add c name).2 :=
    .cons rfl rfl (.refl _)
  have onward : m.Onward { m with store := (m.store.add c name).2 } :=
    .of_adds adds fun _ c' member => List.mem_singleton.mp member ▸ wf
  obtain ⟨there, -⟩ := List.forall₂_cons.mp adds.added
  exact ⟨fun _ => ⟨_, _, rfl, onward, there⟩, fun fails => absurd trivial fails⟩

/-- A tensor that is there can be read. -/
theorem tensor {id : TensorId} {c : Content} (there : m.store.content? id = some c) :
    Hinges True (Step.tensor id) m fun m' t => m' = m ∧ t.toContent = c := by
  obtain ⟨t, found, content⟩ := Option.map_eq_some_iff.mp there
  exact ⟨fun _ => ⟨t, m, Step.run_tensor found, .refl m, rfl, content⟩, fun fails => absurd trivial fails⟩

end Hinges

section Apply

variable {m : Machine} {op : Operation TensorId} {contents : List Content}
  (recording : m.session.finalized = false) (shows : m.store.Shows op.operands contents)
include recording shows

/-- An operation that is computed under a condition. -/
theorem hinges_apply {P : Prop} {Q : List Content → Prop}
    (passes : P → ∃ computed, (operandsOf m.store op).compute = .ok computed ∧ Q computed.outputs)
    (ends : ¬P → ∃ reason, (operandsOf m.store op).compute = Outcome.stop reason) :
    Hinges P (apply op) m fun m' ids => ∃ results, Q results ∧ m'.store.Shows ids results where
  passes condition := by
    obtain ⟨computed, success, given⟩ := passes condition
    obtain ⟨ids, m', run, onward, there⟩ := yields_apply recording shows.exists_content success
    exact ⟨ids, m', run, onward, computed.outputs, given, there⟩
  ends fails := by
    obtain ⟨reason, ended⟩ := ends fails
    exact ends_apply recording shows.exists_content ended

/-- An operation that makes one content. -/
theorem hinges_make {f : Content → Computed} (outputs : ∀ y, (f y).outputs = [y]) {values : Buffer}
    {shape : Shape} (computes : (operandsOf m.store op).compute = f <$> Content.make values shape)
    (valid : shape.IsValid) (size : values.size = shape.prod) :
    Hinges (shape.prod < Size.limit ∧ values.nonFinite? = none) (apply1 op) m
      fun m' id => m'.store.Has id values shape := by
  obtain ⟨passes, ends⟩ := Content.make_cases valid size
  refine Hinges.one (hinges_apply recording shows (fun condition => ?_) fun fails => ?_)
  · obtain ⟨y, made⟩ := passes condition
    rw [made] at computes
    exact ⟨f y, computes, y, outputs y, made⟩
  · obtain ⟨reason, ended⟩ := ends fails
    rw [ended] at computes
    exact ⟨reason, computes⟩

end Apply

section One

variable {m : Machine} {x : TensorId} {c : Content} (there : m.store.content? x = some c)
  {op : Operation TensorId} (unary : op.operands = [x])
include there unary

variable (op) in
/-- An operation on one tensor that makes one content. -/
theorem hinges_one (recording : m.session.finalized = false) {f : Content → Computed}
    (outputs : ∀ y, (f y).outputs = [y]) {values : Buffer} {shape : Shape}
    (computes : (op.map fun _ => c).compute = f <$> Content.make values shape)
    (valid : shape.IsValid) (size : values.size = shape.prod) :
    Hinges (shape.prod < Size.limit ∧ values.nonFinite? = none) (apply1 op) m
      fun m' id => m'.store.Has id values shape := by
  have shows : m.store.Shows op.operands [c] := by
    rw [unary]
    exact .cons there .nil
  refine hinges_make recording shows outputs ?_ valid size
  rw [operandsOf_one there unary, computes]

end One

section Two

variable {m : Machine} {x y : TensorId} {c d : Content} (there : m.store.content? x = some c)
  (there' : m.store.content? y = some d) (op : {α : Type} → α → α → Operation α)
  (natural : ∀ f : TensorId → Content, (op x y).map f = op (f x) (f y))
include there there' natural

/-- A call on two tensors is computed on their contents. -/
theorem operandsOf_two : operandsOf m.store (op x y) = op c d := by
  rw [operandsOf, natural, there, there']
  rfl

/-- An operation on two tensors that makes one content. -/
theorem hinges_two (recording : m.session.finalized = false) (both : (op x y).operands = [x, y])
    {f : Content → Computed} (outputs : ∀ y, (f y).outputs = [y]) {values : Buffer} {shape : Shape}
    (computes : (op c d).compute = f <$> Content.make values shape) (valid : shape.IsValid)
    (size : values.size = shape.prod) :
    Hinges (shape.prod < Size.limit ∧ values.nonFinite? = none) (apply1 (op x y)) m
      fun m' id => m'.store.Has id values shape := by
  have shows : m.store.Shows (op x y).operands [c, d] := by
    rw [both]
    exact .cons there (.cons there' .nil)
  refine hinges_make recording shows outputs ?_ valid size
  rw [operandsOf_two there there' op natural, computes]

end Two

end Session

end LayerNet
