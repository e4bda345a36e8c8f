import LayerNet.Proofs.Operation.Shapes
import LayerNet.Proofs.Session.Recording

/-!
# Steps that give shapes — a session that only refuses what does not fit

A step on a machine that records well-formed tensors (`Machine.Ready`) gives something when it ends
out of range or has a value with a property of the store, changes no content that is there, and
leaves the machine recording (`Step.Gives`). It does not end with an error. There is one rule for
each way to combine steps, and one for each step a layer is made of. The rule for operations
(`Session.gives_apply`) asks for the shapes of the operands and what an operation computes from such
shapes.

Across a computation that writes values, as building and training do, contents change but shapes do
not (`Store.Evolves`).
-/

namespace LayerNet

/-- The session records, and all tensors are well formed. -/
structure Machine.Ready (m : Machine) : Prop where
  recording : m.session.finalized = false
  store : m.store.WellFormed

namespace Store

/-- The shape of the tensor with an identity. -/
def shape? (s : Store) (id : TensorId) : Option Shape := (s.content? id).map Content.shape

/-- What is there stays there with its shape and stays well formed, while its values may change. -/
structure Evolves (before after : Store) : Prop where
  shape? : ∀ id shape, before.shape? id = some shape → after.shape? id = some shape
  wellFormed : before.WellFormed → after.WellFormed

/-- The tensors are there with these shapes. -/
def Holds (s : Store) (shapes : List Shape) (ids : List TensorId) : Prop :=
  List.Forall₂ (fun id shape => s.shape? id = some shape) ids shapes

variable {s before after : Store}

theorem exists_content {id : TensorId} {shape : Shape} (shaped : s.shape? id = some shape) :
    ∃ c, s.content? id = some c ∧ c.shape = shape :=
  Option.map_eq_some_iff.mp shaped

theorem shape?_of_content? {id : TensorId} {c : Content} (there : s.content? id = some c) :
    s.shape? id = some c.shape := by
  rw [shape?, there]
  rfl

theorem WellFormed.valid (wf : s.WellFormed) {id : TensorId} {shape : Shape}
    (shaped : s.shape? id = some shape) : shape.IsValid := by
  obtain ⟨c, there, rfl⟩ := exists_content shaped
  exact (wf.content there).valid

theorem Keeps.refl (s : Store) : s.Keeps s := fun _ _ there => there

theorem Keeps.trans {last : Store} (first : before.Keeps after) (second : after.Keeps last) :
    before.Keeps last :=
  fun id c there => second id c (first id c there)

theorem Keeps.shape? (keeps : before.Keeps after) {id : TensorId} {shape : Shape}
    (shaped : before.shape? id = some shape) : after.shape? id = some shape := by
  obtain ⟨c, there, rfl⟩ := exists_content shaped
  exact shape?_of_content? (keeps id c there)

theorem Evolves.refl (s : Store) : s.Evolves s := ⟨fun _ _ shaped => shaped, fun wf => wf⟩

theorem Evolves.trans {last : Store} (first : before.Evolves after) (second : after.Evolves last) :
    before.Evolves last where
  shape? id shape shaped := second.shape? id shape (first.shape? id shape shaped)
  wellFormed wf := second.wellFormed (first.wellFormed wf)

theorem Adds.evolves {contents : List Content} {ids : List TensorId}
    (adds : Adds contents before ids after) (new : ∀ c ∈ contents, c.WellFormed) :
    before.Evolves after where
  shape? _ _ shaped := adds.keeps.shape? shaped
  wellFormed wf := adds.wellFormed wf new

theorem get?_mapValues (s : Store) (id other : TensorId) (f : Buffer → Buffer) :
    (s.mapValues id f).get? other = if id = other then
      (s.get? other).map fun t => { t with values := f t.values, buffer := ⟨s.buffers⟩ }
    else s.get? other :=
  s.get?_update id other _

/-- A tensor can be given as many other values. -/
theorem evolves_mapValues (s : Store) (id : TensorId) {f : Buffer → Buffer}
    (size : ∀ values : Buffer, (f values).size = values.size) : s.Evolves (s.mapValues id f) where
  shape? other shape shaped := by
    obtain ⟨c, there, rfl⟩ := exists_content shaped
    obtain ⟨t, found, rfl⟩ := Option.map_eq_some_iff.mp there
    unfold shape? content?
    rw [get?_mapValues, found]
    split <;> rfl
  wellFormed wf := by
    have changed (other : TensorId) (t : Tensor) (there : (s.mapValues id f).get? other = some t) :
        ∃ old, s.get? other = some old ∧ t.shape = old.shape ∧ t.strides = old.strides
          ∧ t.values.size = old.values.size ∧ t.gradient = old.gradient := by
      rw [get?_mapValues] at there
      split at there
      · obtain ⟨old, found, rfl⟩ := Option.map_eq_some_iff.mp there
        exact ⟨old, found, rfl, rfl, size old.values, rfl⟩
      · exact ⟨t, there, rfl, rfl, rfl, rfl⟩
    refine ⟨fun other t there => ?_, fun other t there g gradient => ?_⟩
    · obtain ⟨old, found, shape, strides, count, -⟩ := changed other t there
      obtain ⟨valid, row_major, full⟩ := wf.contents other old found
      exact ⟨shape ▸ valid, shape ▸ strides ▸ row_major, shape ▸ count.trans full⟩
    · obtain ⟨old, found, -, -, count, same⟩ := changed other t there
      exact (wf.gradients other old found g (same ▸ gradient)).trans count.symm

theorem Holds.mono {shapes : List Shape} {ids : List TensorId} (holds : before.Holds shapes ids)
    (keeps : before.Keeps after) : after.Holds shapes ids :=
  holds.imp fun _ _ shaped => keeps.shape? shaped

theorem Holds.exists_shape {shapes : List Shape} {ids : List TensorId} (holds : s.Holds shapes ids)
    {id : TensorId} (member : id ∈ ids) : ∃ shape ∈ shapes, s.shape? id = some shape := by
  induction holds with
  | nil => exact absurd member List.not_mem_nil
  | @cons first shape _ shapes shaped _ ih =>
    rcases List.mem_cons.mp member with rfl | member
    · exact ⟨shape, List.mem_cons_self, shaped⟩
    · obtain ⟨shape', inside, shaped⟩ := ih member
      exact ⟨shape', List.mem_cons_of_mem _ inside, shaped⟩

theorem holds_of_adds {contents : List Content} {ids : List TensorId}
    (adds : Adds contents before ids after) : after.Holds (contents.map Content.shape) ids := by
  rw [Holds, List.forall₂_map_right_iff]
  exact adds.added.imp fun _ _ there => shape?_of_content? there

end Store

namespace Step

variable {ε α β : Type}

/-- From a machine, the step ends out of range or has a value with a property of what is there then.
It does not end with an error, and breaks no promise. -/
def Ensures (x : Step ε α) (m : Machine) (Q : α → Machine → Prop) : Prop :=
  Outcome.OutOfRange (x.run m).1 ∨ ∃ a m', x.run m = (.ok a, m') ∧ Q a m'

theorem outOfRange_bind {x : Step ε α} {f : α → Step ε β} {m : Machine}
    (out : Outcome.OutOfRange (x.run m).1) : Outcome.OutOfRange ((x >>= f).run m).1 := by
  rw [run_bind]
  obtain ⟨result, m', run⟩ : ∃ result m', x.run m = (result, m') := ⟨_, _, rfl⟩
  rw [run] at out ⊢
  rcases out with rfl | rfl
  · exact .inl rfl
  · exact .inr rfl

namespace Ensures

variable {x : Step ε α} {m : Machine} {Q : α → Machine → Prop}

theorem bind {f : α → Step ε β} {R : β → Machine → Prop} (first : x.Ensures m Q)
    (second : ∀ a m', Q a m' → (f a).Ensures m' R) : (x >>= f).Ensures m R := by
  rcases first with out | ⟨a, m', run, fits⟩
  · exact .inl (outOfRange_bind out)
  · rw [Ensures, run_bind_ok run]
    exact second a m' fits

theorem mono {R : α → Machine → Prop} (ensures : x.Ensures m Q)
    (weaker : ∀ a m', Q a m' → R a m') : x.Ensures m R := by
  rcases ensures with out | ⟨a, m', run, fits⟩
  · exact .inl out
  · exact .inr ⟨a, m', run, weaker a m' fits⟩

/-- What a step ensures holds of its value. -/
theorem of_run {a : α} {m' : Machine} (ensures : x.Ensures m Q) (run : x.run m = (.ok a, m')) :
    Q a m' := by
  rcases ensures with (out | out) | ⟨a', m'', run', fits⟩
  · rw [run] at out
    cases out
  · rw [run] at out
    cases out
  · rw [run] at run'
    cases run'
    exact fits

end Ensures

/-- Where the session records, the step ends out of range or has a value with a property of the
store, keeps all contents and leaves the session recording. -/
def Gives (x : Step TensorError α) (m : Machine) (Q : Store → α → Prop) : Prop :=
  m.Ready → x.Ensures m fun a m' => m'.Ready ∧ m.store.Keeps m'.store ∧ Q m'.store a

namespace Gives

variable {m : Machine} {Q : Store → α → Prop}

theorem pure {a : α} (fits : Q m.store a) : Gives (Pure.pure a) m Q :=
  fun ready => .inr ⟨a, m, rfl, ready, .refl m.store, fits⟩

theorem bind {x : Step TensorError α} {f : α → Step TensorError β} {R : Store → β → Prop}
    (first : Gives x m Q)
    (second : ∀ a m', m.store.Keeps m'.store → Q m'.store a → Gives (f a) m' R) :
    Gives (x >>= f) m R := by
  refine fun ready => (first ready).bind ?_
  rintro a m' ⟨ready', keeps, fits⟩
  refine (second a m' keeps fits ready').mono ?_
  rintro b m'' ⟨ready'', keeps', fits⟩
  exact ⟨ready'', keeps.trans keeps', fits⟩

/-- What is known of a machine that records may be used. -/
theorem of_ready {x : Step TensorError α} (gives : m.Ready → Gives x m Q) : Gives x m Q :=
  fun ready => gives ready ready

theorem mono {x : Step TensorError α} {R : Store → α → Prop} (gives : Gives x m Q)
    (weaker : ∀ s a, m.store.Keeps s → Q s a → R s a) : Gives x m R := by
  refine fun ready => (gives ready).mono ?_
  rintro a m' ⟨ready', keeps, fits⟩
  exact ⟨ready', keeps, weaker m'.store a keeps fits⟩

theorem lift {x : Outcome TensorError α} {P : α → Prop} (ensures : x.Ensures P) :
    Gives (Step.lift x) m fun _ a => P a := by
  intro ready
  rcases ensures with out | ⟨a, value, fits⟩
  · exact .inl out
  · exact .inr ⟨a, m, by rw [run_lift, value], ready, .refl m.store, fits⟩

theorem tensor {id : TensorId} {shape : Shape} (shaped : m.store.shape? id = some shape) :
    Gives (Step.tensor id) m fun s t =>
      s.content? id = some t.toContent ∧ t.toContent.WellFormed ∧ t.shape = shape := by
  obtain ⟨c, there, rfl⟩ := Store.exists_content shaped
  obtain ⟨t, found, rfl⟩ := Option.map_eq_some_iff.mp there
  intro ready
  refine .inr ⟨t, m, ?_, ready, .refl m.store, there, ready.store.content there, rfl⟩
  show ((m.store.tensor id : Checked Tensor), m) = _
  rw [Store.tensor, found]
  rfl

theorem singleton {x : Step TensorError TensorId} {shape : Shape}
    (gives : Gives x m fun s id => s.shape? id = some shape) :
    Gives (do return [← x]) m fun s ids => s.Holds [shape] ids :=
  gives.bind fun _ _ _ shaped => .pure (.cons shaped .nil)

/-- The same step, once for each element of a list. -/
theorem replicate {x : Step TensorError TensorId} {shape : Shape} (xs : List β)
    (each : ∀ m', m.store.Keeps m'.store →
      Gives x m' fun s id => s.shape? id = some shape) :
    Gives (xs.mapM fun _ => x) m fun s ids => s.Holds (List.replicate xs.length shape) ids := by
  induction xs generalizing m with
  | nil =>
    rw [List.mapM_nil]
    exact .pure .nil
  | cons y ys ih =>
    rw [List.mapM_cons]
    refine (each m (.refl m.store)).bind fun id m' keeps shaped => ?_
    refine (ih fun m'' keeps' => each m'' (keeps.trans keeps')).bind fun ids m'' keeps' holds => ?_
    exact .pure (.cons (keeps'.shape? shaped) holds)

end Gives

end Step

namespace Session

variable {m : Machine}

/-- An operand has the shape that its tensor has. -/
theorem shape_operand {s : Store} {id : TensorId} {shape : Shape}
    (shaped : s.shape? id = some shape) : ((s.content? id).getD default).shape = shape := by
  obtain ⟨c, there, rfl⟩ := Store.exists_content shaped
  rw [there]
  rfl

theorem wellFormed_operand {s : Store} (wf : s.WellFormed) {id : TensorId} {shape : Shape}
    (shaped : s.shape? id = some shape) : ((s.content? id).getD default).WellFormed := by
  obtain ⟨c, there, rfl⟩ := Store.exists_content shaped
  rw [there]
  exact wf.content there

theorem gives_apply (op : Operation TensorId) {operands results : List Shape}
    (there : m.store.Holds operands op.operands)
    (computes : m.store.WellFormed → Computes (operandsOf m.store op).compute results) :
    Step.Gives (apply op) m fun s ids => s.Holds results ids := by
  intro ready
  have contents : ∀ id ∈ op.operands, ∃ c, m.store.content? id = some c := by
    intro id member
    obtain ⟨shape, -, shaped⟩ := there.exists_shape member
    obtain ⟨c, content, -⟩ := Store.exists_content shaped
    exact ⟨c, content⟩
  rcases computes ready.store with (overflow | infinite) | ⟨computed, success, rfl⟩
  · rw [Step.Ensures, run_apply_of_error ready.recording contents overflow]
    exact .inl (.inl rfl)
  · rw [Step.Ensures, run_apply_of_error ready.recording contents infinite]
    exact .inl (.inr rfl)
  · obtain ⟨ids, store, adds, run⟩ := run_apply_of_ok ready.recording contents success
    have sound := Operation.compute_sound (wellFormed_operands ready.store contents) success
    exact .inr ⟨ids, _, run, ⟨ready.recording, adds.wellFormed ready.store sound.outputs⟩,
      adds.keeps, Store.holds_of_adds adds⟩

/-- An operation of one result gives that result. -/
theorem gives_only {op : Operation TensorId} {result : Shape}
    (gives : Step.Gives (apply op) m fun s ids => s.Holds [result] ids) :
    Step.Gives (apply1 op) m fun s id => s.shape? id = some result := by
  refine gives.bind fun ids m' _ holds => ?_
  rcases holds with _ | @⟨id, _, _, _, shaped, ⟨⟩⟩
  exact .pure shaped

/-- A tensor stored that was not there. -/
theorem gives_store {c : Content} (wf : c.WellFormed) (name : Option String) :
    Step.Gives (Step.add c name) m fun s id => s.shape? id = some c.shape := by
  intro ready
  have adds : Store.Adds [c] m.store [(m.store.add c name).1] (m.store.add c name).2 :=
    .cons rfl rfl (.refl _)
  have new : ∀ c' ∈ [c], c'.WellFormed := fun c' member => List.mem_singleton.mp member ▸ wf
  have holds := Store.holds_of_adds adds
  cases holds with
  | cons shaped _ =>
    exact .inr ⟨_, _, rfl, ⟨ready.recording, adds.wellFormed ready.store new⟩, adds.keeps, shaped⟩

theorem gives_record (name : String) (inputs : List TensorId) {c : Content} (wf : c.WellFormed)
    (rule : Rule) :
    Step.Gives (record name inputs c rule) m fun s id => s.shape? id = some c.shape := by
  intro ready
  have added := gives_store wf none ready
  unfold record
  rw [Step.Ensures, Step.run_bind_ok (run_checkRecording ready.recording name)]
  rcases added with out | ⟨id, m', run, ready', keeps, shaped⟩
  · exact .inl (Step.outOfRange_bind out)
  · rw [Step.run_bind_ok run]
    exact .inr ⟨id, _, rfl, ⟨ready'.recording, ready'.store⟩, keeps, shaped⟩

/-! ## Operations -/

section Operations

variable {x y : TensorId} {shape : Shape}

/-- An operation of one operand whose result has the operand's shape. -/
theorem gives_same (op : Operation TensorId) (operands : op.operands = [x])
    (shaped : m.store.shape? x = some shape)
    (computes : ((m.store.content? x).getD default).WellFormed →
      Computes (operandsOf m.store op).compute [((m.store.content? x).getD default).shape]) :
    Step.Gives (apply op) m fun s ids => s.Holds [shape] ids := by
  have there : m.store.Holds [shape] op.operands := by
    rw [operands]
    exact .cons shaped .nil
  refine gives_apply op there fun wf => ?_
  have computed := computes (wellFormed_operand wf shaped)
  rwa [shape_operand shaped] at computed

theorem gives_reshape {shape' : Shape} (shaped : m.store.shape? x = some shape)
    (valid : shape'.IsValid) (count : shape'.prod = shape.prod) :
    Step.Gives (apply1 (.reshape x shape')) m fun s id => s.shape? id = some shape' :=
  gives_only <| gives_apply (.reshape x shape') (.cons shaped .nil) fun wf =>
    Content.reshaped_computes valid <| by
      rw [(wellFormed_operand wf shaped).count, shape_operand shaped, count]

theorem gives_add {shape : Shape} (left : m.store.shape? x = some shape)
    (right : m.store.shape? y = some shape) :
    Step.Gives (apply1 (.add x y)) m fun s id => s.shape? id = some shape := by
  refine gives_only <| gives_apply (.add x y) (.cons left (.cons right .nil)) fun wf => ?_
  have sum := Content.add_computes (wellFormed_operand wf left) (wellFormed_operand wf right)
    (by rw [shape_operand left, shape_operand right])
  rwa [shape_operand left] at sum

theorem gives_addBias {width : Nat} (rows : m.store.shape? x = some shape)
    (bias : m.store.shape? y = some [width]) (last : shape.getLast? = some width) :
    Step.Gives (apply1 (.addBias x y)) m fun s id => s.shape? id = some shape := by
  refine gives_only <| gives_apply (.addBias x y) (.cons rows (.cons bias .nil)) fun wf => ?_
  have sum := Content.addBias_computes (wellFormed_operand wf rows) (shape_operand bias)
    (by rw [shape_operand rows, last])
  rwa [shape_operand rows] at sum

theorem gives_matmul {rows inner columns : Nat} (left : m.store.shape? x = some [rows, inner])
    (right : m.store.shape? y = some [inner, columns]) :
    Step.Gives (apply1 (.matmul x y)) m fun s id => s.shape? id = some [rows, columns] := by
  refine gives_only <| gives_apply (.matmul x y) (.cons left (.cons right .nil)) fun wf => ?_
  obtain ⟨rows_pos, -⟩ := (Shape.isValid_cons _ _).mp (wf.valid left)
  obtain ⟨-, inner_columns⟩ := (Shape.isValid_cons _ _).mp (wf.valid right)
  rw [List.mem_singleton] at inner_columns
  exact Content.matmul_computes (shape_operand left) (shape_operand right) rows_pos
    (Nat.pos_of_ne_zero (Ne.symm inner_columns))

section Reduce

variable (axis : Nat) {length members : Nat} (shaped : m.store.shape? x = some shape)
  (found : shape[axis]? = some length) (positive : members ≠ 0) (divides : length % members = 0)
include shaped found positive divides

theorem gives_maxReduce : Step.Gives (apply1 (.maxReduce x axis members)) m fun s id =>
    s.shape? id = some (shape.set axis (length / members)) := by
  refine gives_only <| gives_apply (.maxReduce x axis members) (.cons shaped .nil) fun wf => ?_
  have reduced := Content.maxReduce_computes (wellFormed_operand wf shaped)
    (by rw [shape_operand shaped, found]) positive divides
  rwa [shape_operand shaped] at reduced

theorem gives_meanReduce : Step.Gives (apply1 (.meanReduce x axis members)) m fun s id =>
    s.shape? id = some (shape.set axis (length / members)) := by
  refine gives_only <| gives_apply (.meanReduce x axis members) (.cons shaped .nil) fun wf => ?_
  have reduced := Content.meanReduce_computes (wellFormed_operand wf shaped)
    (by rw [shape_operand shaped, found]) positive divides
  rwa [shape_operand shaped] at reduced

end Reduce

end Operations

end Session

end LayerNet
