import LayerNet.Proofs.Session.Abreast
import LayerNet.Proofs.Session.Returns

/-!
# Handing — entries that share their only operand

An entry hands amounts to the elements of its only operand (`Session.Hands`). Several such entries,
replayed one after the other, hand on what each of them does, in this order: what one of them adds
to the operand is nothing that another is shown (`Session.foldlM_replay_hands`, by induction along
the replay).

So what is left depends on nothing but the amounts that reach each element. Entries that hand on the
same amounts, in however many pieces, leave the same store (`Session.foldlM_replay_same`).
-/

namespace LayerNet

/-! ## Stores that are settled alike -/

/-- A tensor to which something is added has a gradient, and is otherwise what it was. -/
theorem Tensor.foldl_plus_eq {amounts : List Delta} (some? : amounts ≠ []) (t : Tensor) :
    ∃ g, amounts.foldl plus t = { t with gradient := some g } := by
  induction amounts generalizing t with
  | nil => exact absurd rfl some?
  | cons d amounts ih =>
    cases amounts with
    | nil => exact ⟨_, rfl⟩
    | cons d' amounts =>
      obtain ⟨g, same⟩ := ih (List.cons_ne_nil _ _) (t.plus d)
      exact ⟨g, same⟩

/-- Amounts that reach every element alike settle a tensor alike. -/
theorem Tensor.settled_eq_of_reaching {t : Tensor} (sized : t.gradientOrZeros.size = t.count)
    {xs ys : List Delta} (fits : ∀ d ∈ xs, d.Fits t.toContent)
    (fits' : ∀ d ∈ ys, d.Fits t.toContent) (both : xs = [] ↔ ys = [])
    (same : ∀ j < t.count, xs.flatMap (Delta.reaching j) = ys.flatMap (Delta.reaching j))
    (allocates : Bool) : settled allocates xs t = settled allocates ys t := by
  by_cases empty : xs = []
  · rw [empty, both.mp empty]
  · obtain ⟨g, left⟩ := foldl_plus_eq empty t
    obtain ⟨h, right⟩ := foldl_plus_eq (mt both.mpr empty) t
    have size := size_foldl_plus fits sized
    have size' := size_foldl_plus fits' sized
    rw [left] at size
    rw [right] at size'
    have gradients : g = h := by
      ext j inside inside'
      · exact size.trans size'.symm
      · have small : j < t.count := size ▸ inside
        have element := element_settled fits sized false small
        have element' := element_settled fits' sized false small
        unfold settled at element element'
        simp only [left, right, Bool.false_eq_true, if_false] at element element'
        rw [← Buffer.element_of_lt inside, ← Buffer.element_of_lt inside']
        exact element.trans ((same j small) ▸ element'.symm)
    unfold settled
    rw [left, right, gradients]

/-- Stores that have had as many buffers are the same when their tensors are. -/
theorem Store.ext_get? {s s' : Store} (buffers : s.buffers = s'.buffers)
    (tensors : ∀ id, s.get? id = s'.get? id) : s = s' := by
  obtain ⟨xs, n⟩ := s
  obtain ⟨ys, n'⟩ := s'
  have same : xs = ys := Array.ext_getElem? fun i => tensors ⟨i⟩
  rw [Store.mk.injEq]
  exact ⟨same, buffers⟩

/-- A store in which one tensor is changed and all others are as they were. -/
theorem Store.eq_update {s s' : Store} {id : TensorId} {f : Tensor → Tensor}
    (buffers : s'.buffers = s.buffers) (own : s'.get? id = (s.get? id).map f)
    (others : ∀ other, id ≠ other → s'.get? other = s.get? other) : s' = s.update id f := by
  refine ext_get? buffers fun other => ?_
  rw [get?_update]
  split
  next same => rw [← same, own]
  next different => exact others other different

namespace Session

/-- A replay gives no tensor another buffer. -/
theorem buffers_replay {s s' : Store} {e : Entry} (run : replay s e = .ok s') :
    s'.buffers = s.buffers := by
  have added {s s' : Store} {amounts : List (TensorId × Delta)}
      (run : addDeltas s amounts = .ok s') : s'.buffers = s.buffers := by
    induction amounts generalizing s with
    | nil =>
      cases run
      rfl
    | cons amount amounts ih =>
      obtain ⟨t, -, run⟩ := Outcome.bind_eq_ok_iff.mp run
      obtain ⟨t', -, run⟩ := Outcome.bind_eq_ok_iff.mp run
      have rest : s'.buffers = (s.put amount.1 t').buffers := ih run
      exact rest
  have allocated (s : Store) (ids : List TensorId) :
      (ids.foldl (fun s id => s.update id Tensor.allocate) s).buffers = s.buffers := by
    induction ids generalizing s with
    | nil => rfl
    | cons id ids ih => exact ih (s.update id Tensor.allocate)
  obtain ⟨shown, -, run⟩ := Outcome.bind_eq_ok_iff.mp run
  obtain ⟨deltas, -, run⟩ := Outcome.bind_eq_ok_iff.mp run
  rw [added run, allocated]

theorem buffers_foldlM_replay {s s' : Store} {entries : List Entry}
    (run : entries.foldlM replay s = .ok s') : s'.buffers = s.buffers := by
  induction entries generalizing s with
  | nil =>
    cases run
    rfl
  | cons e entries ih =>
    rw [List.foldlM_cons] at run
    obtain ⟨s₁, replayed, run⟩ := Outcome.bind_eq_ok_iff.mp run
    rw [ih run, buffers_replay replayed]

/-! ## Amounts for one operand -/

/-- As the store stands, the entry hands amounts to the elements of its only operand. -/
structure Hands (s : Store) (x : TensorId) (c : Content) (e : Entry)
    (amounts : Nat → List Float32) : Prop where
  unary : e.inputs = [x]
  fresh : ∀ o ∈ e.outputs, x.index < o.index
  answers : ∃ outputs back, s.Shows e.outputs outputs ∧ e.rule.Answers [c] outputs back
    ∧ ∀ j < c.count, back (s.gradients e.outputs) (0, j) = amounts j

variable {s : Store} {x : TensorId} {c : Content} {e : Entry} {amounts : Nat → List Float32}

/-- Whatever is added to the operand, the entry hands on what it did before. -/
theorem Hands.of_settles {s' : Store} {allocates : TensorId → Bool} {ds : List (TensorId × Delta)}
    (hands : Hands s x c e amounts) (settles : s.Settles s' allocates ds)
    (only : ∀ d ∈ ds, d.1 = x) :
    Hands s' x c e amounts := by
  obtain ⟨outputs, back, shows, answers, amount⟩ := hands.answers
  refine ⟨hands.unary, hands.fresh, outputs, back, shows.keeps settles.keeps, answers, ?_⟩
  have same : s'.gradients e.outputs = s.gradients e.outputs := by
    refine List.map_congr_left fun o result => ?_
    rw [gradientOrZeros_eq settles fun amount member => ?_]
    intro same
    have newer := hands.fresh o result
    rw [← same, only amount member] at newer
    exact Nat.lt_irrefl _ newer
  rw [same]
  exact amount

/-- An entry is replayed, and its operand is settled with the amounts that it hands on. -/
theorem Hands.replay (hands : Hands s x c e amounts) (wf : s.WellFormed)
    (there : s.content? x = some c) :
    ∃ d s', replay s e = .ok s' ∧ s.Settles s' (fun id => e.outputs.contains id) [(x, d)]
      ∧ ∀ j < c.count, d.reaching j = amounts j := by
  obtain ⟨outputs, back, shows, answers, amount⟩ := hands.answers
  have unary := hands.unary
  have fresh : ∀ i ∈ e.inputs, ∀ o ∈ e.outputs, i.index < o.index := by
    intro i operand
    rw [unary, List.mem_singleton] at operand
    exact operand ▸ hands.fresh
  obtain ⟨deltas, s', run, length, settles, reach⟩ :=
    replay_answers wf fresh (unary ▸ .cons there .nil) shows answers
  rw [unary] at length settles
  obtain ⟨d, rfl⟩ := List.length_eq_one_iff.mp length
  refine ⟨d, s', run, settles, fun j small => ?_⟩
  rw [← amount j small]
  exact reach (0, j) (mem_places_singleton.mpr ⟨rfl, small⟩) d rfl

/-- Entries are replayed one after the other, and their operand is settled with the amounts that
they hand on. -/
theorem foldlM_replay_hands (wf : s.WellFormed) (there : s.content? x = some c)
    {entries : List Entry} {amounts : List (Nat → List Float32)}
    (hands : List.Forall₂ (Hands s x c) entries amounts) :
    ∃ (ds : List Delta) (s' : Store), entries.foldlM replay s = .ok s'
      ∧ ds.length = entries.length
      ∧ s.Settles s' (fun id => entries.any fun e => e.outputs.contains id) (ds.map (x, ·))
      ∧ ∀ j < c.count, ds.flatMap (Delta.reaching j) = amounts.flatMap (· j) := by
  induction entries generalizing s amounts with
  | nil =>
    cases hands
    exact ⟨[], s, rfl, rfl, .refl s, fun _ _ => rfl⟩
  | cons e entries ih =>
    obtain ⟨amount, amounts, first, rest, rfl⟩ := List.forall₂_cons_left_iff.mp hands
    obtain ⟨d, s₁, replayed, settles, reach⟩ := first.replay wf there
    have only : ∀ amount ∈ [(x, d)], amount.1 = x := List.forall_mem_singleton.mpr rfl
    obtain ⟨ds, s', run, length, settles', reach'⟩ := ih (settles.wellFormed wf)
      (settles.keeps x c there) (rest.imp fun _ _ later => later.of_settles settles only)
    refine ⟨d :: ds, s', ?_, congrArg Nat.succ length, ?_, ?_⟩
    · rw [List.foldlM_cons, replayed]
      exact run
    · simpa only [List.any_cons, List.map_cons, List.cons_append, List.nil_append] using
        settles.trans settles'
    · intro j small
      rw [List.flatMap_cons, List.flatMap_cons, reach j small, reach' j small]

theorem amountsTo_own (x : TensorId) (ds : List Delta) : amountsTo x (ds.map (x, ·)) = ds := by
  simp [amountsTo, List.filter_map, Function.comp_def]

theorem amountsTo_other {x id : TensorId} (other : x ≠ id) (ds : List Delta) :
    amountsTo id (ds.map (x, ·)) = [] := by
  refine amountsTo_eq_nil fun amount member => ?_
  obtain ⟨d, -, rfl⟩ := List.mem_map.mp member
  exact other

/-- Entries with the same results that hand on the same amounts leave the same store. -/
theorem foldlM_replay_same (wf : s.WellFormed) (there : s.content? x = some c)
    {entries entries' : List Entry} {amounts amounts' : List (Nat → List Float32)}
    (hands : List.Forall₂ (Hands s x c) entries amounts)
    (hands' : List.Forall₂ (Hands s x c) entries' amounts')
    (both : entries = [] ↔ entries' = [])
    (results : ∀ id, (∃ e ∈ entries, id ∈ e.outputs) ↔ ∃ e ∈ entries', id ∈ e.outputs)
    (same : ∀ j < c.count, amounts.flatMap (· j) = amounts'.flatMap (· j)) :
    ∃ s', entries.foldlM replay s = .ok s' ∧ entries'.foldlM replay s = .ok s' := by
  obtain ⟨ds, s₁, run, length, settles, reach⟩ := foldlM_replay_hands wf there hands
  obtain ⟨ds', s₂, run', length', settles', reach'⟩ := foldlM_replay_hands wf there hands'
  have empty : ds = [] ↔ ds' = [] := by
    rw [← List.length_eq_zero_iff, length, List.length_eq_zero_iff, both,
      ← List.length_eq_zero_iff, ← length', List.length_eq_zero_iff]
  have allocates (id : TensorId) : (entries.any fun e => e.outputs.contains id)
      = entries'.any fun e => e.outputs.contains id := by
    rw [Bool.eq_iff_iff]
    simpa only [List.any_eq_true, List.contains_iff_mem] using results id
  have stores : s₁ = s₂ := by
    refine Store.ext_get? ?_ fun id => ?_
    · rw [buffers_foldlM_replay run, buffers_foldlM_replay run']
    rw [settles.tensors, settles'.tensors, allocates]
    cases tensor : s.get? id with
    | none => rfl
    | some t =>
      refine congrArg some ?_
      by_cases here : x = id
      · subst here
        have fits := settles.fits x t tensor
        have fits' := settles'.fits x t tensor
        rw [amountsTo_own] at fits fits' ⊢
        rw [amountsTo_own]
        have count : t.count = c.count := by
          rw [Store.content?_of_get? tensor] at there
          rw [← Option.some.inj there]
        refine Tensor.settled_eq_of_reaching (Tensor.size_gradientOrZeros (wf.gradients x t tensor))
          fits fits' empty (fun j small => ?_) _
        rw [reach j (count ▸ small), reach' j (count ▸ small), same j (count ▸ small)]
      · rw [amountsTo_other here, amountsTo_other here]
  exact ⟨s₁, run, stores ▸ run'⟩

end Session

end LayerNet
