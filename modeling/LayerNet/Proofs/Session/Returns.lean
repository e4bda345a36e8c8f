import LayerNet.Proofs.Operation.Calls
import LayerNet.Proofs.Operation.Returns
import LayerNet.Proofs.Session.Replay

/-!
# Returns along a session — replaying what only moved elements

An operation that only moves elements, once it is recorded, is replayed as the transpose of what it
did (`Session.apply_returns`): each element of a gradient receives, for every operand that the
tensor is, in argument order, the gradients of the results' elements that came from it there
(`receipts`), and nothing else.

What a replay adds is a list of amounts for each tensor (`Store.Settles`). Seen from one element,
the amounts that reach it are added one after the other (`Tensor.element_settled`), so the sum is
told in the very order in which it is taken.
-/

namespace LayerNet

/-! ## One element of a gradient -/

namespace Tensor

variable {t : Tensor}

theorem element_plus {d : Delta} (fits : d.Fits t.toContent)
    (sized : t.gradientOrZeros.size = t.count) {j : Nat} (small : j < t.count) :
    (t.plus d).gradientOrZeros.element j
      = (d.reaching j).foldl (· + ·) (t.gradientOrZeros.element j) := by
  cases d with
  | whole amounts =>
    have size : amounts.size = t.count := fits
    show (Buffer.combine (· + ·) t.gradientOrZeros amounts).element j
      = t.gradientOrZeros.element j + amounts.element j
    simp [Buffer.combine, Buffer.element, small, sized, size]
  | sparse amounts => exact Buffer.element_addAll (sized ▸ small) amounts

/-- Amounts that fit reach an element one after the other; an allocation changes nothing. -/
theorem element_settled {amounts : List Delta} (fits : ∀ d ∈ amounts, d.Fits t.toContent)
    (sized : t.gradientOrZeros.size = t.count) (allocates : Bool) {j : Nat} (small : j < t.count) :
    (settled allocates amounts t).gradientOrZeros.element j
      = (amounts.flatMap (Delta.reaching j)).foldl (· + ·) (t.gradientOrZeros.element j) := by
  have all : (amounts.foldl plus t).gradientOrZeros.element j
      = (amounts.flatMap (Delta.reaching j)).foldl (· + ·) (t.gradientOrZeros.element j) := by
    clear allocates
    induction amounts generalizing t with
    | nil => rfl
    | cons d amounts ih =>
      obtain ⟨first, fits⟩ := List.forall_mem_cons.mp fits
      have next := size_foldl_plus (List.forall_mem_singleton.mpr first) sized
      rw [List.foldl_cons, List.flatMap_cons, List.foldl_append, ← element_plus first sized small]
      exact ih fits next small
  cases allocates <;> exact all

end Tensor

/-- What an element of a tensor receives: for every operand that the tensor is, in argument order,
what its place there gets back. -/
def receipts (operands : List TensorId) (back : Nat × Nat → List Float32) (id : TensorId)
    (j : Nat) : List Float32 :=
  operands.zipIdx.flatMap fun (operand, q) => if operand = id then back (q, j) else []

/-- In the second store amounts are added to the elements of a tensor's gradient, one after the
other. -/
def Store.Gains (before after : Store) (id : TensorId) (amounts : Nat → List Float32) : Prop :=
  ∀ t t', before.get? id = some t → after.get? id = some t' → ∀ j < t.count,
    t'.gradientOrZeros.element j = (amounts j).foldl (· + ·) (t.gradientOrZeros.element j)

/-- The second store has the tensors of the first, with the contents that they had, and each gains
its amounts. -/
structure Store.Receives (before after : Store) (amounts : TensorId → Nat → List Float32) :
    Prop where
  size : after.tensors.size = before.tensors.size
  contents : ∀ id, after.content? id = before.content? id
  gradients : ∀ id, before.Gains after id (amounts id)

/-- A tensor that received amounts is there with its content. -/
theorem Store.Receives.tensor {before after : Store} {amounts : TensorId → Nat → List Float32}
    (receives : before.Receives after amounts) {id : TensorId} {t : Tensor}
    (there : before.get? id = some t) :
    ∃ t', after.get? id = some t' ∧ t'.toContent = t.toContent := by
  have same := receives.contents id
  rw [content?_of_get? there] at same
  exact Option.map_eq_some_iff.mp same

/-- The gradients of tensors, zeros where none is allocated. -/
def Store.gradients (s : Store) (ids : List TensorId) : List Buffer :=
  ids.map fun id => ((s.get? id).map Tensor.gradientOrZeros).getD #[]

namespace Session

/-- The amounts for one element, told by operand. -/
theorem flatMap_reaching {operands : List TensorId} {deltas : List Delta} {id : TensorId} {j : Nat}
    {back : Nat × Nat → List Float32} (length : deltas.length = operands.length)
    (each : ∀ q d, operands[q]? = some id → deltas[q]? = some d → d.reaching j = back (q, j)) :
    (amountsTo id (operands.zip deltas)).flatMap (Delta.reaching j)
      = receipts operands back id j := by
  have counted (k : Nat) (each : ∀ q d, operands[q]? = some id → deltas[q]? = some d →
      d.reaching j = back (q + k, j)) :
      (amountsTo id (operands.zip deltas)).flatMap (Delta.reaching j)
        = (operands.zipIdx k).flatMap fun (operand, q) =>
          if operand = id then back (q, j) else [] := by
    clear * - length each
    induction operands generalizing deltas k with
    | nil => rfl
    | cons operand operands ih =>
      obtain ⟨d, deltas, rfl⟩ := List.exists_cons_of_length_eq_add_one length
      have rest := ih (Nat.succ.inj length) (k + 1) fun q d' there there' => by
        rw [each (q + 1) d' there there', Nat.add_assoc, Nat.add_comm 1]
      rw [List.zip_cons_cons, List.zipIdx_cons, List.flatMap_cons, ← rest, amountsTo_cons]
      dsimp only
      by_cases here : operand = id
      · rw [if_pos here, if_pos here, List.flatMap_cons, each 0 d (congrArg some here) rfl,
          Nat.zero_add]
      · rw [if_neg here, if_neg here, List.nil_append]
  exact counted 0 each

/-- An entry whose rule answers is replayed: every tensor is settled with amounts that are back at
the operands. -/
theorem replay_answers {s : Store} (wf : s.WellFormed) {e : Entry}
    (fresh : ∀ i ∈ e.inputs, ∀ o ∈ e.outputs, i.index < o.index) {inputs outputs : List Content}
    (into : List.Forall₂ (fun id c => s.content? id = some c) e.inputs inputs)
    (out : List.Forall₂ (fun id c => s.content? id = some c) e.outputs outputs)
    {back : List Buffer → Nat × Nat → List Float32} (answers : e.rule.Answers inputs outputs back) :
    ∃ deltas s', replay s e = .ok s' ∧ deltas.length = e.inputs.length
      ∧ s.Settles s' (fun id => e.outputs.contains id) (e.inputs.zip deltas)
      ∧ ∀ a ∈ places (inputs.map Content.count), ∀ d, deltas[a.1]? = some d →
        d.reaching a.2 = back (s.gradients e.outputs) a := by
  have sound : e.Sound s := ⟨fresh, inputs, outputs, into, out, fun gradients sizes => by
    obtain ⟨deltas, answer, fit, -⟩ := answers gradients sizes
    exact ⟨deltas, answer, fit⟩⟩
  obtain ⟨gradients, grads, sizes⟩ := forall₂_gradients wf out
  obtain ⟨deltas, answer, fit, back⟩ := answers gradients sizes
  obtain ⟨shown, deltas', s', see, answer', length, run, settles⟩ := replay_spec wf sound
  cases see.symm.trans (seen_eq_ok into out grads)
  cases answer.symm.trans answer'
  have same : s.gradients e.outputs = gradients := by
    rw [Store.gradients, ← List.forall₂_eq_eq_eq, List.forall₂_map_left_iff]
    refine grads.imp fun id g grad => ?_
    rw [grad]
    rfl
  rw [same]
  exact ⟨deltas, s', run, length, settles, back⟩

/-- An entry whose rule answers is replayed, and every element receives what is back at its
place. -/
theorem replay_gains {s : Store} (wf : s.WellFormed) {e : Entry}
    (fresh : ∀ i ∈ e.inputs, ∀ o ∈ e.outputs, i.index < o.index) {inputs outputs : List Content}
    (into : List.Forall₂ (fun id c => s.content? id = some c) e.inputs inputs)
    (out : List.Forall₂ (fun id c => s.content? id = some c) e.outputs outputs)
    {back : List Buffer → Nat × Nat → List Float32} (answers : e.rule.Answers inputs outputs back) :
    ∃ s', replay s e = .ok s' ∧ s'.WellFormed
      ∧ s.Receives s' (receipts e.inputs (back (s.gradients e.outputs))) := by
  obtain ⟨deltas, s', run, length, settles, back⟩ := replay_answers wf fresh into out answers
  refine ⟨s', run, settles.wellFormed wf, settles.size, settles.content?_eq, ?_⟩
  intro id t t' there there' j small
  rw [settles.tensors, there, Option.map_some, Option.some_inj] at there'
  subst there'
  have sized := Tensor.size_gradientOrZeros (wf.gradients id t there)
  rw [Tensor.element_settled (settles.fits id t there) sized _ small]
  rw [flatMap_reaching length fun q d operand delta => ?_]
  obtain ⟨c, content, there'⟩ := exists_rel_of_getElem? into operand
  have count : c.count = t.count := by
    rw [Store.content?_of_get? there] at there'
    rw [← Option.some.inj there']
  refine back (q, j) (mem_places.mpr ⟨c.count, ?_, count ▸ small⟩) d delta
  rw [List.getElem?_map, content]
  rfl

/-- An entry whose rule returns along a route is replayed, and every element receives what it gets
back. -/
theorem replay_receives {s : Store} (wf : s.WellFormed) {e : Entry}
    (fresh : ∀ i ∈ e.inputs, ∀ o ∈ e.outputs, i.index < o.index) {inputs outputs : List Content}
    (into : List.Forall₂ (fun id c => s.content? id = some c) e.inputs inputs)
    (out : List.Forall₂ (fun id c => s.content? id = some c) e.outputs outputs)
    {route : Nat × Nat → Nat × Nat} (returns : e.rule.Returns inputs outputs route) :
    ∃ s', replay s e = .ok s' ∧ s'.WellFormed ∧ s.Receives s' (receipts e.inputs
      (returned (places (outputs.map Content.count)) route (s.gradients e.outputs))) :=
  replay_gains wf fresh into out returns.answers

end Session

/-- The tensors are there, with contents that stand for those they had. -/
def Store.StandsFor (shaped : Bool) (new old : Store) (ids : List TensorId) : Prop :=
  ∀ id ∈ ids, ∀ c, old.content? id = some c →
    ∃ c', new.content? id = some c' ∧ c'.StandsFor shaped c

theorem Store.StandsFor.exists_contents {shaped : Bool} {new old : Store} {ids : List TensorId}
    (stands : new.StandsFor shaped old ids) {contents : List Content}
    (there : List.Forall₂ (fun id c => old.content? id = some c) ids contents) :
    ∃ contents', List.Forall₂ (fun id c => new.content? id = some c) ids contents'
      ∧ List.Forall₂ (Content.StandsFor shaped) contents' contents := by
  have each : List.Forall₂ (fun id c => ∃ c', new.content? id = some c'
      ∧ c'.StandsFor shaped c) ids contents :=
    forall₂_imp_of_mem there fun id member c content => stands id member c content
  obtain ⟨contents', new, stand⟩ := exists_between each
  exact ⟨contents', new, stand.flip⟩

namespace Session

/-- An operation that only moves elements leaves an entry that moves the gradients back. There is a
route from the elements of all results together to elements of the operands, no two to the same, and
each has the value of the one it leads to. Whenever the entry is replayed, whatever values and
gradients there are by then and, a slice apart, whatever shapes, every element of a gradient
receives the gradients of the results' elements that came from it, operand by operand, and no other
amount. -/
theorem apply_returns {m m' : Machine} {op : Operation TensorId} {ids : List TensorId}
    (wf : m.store.WellFormed) (moves : op.moves = true) (run : (apply op).run m = (.ok ids, m')) :
    ∃ (entry : Entry) (inputs outputs : List Content) (route : Nat × Nat → Nat × Nat),
      m'.session.trace = m.session.trace.push entry
        ∧ entry.inputs = op.operands ∧ entry.outputs = ids ∧ (∀ id ∈ ids, id ∉ op.operands)
        ∧ List.Forall₂ (fun id c => m'.store.content? id = some c) op.operands inputs
        ∧ List.Forall₂ (fun id c => m'.store.content? id = some c) ids outputs
        ∧ Routes inputs outputs route
        ∧ ∀ s : Store, s.WellFormed → s.StandsFor op.isSlice m'.store (op.operands ++ ids) →
          ∃ s', replay s entry = .ok s' ∧ s.Receives s' (receipts op.operands
            (returned (places (outputs.map Content.count)) route (s.gradients ids))) := by
  rcases run_apply op m with ⟨failure, failed⟩ | ⟨computed, ids', store, there, success, adds, ran⟩
  · rw [failed] at run
    cases run
  rw [ran] at run
  cases run
  have into := operands_operandsOf there
  have fresh : ∀ i ∈ op.operands, ∀ o ∈ ids, i.index < o.index := by
    intro i operand o result
    obtain ⟨c, content⟩ := there i operand
    obtain ⟨t, tensor, -⟩ := Option.map_eq_some_iff.mp content
    exact Nat.lt_of_lt_of_le (Store.index_lt_of_get? tensor) (adds.new o result)
  have moves' : (operandsOf m.store op).moves = true := by
    rw [operandsOf, Operation.moves_map]
    exact moves
  obtain ⟨route, routed⟩ := Operation.compute_routed moves' (wellFormed_operands wf there) success
  refine ⟨_, _, _, route, rfl, rfl, rfl, ?_, into.imp fun id c => adds.keeps id c, adds.added,
    routed.toRoutes, fun s wf' stands => ?_⟩
  · exact fun id result operand => Nat.lt_irrefl _ (fresh id operand id result)
  · obtain ⟨inputs', into', stand⟩ := Store.StandsFor.exists_contents
      (fun id member => stands id (List.mem_append_left _ member))
      (into.imp fun id c => adds.keeps id c)
    obtain ⟨outputs', out', stand'⟩ := Store.StandsFor.exists_contents
      (fun id member => stands id (List.mem_append_right _ member)) adds.added
    rw [← Operation.isSlice_map (fun id => (m.store.content? id).getD default) op] at stand stand'
    obtain ⟨s', replayed, -, receives⟩ :=
      replay_receives (e := ⟨op.name, op.operands, ids, computed.rule⟩) wf' fresh into' out'
        (routed.returns inputs' outputs' stand stand')
    rw [Content.StandsFor.counts stand'] at receives
    exact ⟨s', replayed, receives⟩

/-- A machine with one tensor, of the elements one and two. -/
def ofPair : Machine :=
  { Machine.fresh with store := (Machine.fresh.store.add ⟨[2], [1], #[1, 2]⟩ none).2 }

theorem make_pair : Content.make #[1, 2] [2] = .ok ⟨[2], [1], #[1, 2]⟩ := by
  have valid : Shape.validate [2] = .ok () := (Shape.validate_eq_ok_iff _).mpr (by decide)
  have finite : Buffer.nonFinite? #[1, 2] = none := by decide +kernel
  unfold Content.make
  rw [valid, finite]
  rfl

theorem sound_ofPair : ofPair.Sound :=
  (Machine.sound_of_fresh (m := .fresh) Store.wellFormed_empty rfl rfl).create make_pair none

theorem run_concat_ofPair : ∃ m, (apply (.concat [⟨0⟩, ⟨0⟩] 0)).run ofPair = (.ok [⟨1⟩], m) := by
  have joins : ((apply (.concat [⟨0⟩, ⟨0⟩] 0)).run ofPair).1.toOption.any (· = [⟨1⟩]) = true := by
    decide +kernel
  obtain ⟨ids, ran, same⟩ := except_exists_of_any joins
  obtain rfl := of_decide_eq_true same
  exact ⟨_, Prod.ext ran rfl⟩

/-- A tensor joined with itself. -/
theorem apply_returns_twice : ∃ m entry s',
    (apply (.concat [⟨0⟩, ⟨0⟩] 0)).run ofPair = (.ok [⟨1⟩], m)
    ∧ m.session.trace = #[entry] ∧ entry.inputs = [⟨0⟩, ⟨0⟩] ∧ entry.outputs = [⟨1⟩]
    ∧ replay m.store entry = .ok s' := by
  obtain ⟨m, run⟩ := run_concat_ofPair
  have wf : m.store.WellFormed := by
    have sound := (sound_ofPair.apply (.concat [⟨0⟩, ⟨0⟩] 0)).store
    rwa [run] at sound
  obtain ⟨entry, inputs, outputs, route, recorded, into, out, -, -, -, -, replays⟩ :=
    apply_returns sound_ofPair.store rfl run
  obtain ⟨s', replayed, -⟩ := replays _ wf fun id _ c there =>
    ⟨c, there, wf.content there, rfl, fun _ => rfl⟩
  exact ⟨m, entry, s', run, recorded, into, out, replayed⟩

end Session

end LayerNet
