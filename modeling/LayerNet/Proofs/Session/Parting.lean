import LayerNet.Proofs.Operation.Parting
import LayerNet.Proofs.Session.Abreast
import LayerNet.Proofs.Session.Returns
import LayerNet.Proofs.Store.Regular

/-!
# Parting in a session — there and back

A joining and the split into the lengths there were, or a split and the joining of its parts, leave
the contents there were (`Session.RoundTrip`), and two entries. Replayed, the later one first, these
hand the gradient of each element of the last results to the element of the first operands that has
its value (`Session.HandsBack`, `Session.parting_roundTrips`).

The gradient comes by way of the results in between. They were zero before, so it arrives added to
zero, which is where zero has to be neutral: in single precision it is, but for the sign of zero.
-/

namespace LayerNet

/-! ## What operands receive -/

theorem receipts_congr {operands : List TensorId} {back back' : Nat × Nat → List Float32}
    {id : TensorId} {j : Nat} (same : ∀ q, operands[q]? = some id → back (q, j) = back' (q, j)) :
    receipts operands back id j = receipts operands back' id j := by
  refine List.flatMap_congr fun ⟨operand, q⟩ member => ?_
  rw [List.mk_mem_zipIdx_iff_getElem?] at member
  dsimp only
  split
  next here => exact same q (here ▸ member)
  · rfl

theorem flatMap_zipIdx_of_not_mem {operands : List TensorId} {id : TensorId}
    (absent : id ∉ operands) (f : Nat → List Float32) (k : Nat) :
    ((operands.zipIdx k).flatMap fun (operand, q) => if operand = id then f q else []) = [] := by
  refine List.flatMap_eq_nil_iff.mpr fun ⟨operand, q⟩ member => if_neg fun here => absent ?_
  exact here ▸ List.fst_mem_of_mem_zipIdx member

theorem receipts_of_not_mem {operands : List TensorId} {back : Nat × Nat → List Float32}
    {id : TensorId} (absent : id ∉ operands) (j : Nat) : receipts operands back id j = [] :=
  flatMap_zipIdx_of_not_mem absent (fun q => back (q, j)) 0

/-- A tensor that is one operand only receives what that one gets back. -/
theorem receipts_of_nodup {operands : List TensorId} (distinct : operands.Nodup)
    {back : Nat × Nat → List Float32} {id : TensorId} {p : Nat} (there : operands[p]? = some id)
    (j : Nat) : receipts operands back id j = back (p, j) := by
  have counted (k : Nat) : ((operands.zipIdx k).flatMap fun (operand, q) =>
      if operand = id then back (q, j) else []) = back (p + k, j) := by
    induction operands generalizing p k with
    | nil => cases there
    | cons operand operands ih =>
      obtain ⟨fresh, distinct⟩ := List.nodup_cons.mp distinct
      rw [List.zipIdx_cons, List.flatMap_cons]
      dsimp only
      cases p with
      | zero =>
        cases there
        rw [if_pos rfl, flatMap_zipIdx_of_not_mem fresh (fun q => back (q, j)), List.append_nil,
          Nat.zero_add]
      | succ p =>
        have other : operand ≠ id := fun same => fresh (same ▸ List.mem_of_getElem? there)
        rw [if_neg other, List.nil_append, ih distinct there (k + 1), Nat.add_assoc, Nat.add_comm 1]
  exact counted 0

namespace Session

/-- The gradients of these tensors are zero. -/
def Unseeded (s : Store) (ids : List TensorId) : Prop :=
  ∀ id ∈ ids, ∀ t, s.get? id = some t → t.gradientOrZeros = Buffer.zeros t.count

/-- What distinct tensors whose gradients were zero have received is there, on top of zero. -/
theorem fetch_received {s s' : Store} {ids : List TensorId} {contents : List Content}
    {back : Nat × Nat → List Float32} (receives : s.Receives s' (receipts ids back))
    (distinct : ids.Nodup) (there : List.Forall₂ (fun id c => s.content? id = some c) ids contents)
    (unseeded : Unseeded s ids) {a : Nat × Nat} (inside : a ∈ places (contents.map Content.count)) :
    Routing.fetch (s'.gradients ids) a = (back a).foldl (· + ·) 0 := by
  obtain ⟨p, i⟩ := a
  obtain ⟨count, found, small⟩ := mem_places.mp inside
  rw [List.getElem?_map, Option.map_eq_some_iff] at found
  obtain ⟨c, found, rfl⟩ := found
  obtain ⟨id, here, content⟩ := exists_rel_of_getElem? there.flip found
  obtain ⟨t, tensor, rfl⟩ := Option.map_eq_some_iff.mp content
  obtain ⟨t', tensor', -⟩ := receives.tensor tensor
  have gains := receives.gradients id t t' tensor tensor' i small
  rw [receipts_of_nodup distinct here, unseeded id (List.mem_of_getElem? here) t tensor,
    Buffer.element_zeros] at gains
  rw [Routing.fetch, Store.gradients, List.getD_eq_getElem?_getD, List.getElem?_map, here,
    Option.map_some, tensor']
  exact gains

/-- Two entries, replayed the later one first, take every gradient back to where the value came
from: whenever they are replayed with gradients of zero in between, each tensor that is not in
between receives, for every operand of the earlier entry that it is, the gradient of the
corresponding result of the later one, by way of zero, and no other amount. Where zero is neutral
for these gradients, that is each gradient itself. -/
def HandsBack (made : Store) (earlier later : Entry) : Prop :=
  ∀ s : Store, s.WellFormed →
    s.StandsFor false made (earlier.inputs ++ earlier.outputs ++ later.outputs) →
    Unseeded s earlier.outputs →
    ∃ s', [later, earlier].foldlM replay s = .ok s' ∧ (∀ id, s'.content? id = s.content? id)
      ∧ (∀ id ∉ earlier.outputs, s.Gains s' id (receipts earlier.inputs
        (fun a => [0 + Routing.fetch (s.gradients later.outputs) a]) id))
      ∧ ((∀ a, 0 + Routing.fetch (s.gradients later.outputs) a
          = Routing.fetch (s.gradients later.outputs) a) →
        ∀ id ∉ earlier.outputs, s.Gains s' id (receipts earlier.inputs
          (fun a => [Routing.fetch (s.gradients later.outputs) a]) id))

/-- Entries whose rules are a routing and the routing backwards hand all gradients back. -/
theorem handsBack_of_exact {made : Store} {earlier later : Entry} {r : Routing}
    {inputs mids results : List Content} (forward : earlier.rule = r.rule)
    (backward : later.rule = r.reverse.rule) (joint : later.inputs = earlier.outputs)
    (distinct : earlier.outputs.Nodup)
    (fresh : ∀ i ∈ earlier.inputs, ∀ o ∈ earlier.outputs, i.index < o.index)
    (fresh' : ∀ i ∈ later.inputs, ∀ o ∈ later.outputs, i.index < o.index)
    (into : List.Forall₂ (fun id c => made.content? id = some c) earlier.inputs inputs)
    (between : List.Forall₂ (fun id c => made.content? id = some c) earlier.outputs mids)
    (out : List.Forall₂ (fun id c => made.content? id = some c) later.outputs results)
    (exact : r.Exact (inputs.map Content.count) (mids.map Content.count))
    (counts : results.map Content.count = inputs.map Content.count) :
    HandsBack made earlier later := by
  intro s wf stands unseeded
  obtain ⟨inputs, into, stand⟩ := Store.StandsFor.exists_contents
    (fun id member => stands id (by simp [member])) into
  obtain ⟨mids, between, stand'⟩ := Store.StandsFor.exists_contents
    (fun id member => stands id (by simp [member])) between
  obtain ⟨results, out, stand''⟩ := Store.StandsFor.exists_contents
    (fun id member => stands id (by simp [member])) out
  rw [← Content.StandsFor.counts stand, ← Content.StandsFor.counts stand'] at exact
  rw [← Content.StandsFor.counts stand, ← Content.StandsFor.counts stand''] at counts
  clear stand stand' stand'' stands
  -- the later entry, whose operands are what lies in between
  have back : r.reverse.Exact (mids.map Content.count) (results.map Content.count) :=
    counts ▸ exact.reverse
  obtain ⟨s₁, first, wf₁, receives₁⟩ := replay_receives wf fresh' (joint ▸ between) out
    (backward ▸ back.returns)
  rw [joint] at receives₁
  obtain ⟨s₂, second, -, receives₂⟩ := replay_receives wf₁ fresh
    (into.imp fun id c there => (receives₁.contents id).trans there)
    (between.imp fun id c there => (receives₁.contents id).trans there) (forward ▸ exact.returns)
  -- what lies in between has received one gradient for each element, on top of zero
  have arrives (b : Nat × Nat) (inside : b ∈ places (mids.map Content.count)) :
      Routing.fetch (s₁.gradients earlier.outputs) b
        = 0 + Routing.fetch (s.gradients later.outputs) (r.origin b) := by
    rw [fetch_received receives₁ distinct between unseeded inside, back.returned_eq _ inside]
    rfl
  have run : [later, earlier].foldlM replay s = .ok s₂ := by
    rw [List.foldlM_cons, first]
    exact (List.foldlM_cons ..).trans (congrArg (· >>= _) second)
  suffices gains : ∀ id ∉ earlier.outputs, s.Gains s₂ id (receipts earlier.inputs
      (fun a => [0 + Routing.fetch (s.gradients later.outputs) a]) id) from
    ⟨s₂, run, fun id => (receives₂.contents id).trans (receives₁.contents id), gains,
      fun neutral => by simpa only [neutral] using gains⟩
  intro id outside t t'' there there'' j small
  obtain ⟨t', there', content⟩ := receives₁.tensor there
  have count : t'.count = t.count := congrArg Content.count content
  have same := receives₁.gradients id t t' there there' j small
  rw [receipts_of_not_mem outside] at same
  have gains := receives₂.gradients id t' t'' there' there'' j (count ▸ small)
  rw [same] at gains
  refine gains.trans (congrArg (List.foldl _ _) (receipts_congr fun q operand => ?_))
  have place : (q, j) ∈ places (inputs.map Content.count) := by
    obtain ⟨c, found, content⟩ := exists_rel_of_getElem? into operand
    rw [Store.content?_of_get? there, Option.some_inj] at content
    refine mem_places.mpr ⟨t.count, ?_, small⟩
    rw [List.getElem?_map, found, ← content]
    rfl
  obtain ⟨inside, here⟩ := exact.goal _ place
  rw [exact.returned_eq _ place, arrives _ inside, here]

/-- Between two machines an operation was recorded and another that undid it: the last results have
the contents of the first operands, and the two entries hand their gradients back. -/
structure RoundTrip (before : Machine) (operands : List TensorId) (contents : List Content)
    (between results : List TensorId) (after : Machine) : Prop where
  originals : List.Forall₂ (fun id c => before.store.content? id = some c) operands contents
  recovered : List.Forall₂ (fun id c => after.store.content? id = some c) results contents
  replays : ∃ earlier later, after.session.trace = (before.session.trace.push earlier).push later
    ∧ earlier.inputs = operands ∧ earlier.outputs = between ∧ later.outputs = results
    ∧ HandsBack after.store earlier later

/-- An operation that moves elements and one after it that moves them back are a round trip. -/
theorem exists_roundTrip {m : Machine} (recording : m.session.finalized = false)
    {op : Operation TensorId} (there : ∀ id ∈ op.operands, ∃ c, m.store.content? id = some c)
    {computed : Computed} (success : (operandsOf m.store op).compute = .ok computed) {r : Routing}
    (moved : computed.MovedBy r (operandsOf m.store op).operands)
    (op' : List TensorId → Operation TensorId)
    (undoes : ∀ (s : Store) (ids : List TensorId),
      List.Forall₂ (fun id c => s.content? id = some c) ids computed.outputs →
      (op' ids).operands = ids ∧ ∃ computed', (operandsOf s (op' ids)).compute = .ok computed'
        ∧ computed'.outputs = (operandsOf m.store op).operands
        ∧ computed'.MovedBy r.reverse computed.outputs) :
    ∃ between m₁ results m₂, (apply op).run m = (.ok between, m₁)
      ∧ (apply (op' between)).run m₁ = (.ok results, m₂)
      ∧ between.length = computed.outputs.length
      ∧ RoundTrip m op.operands (operandsOf m.store op).operands between results m₂ := by
  obtain ⟨between, store, adds, run⟩ := run_apply_of_ok recording there success
  obtain ⟨joint, computed', success', same, moved'⟩ := undoes store between adds.added
  have into := operands_operandsOf there
  rw [run]
  generalize middle : ({ m with
    store := store
    session := { m.session with
      trace := m.session.trace.push ⟨op.name, op.operands, between, computed.rule⟩ }
  } : Machine) = m₁
  have recording' : m₁.session.finalized = false := by rw [← middle]; exact recording
  have stored : m₁.store = store := by rw [← middle]
  have there' : ∀ id ∈ (op' between).operands, ∃ c, m₁.store.content? id = some c := by
    intro id member
    rw [joint] at member
    rw [stored]
    exact (exists_rel_of_mem adds.added.flip member).imp fun _ found => found.2
  obtain ⟨results, store', adds', run'⟩ := run_apply_of_ok recording' there' (stored ▸ success')
  refine ⟨between, m₁, results, _, rfl, run', adds.added.length_eq, into, same ▸ adds'.added, ?_⟩
  subst middle
  refine ⟨_, _, rfl, rfl, rfl, rfl, ?_⟩
  refine handsBack_of_exact moved.rule moved'.rule joint adds.distinct ?_ ?_
    (into.imp fun id c content => adds'.keeps id c (adds.keeps id c content))
    (adds.added.imp fun id c content => adds'.keeps id c content) adds'.added moved.exact
    (congrArg _ same)
  · intro i operand o result
    exact Nat.lt_of_lt_of_le (Store.index_lt_of_contents into operand) (adds.new o result)
  · intro i operand o result
    rw [joint] at operand
    exact Nat.lt_of_lt_of_le (Store.index_lt_of_contents adds.added operand) (adds'.new o result)

/-- A joining that succeeds can be undone: the split into the lengths that the operands have along
the axis succeeds too, and the two are a round trip. -/
theorem split_after_concat {m m₁ : Machine} (regular : m.store.Regular) {xs ids : List TensorId}
    {axis : Int} (run : (apply (.concat xs axis)).run m = (.ok ids, m₁)) :
    ∃ (a : Nat) (whole : TensorId) (contents : List Content) (parts : List TensorId) (m₂ : Machine),
      axis = a ∧ ids = [whole]
        ∧ (apply (.split whole a (.sizes (contents.map fun c => c.shape.extent a)))).run m₁
          = (.ok parts, m₂)
        ∧ RoundTrip m xs contents [whole] parts m₂ := by
  have recording := (of_run_apply run).1
  rcases run_apply (.concat xs axis) m with
    ⟨failure, failed⟩ | ⟨computed, -, -, there, success, -, -⟩
  · rw [failed] at run
    cases run
  obtain ⟨a, content, l, computed', rfl, outputs, moved, success', same, moved'⟩ :=
    Content.split_concat (wellFormed_operands regular.wellFormed there) success
  obtain ⟨between, m₁', parts, m₂, run', undone, length, trip⟩ :=
    exists_roundTrip recording there success moved (fun ids =>
      .split (ids.headD default) a (.sizes ((operandsOf m.store (.concat xs a)).operands.map
        fun c => c.shape.extent a))) fun s ids added => by
    rw [outputs] at added
    rcases added with _ | ⟨here, _ | _⟩
    refine ⟨rfl, computed', ?_, same, outputs ▸ moved'⟩
    show Content.split ((s.content? (List.headD [_] default)).getD default) _ _ = _
    rw [List.headD_cons, operand_of_content? here]
    exact success'
  cases run.symm.trans run'
  rw [outputs] at length
  obtain ⟨whole, rfl⟩ := List.length_eq_one_iff.mp length
  exact ⟨a, whole, _, parts, m₂, rfl, rfl, undone, trip⟩

/-- A tensor split along an axis, into any parts that take up its length, is joined again, and the
two are a round trip, unless an element is not finite. -/
theorem concat_after_split {m : Machine} (regular : m.store.Regular)
    (recording : m.session.finalized = false) {x : TensorId} {c : Content}
    (there : m.store.content? x = some c) {axis : Nat} (inside : axis < c.shape.rank)
    {partition : Partition}
    (admits : partition.Admits (c.shape.extent axis)) :
    (c.values.nonFinite? ≠ none
        ∧ (apply (.split x axis partition)).run m = (Outcome.stop .nonFinite, m))
      ∨ ∃ (parts : List TensorId) (m₁ : Machine) (whole : TensorId) (m₂ : Machine),
        (apply (.split x axis partition)).run m = (.ok parts, m₁)
          ∧ (apply (.concat parts axis)).run m₁ = (.ok [whole], m₂)
          ∧ RoundTrip m [x] [c] parts [whole] m₂ := by
  obtain ⟨wf, small⟩ := Content.regular_iff.mp (regular.content there)
  have there' : ∀ id ∈ (Operation.split x axis partition).operands,
      ∃ c, m.store.content? id = some c :=
    fun id member => ⟨c, List.mem_singleton.mp member ▸ there⟩
  have operand : operandsOf m.store (.split x axis partition) = .split c axis partition := by
    show Operation.split ((m.store.content? x).getD default) _ _ = _
    rw [operand_of_content? there]
  rcases Content.concat_split wf small inside admits with
    ⟨ended, infinite⟩ | ⟨l, computed, computed', success, moved, success', same, moved'⟩
  · exact .inl ⟨infinite, run_apply_of_error recording there' (operand ▸ ended)⟩
  · have computes : (operandsOf m.store (.split x axis partition)).compute = .ok computed := by
      rw [operand]
      exact success
    have moves : computed.MovedBy l.parting
        (operandsOf m.store (.split x axis partition)).operands := by
      rw [operand]
      exact moved
    obtain ⟨parts, m₁, results, m₂, run, undone, -, trip⟩ :=
      exists_roundTrip recording there' computes moves (.concat · axis) fun s ids added => by
      refine ⟨rfl, computed', ?_, by rw [operand]; exact same, moved'⟩
      show Content.concat (ids.map fun id => (s.content? id).getD default) _ = _
      rw [map_content? added]
      exact success'
    rw [operand] at trip
    obtain ⟨whole, rfl⟩ := List.length_eq_one_iff.mp trip.recovered.length_eq
    exact .inr ⟨parts, m₁, whole, m₂, run, undone, trip⟩

/-- Splitting and joining undo each other. A joining that succeeds is undone by the split into the
lengths that its operands have along the axis, and a split into any parts that take up the length of
an axis is undone by the joining of its parts. Either way the contents are those there were, and
replayed, the two entries hand the gradient of each element back to where its value came from. A
split is stopped only by elements that are not finite, which no tensor is created with. -/
theorem parting_roundTrips {m : Machine} (regular : m.store.Regular) :
    (∀ (xs ids : List TensorId) (axis : Int) (m₁ : Machine),
      (apply (.concat xs axis)).run m = (.ok ids, m₁) →
      ∃ (a : Nat) (whole : TensorId) (contents : List Content) (parts : List TensorId)
        (m₂ : Machine), axis = a ∧ ids = [whole]
          ∧ (apply (.split whole a (.sizes (contents.map fun c => c.shape.extent a)))).run m₁
            = (.ok parts, m₂)
          ∧ RoundTrip m xs contents [whole] parts m₂)
    ∧ ∀ (x : TensorId) (c : Content) (axis : Nat) (partition : Partition),
      m.session.finalized = false → m.store.content? x = some c →
      axis < c.shape.rank → partition.Admits (c.shape.extent axis) →
      (c.values.nonFinite? ≠ none
          ∧ (apply (.split x axis partition)).run m = (Outcome.stop .nonFinite, m))
        ∨ ∃ (parts : List TensorId) (m₁ : Machine) (whole : TensorId) (m₂ : Machine),
          (apply (.split x axis partition)).run m = (.ok parts, m₁)
            ∧ (apply (.concat parts axis)).run m₁ = (.ok [whole], m₂)
            ∧ RoundTrip m [x] [c] parts [whole] m₂ :=
  ⟨fun _ _ _ _ run => split_after_concat regular run, fun _ _ _ _ recording there inside admits =>
    concat_after_split regular recording there inside admits⟩

/-- A tensor of two elements joined with itself and split again, and split into its elements and
joined again. -/
theorem parting_roundTrips_pair :
    (∃ m₁ parts m₂, (apply (.concat [⟨0⟩, ⟨0⟩] 0)).run ofPair = (.ok [⟨1⟩], m₁)
      ∧ (apply (.split ⟨1⟩ 0 (.sizes [2, 2]))).run m₁ = (.ok parts, m₂)
      ∧ RoundTrip ofPair [⟨0⟩, ⟨0⟩] [⟨[2], [1], #[1, 2]⟩, ⟨[2], [1], #[1, 2]⟩] [⟨1⟩] parts m₂)
    ∧ ∃ parts m₁ whole m₂, (apply (.split ⟨0⟩ 0 (.equal 2))).run ofPair = (.ok parts, m₁)
      ∧ (apply (.concat parts 0)).run m₁ = (.ok [whole], m₂)
      ∧ RoundTrip ofPair [⟨0⟩] [⟨[2], [1], #[1, 2]⟩] parts [whole] m₂ := by
  have regular : ofPair.store.Regular :=
    (Store.Adds.carries (.cons rfl rfl (.refl _)) Store.regular_empty
      (List.forall_mem_singleton.mpr (Content.made_of_make make_pair).regular)).regular
  obtain ⟨joins, splits⟩ := parting_roundTrips regular
  refine ⟨?_, ?_⟩
  · obtain ⟨m₁, run⟩ := run_concat_ofPair
    obtain ⟨a, whole, contents, parts, m₂, axis, whole', undone, trip⟩ := joins _ _ _ _ run
    cases whole'
    obtain rfl : a = 0 := (Int.natCast_eq_zero.mp axis.symm)
    have here : ofPair.store.content? ⟨0⟩ = some ⟨[2], [1], #[1, 2]⟩ := rfl
    obtain ⟨c, contents, first, rest, rfl⟩ := List.forall₂_cons_left_iff.mp trip.originals
    obtain ⟨c', contents, second, last, rfl⟩ := List.forall₂_cons_left_iff.mp rest
    obtain rfl := List.forall₂_nil_left_iff.mp last
    cases here.symm.trans first
    cases here.symm.trans second
    exact ⟨m₁, parts, m₂, run, undone, trip⟩
  · have finite : Buffer.nonFinite? #[1, 2] = none := by decide +kernel
    rcases splits ⟨0⟩ ⟨[2], [1], #[1, 2]⟩ 0 (.equal 2) rfl rfl (by decide)
      ⟨by decide, by decide⟩ with ⟨infinite, -⟩ | parted
    · exact absurd finite infinite
    · exact parted

end Session

end LayerNet
