import LayerNet.Operation.Call
import LayerNet.Proofs.Operation.Exact
import LayerNet.Proofs.Operation.Places
import LayerNet.Proofs.Operation.Shapeless

/-!
# Returns — the way back of an operation that only moves elements

Every element of a result is an element of an operand, which a route tells (`Routes`). On the way
back the rule hands each gradient to the element that it belongs to, once and unchanged: the
amounts that reach a place of the operands are the gradients of the results' places that came from
it (`Rule.Returns`). Nothing else reaches it.

For an exact routing that is one amount for each place, gathered along the routing's other map. For
a slice the places outside the box get none; inside it they are told apart by their coordinates
(`Box.exists_origin`).

A rule is replayed when other values may stand in the tensors, or the same under other shapes. What
it returns holds for any contents that stand for those of the call (`Content.StandsFor`); only a
slice minds the shapes.
-/

namespace LayerNet

/-- The amounts that reach one element of a gradient, in order. -/
def Delta.reaching (j : Nat) : Delta → List Float32
  | .whole amounts => [amounts.element j]
  | .sparse amounts => (amounts.filter fun amount => amount.1 = j).map Prod.snd

/-- What a place of the operands gets back: the gradients of the results' places that came from
it. -/
def returned (results : List (Nat × Nat)) (route : Nat × Nat → Nat × Nat) (gradients : List Buffer)
    (a : Nat × Nat) : List Float32 :=
  (results.filter fun b => route b = a).map (Routing.fetch gradients)

/-- Shown these operands and results, with any gradients of the results' sizes, the rule answers
with amounts that fit the operands, and what reaches a place of theirs depends on the gradients
alone. -/
def Rule.Answers (rule : Rule) (inputs outputs : List Content)
    (back : List Buffer → Nat × Nat → List Float32) : Prop :=
  ∀ gradients : List Buffer, List.Forall₂ (fun g o => g.size = o.count) gradients outputs →
    ∃ deltas, rule ⟨inputs, outputs, gradients⟩ = .ok deltas
      ∧ List.Forall₂ (fun d c => d.Fits c) deltas inputs
      ∧ ∀ a ∈ places (inputs.map Content.count), ∀ d, deltas[a.1]? = some d →
        d.reaching a.2 = back gradients a

/-- Shown these operands and results, with any gradients of the results' sizes, the rule answers
with amounts that fit the operands, and what reaches a place is what it gets back. -/
def Rule.Returns (rule : Rule) (inputs outputs : List Content) (route : Nat × Nat → Nat × Nat) :
    Prop :=
  ∀ gradients : List Buffer, List.Forall₂ (fun g o => g.size = o.count) gradients outputs →
    ∃ deltas, rule ⟨inputs, outputs, gradients⟩ = .ok deltas
      ∧ List.Forall₂ (fun d c => d.Fits c) deltas inputs
      ∧ ∀ a ∈ places (inputs.map Content.count), ∀ d, deltas[a.1]? = some d →
        d.reaching a.2 = returned (places (outputs.map Content.count)) route gradients a

/-- A content of the same size, and of the same shape where that matters. -/
structure Content.StandsFor (shaped : Bool) (new old : Content) : Prop where
  wellFormed : new.WellFormed
  count : new.count = old.count
  shape : shaped = true → new.shape = old.shape

/-- The route tells which element of the operands each element of the results is, no two of them the
same. -/
structure Routes (inputs outputs : List Content) (route : Nat × Nat → Nat × Nat) : Prop where
  inside : ∀ a ∈ places (outputs.map Content.count), route a ∈ places (inputs.map Content.count)
  injective : ∀ a ∈ places (outputs.map Content.count),
    ∀ b ∈ places (outputs.map Content.count), route a = route b → a = b
  values : ∀ a ∈ places (outputs.map Content.count),
    Routing.fetch (outputs.map Content.values) a
      = Routing.fetch (inputs.map Content.values) (route a)

/-- What is computed comes along the route, and on the way back the rule returns along it. -/
structure Computed.Routed (shaped : Bool) (inputs : List Content) (c : Computed)
    (route : Nat × Nat → Nat × Nat) : Prop extends Routes inputs c.outputs route where
  returns : ∀ inputs' outputs', List.Forall₂ (Content.StandsFor shaped) inputs' inputs →
    List.Forall₂ (Content.StandsFor shaped) outputs' c.outputs →
      c.rule.Returns inputs' outputs' route

theorem Rule.Returns.answers {rule : Rule} {inputs outputs : List Content}
    {route : Nat × Nat → Nat × Nat} (returns : rule.Returns inputs outputs route) :
    rule.Answers inputs outputs (returned (places (outputs.map Content.count)) route) := returns

/-- Where results are led to the same places, the same is returned. -/
theorem Rule.Returns.congr {rule : Rule} {inputs outputs : List Content}
    {route route' : Nat × Nat → Nat × Nat} (returns : rule.Returns inputs outputs route)
    (same : ∀ a ∈ places (outputs.map Content.count), route a = route' a) :
    rule.Returns inputs outputs route' := by
  intro gradients sizes
  obtain ⟨deltas, answer, fit, back⟩ := returns gradients sizes
  refine ⟨deltas, answer, fit, fun a member d there => (back a member d there).trans ?_⟩
  unfold returned
  rw [List.filter_congr fun b among => by rw [same b among]]

/-! ## Exact routings -/

theorem Content.StandsFor.counts {shaped : Bool} {new old : List Content}
    (stand : List.Forall₂ (StandsFor shaped) new old) :
    new.map Content.count = old.map Content.count := by
  rw [← List.forall₂_eq_eq_eq, List.forall₂_map_left_iff, List.forall₂_map_right_iff]
  exact stand.imp fun _ _ stands => stands.count

/-- Where one member of a list without repetitions, and no other, passes a test, it alone is
left. -/
theorem filter_eq_singleton {α : Type} {xs : List α} {a : α} {p : α → Bool} (distinct : xs.Nodup)
    (member : a ∈ xs) (only : ∀ b ∈ xs, p b = true ↔ b = a) : xs.filter p = [a] := by
  induction xs with
  | nil => cases member
  | cons x xs ih =>
    obtain ⟨fresh, distinct⟩ := List.nodup_cons.mp distinct
    obtain ⟨first, others⟩ := List.forall_mem_cons.mp only
    by_cases same : x = a
    · subst same
      have none : xs.filter p = [] := by
        refine List.filter_eq_nil_iff.mpr fun b later holds => fresh ?_
        rwa [(others b later).mp holds] at later
      rw [List.filter_cons_of_pos (first.mpr rfl), none]
    · have later := (List.mem_cons.mp member).resolve_left (Ne.symm same)
      rw [List.filter_cons_of_neg (fun holds => same (first.mp holds)), ih distinct later others]

/-- An exact routing returns one gradient to each place: that of the place it went to. -/
theorem Routing.Exact.returned_eq {r : Routing} {operands results : List Nat}
    (exact : r.Exact operands results) (gradients : List Buffer) {a : Nat × Nat}
    (member : a ∈ places operands) :
    returned (places results) r.origin gradients a = [fetch gradients (r.goal a)] := by
  obtain ⟨inside, back⟩ := exact.goal a member
  have one : (places results).filter (fun b => r.origin b = a) = [r.goal a] := by
    refine filter_eq_singleton (nodup_places results) inside fun b among => ?_
    rw [decide_eq_true_eq]
    constructor
    · rintro rfl
      exact (exact.origin b among).2.symm
    · rintro rfl
      exact back
  rw [returned, one, List.map_singleton]

theorem Routing.Exact.returns {r : Routing} {inputs outputs : List Content}
    (exact : r.Exact (inputs.map Content.count) (outputs.map Content.count)) :
    r.rule.Returns inputs outputs r.origin := by
  intro gradients _
  refine ⟨_, rfl, ?_, fun a member d there => ?_⟩
  · have each : List.Forall₂ (fun (entry : Content × Nat) (input : Content) => entry.1 = input)
        inputs.zipIdx inputs := by
      rw [← List.forall₂_map_left_iff (R := fun a b => a = b), List.zipIdx_map_fst,
        List.forall₂_eq_eq_eq]
    rw [List.forall₂_map_left_iff]
    refine each.imp fun entry input same => ?_
    subst same
    exact Buffer.size_tabulate _ _
  · obtain ⟨q, j⟩ := a
    rw [exact.returned_eq gradients member]
    obtain ⟨count, found, small⟩ := mem_places.mp member
    rw [List.getElem?_map, Option.map_eq_some_iff] at found
    obtain ⟨input, found, rfl⟩ := found
    rw [List.getElem?_map, List.getElem?_zipIdx, found] at there
    cases there
    show [Buffer.element (Routing.gather gradients input.count (r.target (0 + q))) j] = _
    rw [gather_eq_tabulate, Buffer.element_tabulate _ small, Nat.zero_add]
    rfl

theorem Computed.MovedBy.routed {r : Routing} {inputs : List Content} {c : Computed}
    (moved : c.MovedBy r inputs) (shaped : Bool) : c.Routed shaped inputs r.origin where
  inside a member := (moved.exact.origin a member).1
  injective a member b member' same := by
    rw [← (moved.exact.origin a member).2, same, (moved.exact.origin b member').2]
  values := moved.values
  returns inputs' outputs' into out := by
    rw [moved.rule]
    refine Routing.Exact.returns ?_
    rw [Content.StandsFor.counts into, Content.StandsFor.counts out]
    exact moved.exact

/-! ## Boxes -/

/-- What reaches an element, of amounts at positions that a function gives. -/
theorem reaching_zip (place : Nat → Nat) (gradient : Buffer) (j : Nat) :
    Delta.reaching j (.sparse (((List.range gradient.size).map place).zip gradient.toList))
      = ((List.range gradient.size).filter fun i => place i = j).map gradient.element := by
  have pairs : ((List.range gradient.size).map place).zip gradient.toList
      = (List.range gradient.size).map fun i => (place i, gradient.element i) := by
    refine List.ext_getElem (by simp) fun i small _ => ?_
    have small : i < gradient.size := by simpa using small
    simp [Buffer.element, small]
  rw [Delta.reaching, pairs, List.filter_map, List.map_map]
  rfl

/-- What a slice gives: the elements of a box, each from a place of its own, and a rule that looks
for these places again. -/
theorem Content.of_slice_eq_ok {x : Content} (wf : x.WellFormed) {offsets sizes : List Nat}
    {c : Computed} (success : x.slice offsets sizes = .ok c) :
    ∃ (output : Content) (place : Nat → Nat), c.outputs = [output] ∧ output.shape = sizes
      ∧ output.values = Buffer.tabulate (List.prod sizes) (fun i => x.values.element (place i))
      ∧ (∀ count, Box.origins offsets x.strides sizes count = .ok ((List.range count).map place))
      ∧ (∀ i, place i < x.count)
      ∧ (∀ i < List.prod sizes, ∀ j < List.prod sizes, place i = place j → i = j)
      ∧ c.rule = fun seen => do
        let origins ← Box.origins offsets (seen.input 0).strides (seen.output 0).shape
          (seen.gradient 0).size
        return [.sparse (origins.zip (seen.gradient 0).toList)] := by
  unfold slice at success
  split at success
  · cases success
  next fits =>
    have fits : Box.fits offsets sizes x.shape = true := by simpa using fits
    obtain ⟨count, elements, success⟩ := Outcome.bind_eq_ok_iff.mp success
    obtain ⟨origins, boxed, success⟩ := Outcome.bind_eq_ok_iff.mp success
    obtain ⟨output, made, success⟩ := Outcome.bind_eq_ok_iff.mp success
    cases success
    obtain ⟨shaped, valued, valid, -⟩ := of_make_eq_ok made
    obtain ⟨place, run, below, distinct⟩ := Box.exists_origin wf fits valid.2
    have listed : origins = (List.range count).map place :=
      Except.ok.inj (boxed.symm.trans (run count))
    rw [Size.product_eq_ok elements] at listed
    refine ⟨output, place, rfl, shaped, ?_, run, below, distinct, rfl⟩
    rw [valued, listed, List.map_map, Buffer.tabulate, ← List.toArray_range, List.map_toArray]
    rfl

/-- A slice returns the gradients of the box to the places it was taken from. -/
theorem Content.slice_routed {x : Content} (wf : x.WellFormed) {offsets sizes : List Nat}
    {c : Computed} (success : x.slice offsets sizes = .ok c) : ∃ place : Nat → Nat,
      (∀ count, Box.origins offsets x.strides sizes count = .ok ((List.range count).map place))
        ∧ c.Routed true [x] fun a => (0, place a.2) := by
  obtain ⟨output, place, outputs, shaped, valued, run, below, distinct, rule⟩ :=
    of_slice_eq_ok wf success
  have size : output.count = List.prod sizes := by rw [count, valued, Buffer.size_tabulate]
  have routes : Routes [x] c.outputs fun a => (0, place a.2) := by
    rw [outputs]
    refine ⟨fun a _ => mem_places_singleton.mpr ⟨rfl, below a.2⟩, fun a member b member' same => ?_,
      fun a member => ?_⟩
    · obtain ⟨first, small⟩ := mem_places_singleton.mp member
      obtain ⟨first', small'⟩ := mem_places_singleton.mp member'
      rw [size] at small small'
      exact Prod.ext (first.trans first'.symm)
        (distinct a.2 small b.2 small' (Prod.mk.inj same).2)
    · obtain ⟨p, i⟩ := a
      obtain ⟨first, small⟩ := mem_places_singleton.mp member
      obtain rfl : p = 0 := first
      rw [Routing.fetch_of_getElem? rfl, Routing.fetch_of_getElem? rfl, valued]
      exact Buffer.element_tabulate _ (size ▸ small)
  refine ⟨place, run, routes, fun inputs' outputs' into out gradients sizes' => ?_⟩
  rw [outputs] at out
  rcases into with _ | @⟨x', _, _, _, stands, ⟨⟩⟩
  rcases out with _ | @⟨output', _, _, _, stands', ⟨⟩⟩
  rcases sizes' with _ | @⟨gradient, _, _, _, size', ⟨⟩⟩
  have strides : x'.strides = x.strides := by
    have shape := stands.wellFormed.strides
    rw [stands.shape rfl, wf.strides] at shape
    exact (Except.ok.inj shape).symm
  have boxed : Box.origins offsets x'.strides output'.shape gradient.size
      = .ok ((List.range gradient.size).map place) := by
    rw [strides, stands'.shape rfl, shaped]
    exact run _
  rw [rule]
  refine ⟨_, congrArg (· >>= _) boxed, .cons ?_ .nil, fun a member d there => ?_⟩
  · intro amount member
    obtain ⟨i, -, here⟩ := List.mem_map.mp (List.of_mem_zip member).1
    rw [← here, stands.count]
    exact below i
  · obtain ⟨q, j⟩ := a
    obtain ⟨first, -⟩ := mem_places_singleton.mp member
    obtain rfl : q = 0 := first
    cases there
    refine (reaching_zip place gradient j).trans ?_
    unfold returned places
    simp [List.filter_map, List.map_map, Function.comp_def, Routing.fetch, size']

/-- What a place gets back, result by result. -/
theorem returned_places {counts : List Nat} {gradients : List Buffer}
    (length : gradients.length = counts.length) (route : Nat → Nat → Nat × Nat) (a : Nat × Nat) :
    returned (places counts) (fun b => route b.1 b.2) gradients a
      = (counts.zip gradients).zipIdx.flatMap fun e =>
        ((List.range e.1.1).filter fun i => route e.2 i = a).map e.1.2.element := by
  have each : places counts = (counts.zip gradients).zipIdx.flatMap fun e =>
      (List.range e.1.1).map (e.2, ·) := by
    have firsts := List.map_fst_zip (Nat.le_of_eq length.symm)
    conv_lhs => rw [← firsts]
    rw [places, List.zipIdx_map, List.flatMap_map]
    rfl
  rw [returned, each, List.filter_flatMap, List.map_flatMap]
  refine List.flatMap_congr fun e member => ?_
  obtain ⟨⟨count, g⟩, p⟩ := e
  rw [List.mk_mem_zipIdx_iff_getElem?, List.getElem?_zip_eq_some] at member
  rw [List.filter_map, List.map_map]
  refine List.map_congr_left fun i _ => ?_
  simp [Routing.fetch, List.getD_eq_getElem?_getD, member.2]

/-! ## Operations -/

/-- Whether an operation only moves elements. -/
def Operation.moves {α : Type} : Operation α → Bool
  | .copy .. | .reshape .. | .squeeze .. | .expand .. | .concat .. | .split .. | .stack ..
  | .unstack .. | .slice .. => true
  | _ => false

theorem Operation.moves_map {α β : Type} (f : α → β) (op : Operation α) :
    (op.map f).moves = op.moves := by
  cases op <;> rfl

/-- Whatever only moves elements returns the gradients along the way that they came. -/
theorem Operation.compute_routed {op : Operation Content} (moves : op.moves = true)
    (wf : ∀ x ∈ op.operands, x.WellFormed) {c : Computed} (success : op.compute = .ok c) :
    ∃ route, c.Routed op.isSlice op.operands route := by
  cases op with
  | copy x => exact ⟨_, (Content.copy_movedBy (wf x List.mem_cons_self) success).routed _⟩
  | reshape x shape => exact ⟨_, (Content.reshaped_movedBy success).routed _⟩
  | squeeze x axis =>
    exact ⟨_, (Content.squeeze_movedBy (wf x List.mem_cons_self) success).routed _⟩
  | expand x axis => exact ⟨_, (Content.expand_movedBy (wf x List.mem_cons_self) success).routed _⟩
  | concat xs axis =>
    obtain ⟨first, a, blocks, -, -, -, moved⟩ := Content.concat_movedBy wf success
    exact ⟨_, moved.routed _⟩
  | split x axis partition =>
    obtain ⟨a, lengths, blocks, -, -, -, moved⟩ :=
      Content.split_movedBy (wf x List.mem_cons_self) success
    exact ⟨_, moved.routed _⟩
  | stack xs axis =>
    obtain ⟨l, moved⟩ := Content.stack_movedBy wf success
    exact ⟨_, moved.routed _⟩
  | unstack x axis =>
    obtain ⟨l, moved⟩ := Content.unstack_movedBy (wf x List.mem_cons_self) success
    exact ⟨_, moved.routed _⟩
  | slice x offsets sizes =>
    obtain ⟨place, -, routed⟩ := Content.slice_routed (wf x List.mem_cons_self) success
    exact ⟨_, routed⟩
  | _ => cases moves

end LayerNet
