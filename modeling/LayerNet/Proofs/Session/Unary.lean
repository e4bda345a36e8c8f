import LayerNet.Proofs.Operation.Grouped
import LayerNet.Proofs.Session.Yielding

/-!
# Unary operations — what one operand receives on the way back

An operation of one operand and one result distributes the gradient of the result over the elements
of the operand's (`Session.Distributes`): its entry, replayed, adds to each of them amounts that the
gradient of the result gives, and nothing to any other tensor. Values do not count: the rule was
made of those that there were.

One operation transposes another when it distributes what the other computes
(`Session.Transposes`).

A maximum or a mean of groups is such an operation. Along every axis, and for any number of members
that divides it, the groups partition the elements of a tensor. The maximum of a group is the value
of one of its members, which gets the gradient of the result; of a mean every member gets its share
(`Session.groups_agree`).
-/

namespace LayerNet

theorem Delta.Fits.of_count {c c' : Content} {d : Delta} (fits : d.Fits c)
    (same : c'.count = c.count) : d.Fits c' := by
  cases d with
  | whole amounts => exact Eq.trans fits same.symm
  | sparse amounts => exact fun amount member => same ▸ fits amount member

namespace Session

/-- Where the operation runs through, it has one result, of this shape. Its entry, whenever it is
replayed and whatever values there are by then, adds to each element of the gradient of its operand
the amounts that the gradient of the result gives for it, and nothing to any other tensor. -/
def Distributes (m : Machine) (op : Operation TensorId) (x : TensorId) (shape : Shape)
    (amounts : Buffer → Nat → List Float32) : Prop :=
  ∀ ids m', (apply op).run m = (.ok ids, m') → ∃ y d entry, ids = [y]
    ∧ m'.store.content? y = some d ∧ d.shape = shape
    ∧ m'.session.trace = m.session.trace.push entry
    ∧ ∀ s : Store, s.WellFormed → s.StandsFor false m'.store [x, y] → ∃ gradient s',
      s.gradients [y] = [gradient] ∧ gradient.size = shape.prod ∧ replay s entry = .ok s'
      ∧ s.Receives s' fun id j => if id = x then amounts gradient j else []

/-- The operation, replayed, adds to the gradient of its operand, which has this shape, what another
operation computes from the gradient of the result. -/
def Transposes (m : Machine) (op : Operation TensorId) (x : TensorId) (shape : Shape)
    (other : Content → Checked Computed) : Prop :=
  ∃ (result : Shape) (f : Buffer → Buffer),
    Distributes m op x result (fun gradient j => [(f gradient).element j])
      ∧ ∀ g : Content, g.WellFormed → g.shape = result →
        Computed.outputs <$> other g = ([·]) <$> Content.make (f g.values) shape

section Operand

variable {m : Machine} {x : TensorId} {c : Content} (there : m.store.content? x = some c)
  {op : Operation TensorId} (unary : op.operands = [x])
include there unary

/-- An operation whose rule answers distributes what it answers with. -/
theorem distributes_one {rule : Rule} {values : Buffer} {shape : Shape}
    (computes : (op.map fun _ => c).compute
      = (Computed.single · rule) <$> Content.make values shape)
    {amounts : Buffer → Nat → List Float32}
    (answers : ∀ c' d' : Content, c'.count = c.count → d'.count = shape.prod →
      rule.Answers [c'] [d'] fun gradients a => amounts (gradients.getD 0 #[]) a.2) :
    Distributes m op x shape amounts := by
  intro ids m' run
  rcases run_apply op m with ⟨failure, failed⟩ | ⟨computed, ids', store, -, success, adds, ran⟩
  · rw [failed] at run
    cases run
  rw [ran] at run
  cases run
  rw [operandsOf_one there unary, computes] at success
  obtain ⟨d, made, rfl⟩ := except_map_eq_ok_iff.mp success
  obtain ⟨y, _, here, none, rfl⟩ := List.forall₂_cons_right_iff.mp adds.added
  obtain rfl := List.forall₂_nil_right_iff.mp none
  obtain ⟨t, tensor, -⟩ := Option.map_eq_some_iff.mp there
  have fresh : x.index < y.index :=
    Nat.lt_of_lt_of_le (Store.index_lt_of_get? tensor) (adds.new y List.mem_cons_self)
  have shaped := (Content.of_make_eq_ok made).1
  refine ⟨y, d, _, rfl, here, shaped, rfl, fun s wf stands => ?_⟩
  obtain ⟨c', there', stand⟩ := stands x List.mem_cons_self c (adds.keeps x c there)
  obtain ⟨d', here', stand'⟩ :=
    stands y (List.mem_cons_of_mem x (List.mem_singleton_self y)) d here
  have count : d'.count = shape.prod := by
    rw [stand'.count, (Content.wellFormed_of_make made).count, shaped]
  obtain ⟨s', replayed, -, receives⟩ := replay_gains (e := ⟨op.name, op.operands, [y], rule⟩)
    wf (by simpa [unary] using fresh) (unary ▸ .cons there' .nil) (.cons here' .nil)
    (answers c' d' stand.count count)
  obtain ⟨t', tensor', rfl⟩ := Option.map_eq_some_iff.mp here'
  have shown : s.gradients [y] = [t'.gradientOrZeros] := by simp [Store.gradients, tensor']
  have size := Tensor.size_gradientOrZeros (wf.gradients y t' tensor')
  refine ⟨t'.gradientOrZeros, s', shown, size.trans count, replayed, ?_⟩
  have same : receipts op.operands (fun a => amounts ((s.gradients [y]).getD 0 #[]) a.2)
      = fun id j => if id = x then amounts t'.gradientOrZeros j else [] := by
    funext id j
    simp [receipts, unary, shown, eq_comm]
  rw [← same]
  exact receives

variable (op) in
/-- An operation whose rule answers with one delta, which its operand can take up, distributes the
amounts that reach each element. -/
theorem distributes_delta (f : Buffer → Delta) {values : Buffer} {shape : Shape}
    (computes : (op.map fun _ => c).compute
      = (Computed.single · fun seen => .ok [f (seen.gradient 0)]) <$> Content.make values shape)
    {amounts : Buffer → Nat → List Float32}
    (fits : ∀ gradient, gradient.size = shape.prod → (f gradient).Fits c)
    (reaches : ∀ gradient, gradient.size = shape.prod →
      ∀ j < c.count, (f gradient).reaching j = amounts gradient j) :
    Distributes m op x shape amounts := by
  refine distributes_one there unary computes ?_
  intro c' d' count count' gradients sizes
  obtain ⟨gradient, _, size, none, rfl⟩ := List.forall₂_cons_right_iff.mp sizes
  obtain rfl := List.forall₂_nil_right_iff.mp none
  have size := size.trans count'
  refine ⟨_, rfl, .cons ((fits gradient size).of_count count) .nil, fun a member d there => ?_⟩
  obtain ⟨first, small⟩ := mem_places_singleton.mp member
  rw [first] at there
  cases there
  exact reaches gradient size a.2 (count ▸ small)

/-- A rule that gives amounts for all elements adds each of them. -/
theorem distributes_whole {f : Buffer → Buffer} {values : Buffer} {shape : Shape}
    (computes : (op.map fun _ => c).compute
      = (Computed.single · fun seen => .ok [.whole (f (seen.gradient 0))])
        <$> Content.make values shape) (size : ∀ g, (f g).size = c.count) :
    Distributes m op x shape fun gradient j => [(f gradient).element j] := by
  refine distributes_delta there op unary (fun gradient => .whole (f gradient)) computes
    (fun gradient _ => size gradient) fun _ _ _ _ => rfl

end Operand

end Session

/-! ## Groups -/

namespace Session

variable {m : Machine} {x : TensorId} {c : Content}

/-- The laws of groups. Along every axis, and for any number of members that divides its length,
the groups of the results partition the elements of a tensor. The maximum makes, of each group, the
value of one of its members. Replayed, it adds the gradient of the result to the gradient of that
member, and nothing to any other element. The mean, replayed, adds to the gradient of each element
one share of the gradient of the result whose group it is in. -/
theorem groups_agree (regular : m.store.Regular) (recording : m.session.finalized = false)
    (there : m.store.content? x = some c) {axis : Nat} (inside : axis < c.shape.rank)
    {members : Nat} (even : members ∣ c.shape.extent axis) :
    ∃ g : Grouping, g.members = members
      ∧ (∀ operation, c.grouping axis members operation = .ok (g, c.shape.set axis g.groups))
      ∧ g.Partitions c.shape axis
      ∧ (∀ r < g.count, g.largest c.values r ∈ g.positions r)
      ∧ Makes (apply (.maxReduce x axis members)) m
        (Buffer.tabulate g.count fun r => c.values.element (g.largest c.values r))
        (c.shape.set axis g.groups)
      ∧ Distributes m (.maxReduce x axis members) x (c.shape.set axis g.groups)
        (fun gradient p =>
          if g.largest c.values (g.result p) = p then [gradient.element (g.result p)] else [])
      ∧ Makes (apply (.meanReduce x axis members)) m (Buffer.tabulate g.count (g.mean c.values))
        (c.shape.set axis g.groups)
      ∧ Distributes m (.meanReduce x axis members) x (c.shape.set axis g.groups)
        (fun gradient p => [gradient.element (g.result p) * (1 / Float32.ofNat members)]) := by
  obtain ⟨wf, small⟩ := Content.regular_iff.mp (regular.content there)
  obtain ⟨b, around⟩ := Shape.blocks_of_lt wf.valid.2 (wf.count ▸ small) inside
  obtain ⟨found, -, -⟩ := Shape.blocks_spec around
  rw [Shape.extent_of_getElem? found] at even
  have some : 0 < members := Nat.pos_of_dvd_of_pos even (Shape.pos_of_getElem? wf.valid.2 found)
  let g : Grouping := ⟨b, members⟩
  have whole : g.blocks.length = g.groups * g.members := (Nat.div_mul_cancel even).symm
  have partitions : g.Partitions c.shape axis := Grouping.partitions whole some around wf.valid
  have valid : Shape.IsValid (c.shape.set axis g.groups) :=
    wf.valid.set axis (Grouping.groups_pos whole around wf.valid).1
  have count : List.prod (c.shape.set axis g.groups) = g.count := Shape.prod_set around _
  have fewer : List.prod (c.shape.set axis g.groups) < Size.limit := by
    rw [count]
    exact Nat.lt_of_le_of_lt (Grouping.count_le whole some around) (wf.count ▸ small)
  have largest := Content.maxReduce_eq around some even
  have mean := Content.meanReduce_eq around some even
  refine ⟨g, rfl, Content.grouping_eq around some even, partitions,
    fun r _ => Grouping.largest_mem some c.values r, ?_, ?_, ?_, ?_⟩
  · refine makes_one recording there rfl (fun _ => rfl) largest valid ?_ fewer
    rw [Buffer.size_tabulate, count]
  · refine distributes_delta there (.maxReduce x axis members) rfl (g.toLargest c.values) largest
      (fun gradient _ => partitions.fits_toLargest some c.values wf.count) ?_
    intro gradient size j within
    exact partitions.reaching_toLargest some c.values (size.trans count) (wf.count ▸ within)
  · refine makes_one recording there rfl (fun _ => rfl) mean valid ?_ fewer
    rw [Buffer.size_tabulate, count]
  · refine distributes_delta there (.meanReduce x axis members) rfl g.toMembers mean
      (fun gradient _ => partitions.fits_toMembers wf.count gradient) ?_
    intro gradient _ j within
    exact partitions.reaching_toMembers gradient (wf.count ▸ within)

/-- The rows of a square in pairs. -/
theorem groups_agree_square :
    ∃ g : Grouping, g.Partitions [2, 2] 1
      ∧ (∃ y, y.shape = [2, 1] ∧ y.values = #[2, 4]
        ∧ Yields (apply (.maxReduce ⟨0⟩ (1 : Nat) 2)) ofSquare [y])
      ∧ Distributes ofSquare (.maxReduce ⟨0⟩ (1 : Nat) 2) ⟨0⟩ [2, 1] (fun gradient p =>
        if g.largest #[1, 2, 3, 4] (g.result p) = p then [gradient.element (g.result p)] else [])
      ∧ (∃ y, y.shape = [2, 1] ∧ y.values = #[1.5, 3.5]
        ∧ Yields (apply (.meanReduce ⟨0⟩ (1 : Nat) 2)) ofSquare [y])
      ∧ Distributes ofSquare (.meanReduce ⟨0⟩ (1 : Nat) 2) ⟨0⟩ [2, 1] (fun gradient p =>
        [gradient.element (g.result p) * (1 / Float32.ofNat 2)]) := by
  have there : ofSquare.store.content? ⟨0⟩ = some ⟨[2, 2], [2, 1], #[1, 2, 3, 4]⟩ := rfl
  have inside : 1 < Shape.rank [2, 2] := by decide
  have even : 2 ∣ Shape.extent [2, 2] 1 := by decide
  obtain ⟨g, -, grouped, partitions, -, maximum, toLargest, mean, toMembers⟩ :=
    groups_agree regular_ofSquare rfl there inside even
  have computed : Content.grouping ⟨[2, 2], [2, 1], #[1, 2, 3, 4]⟩ (1 : Nat) 2 "max_reduce"
      = .ok (⟨⟨2, 2, 1⟩, 2⟩, [2, 1]) := rfl
  obtain rfl : ⟨⟨2, 2, 1⟩, 2⟩ = g :=
    congrArg Prod.fst (Except.ok.inj (computed.symm.trans (grouped "max_reduce")))
  obtain ⟨y, shaped, valued, yields⟩ := maximum.yields (by decide +kernel)
  obtain ⟨y', shaped', valued', yields'⟩ := mean.yields (by decide +kernel)
  exact ⟨_, partitions, ⟨y, shaped, valued.trans (by decide +kernel), yields⟩, toLargest,
    ⟨y', shaped', valued'.trans (by decide +kernel), yields'⟩, toMembers⟩

end Session

end LayerNet
