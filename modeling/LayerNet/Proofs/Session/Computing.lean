import LayerNet.Layer.Forward
import LayerNet.Proofs.Operation.Tiling
import LayerNet.Proofs.Operation.Routed
import LayerNet.Proofs.Session.Hinging

/-!
# Computing — what single operations hinge on

For operations of the shapes that they accept, what they hinge on and what they give. Where the
operands hold known values, the results hold the values that the operation is defined to compute;
all that can end the run is a result that is not finite or has too many elements.
-/

namespace LayerNet

namespace Session

variable {m : Machine} (recording : m.session.finalized = false) {x y : TensorId} {a b : Buffer}
  {shape : Shape}
include recording

/-- A sum runs through where it is finite. -/
theorem hinges_add (left : m.store.Has x a shape) (right : m.store.Has y b shape) :
    Hinges ((Buffer.combine (· + ·) a b).nonFinite? = none) (apply1 (.add x y)) m
      fun m' id => m'.store.Has id (Buffer.combine (· + ·) a b) shape := by
  have valid := left.valid
  have small := left.small
  have size : (Buffer.combine (· + ·) a b).size = shape.prod := by
    rw [Buffer.size_combine, left.size, right.size, Nat.min_self]
  obtain ⟨c, there, -, rfl, rfl⟩ := left
  obtain ⟨d, there', -, shaped, rfl⟩ := right
  have computes : (Operation.add c d).compute = (Computed.single · fun seen =>
      .ok [.whole (seen.gradient 0), .whole (seen.gradient 0)])
        <$> Content.make (Buffer.combine (· + ·) c.values d.values) c.shape := by
    show c.add d = _
    unfold Content.add Content.checkSameShape
    rw [if_pos shaped.symm]
    rfl
  refine (hinges_two there there' .add (fun _ => rfl) recording rfl (fun _ => rfl) computes valid
    size).congr ?_
  exact (and_iff_right small).symm

/-- Rows with a bias run through where they are finite. -/
theorem hinges_addBias {rows width : Nat} (left : m.store.Has x a [rows, width])
    (right : m.store.Has y b [width]) :
    Hinges ((Buffer.tabulate (rows * width) fun k =>
        a.element k + b.element (k % width)).nonFinite? = none) (apply1 (.addBias x y)) m
      fun m' id => m'.store.Has id (Buffer.tabulate (rows * width) fun k =>
        a.element k + b.element (k % width)) [rows, width] := by
  have valid := left.valid
  have small := left.small
  have count : a.size = rows * width := by
    rw [left.size, List.prod_cons, List.prod_singleton]
  have count' : b.size = width := by rw [right.size, List.prod_singleton]
  obtain ⟨c, there, -, shaped, rfl⟩ := left
  obtain ⟨d, there', -, shaped', rfl⟩ := right
  have computes : (Operation.addBias c d).compute = (Computed.single · fun seen =>
      .ok [.whole (seen.gradient 0), .whole ((seen.gradient 0).columnSums (seen.input 1).count)])
        <$> Content.make (Buffer.tabulate (rows * width) fun k =>
          c.values.element k + d.values.element (k % width)) [rows, width] := by
    show c.addBias d = _
    unfold Content.addBias
    rw [if_neg (by simp [shaped, shaped', Shape.rank]), Content.count, Content.count, count, count',
      shaped]
    rfl
  refine (hinges_two there there' .addBias (fun _ => rfl) recording rfl (fun _ => rfl) computes valid
    ?_).congr ?_
  · rw [Buffer.size_tabulate, List.prod_cons, List.prod_singleton]
  · exact (and_iff_right small).symm

variable (has : m.store.Has x a shape)
include has

/-- The hyperbolic tangent runs through where it is finite. -/
theorem hinges_tanh : Hinges (Buffer.nonFinite? (a.map Float32.tanh) = none) (apply1 (.tanh x)) m
    fun m' id => m'.store.Has id (a.map Float32.tanh) shape := by
  have valid := has.valid
  have small := has.small
  have size : Array.size (a.map Float32.tanh) = shape.prod := by rw [Array.size_map, has.size]
  obtain ⟨c, there, -, rfl, rfl⟩ := has
  exact (hinges_one there (.tanh x) rfl recording (fun _ => rfl) rfl valid size).congr
    (and_iff_right small).symm

/-- Finite values are seen under another shape. -/
theorem hinges_reshape {shape' : Shape} (valid : shape'.IsValid) (same : shape'.prod = shape.prod) :
    Hinges (a.nonFinite? = none) (apply1 (.reshape x shape')) m
      fun m' id => m'.store.Has id a shape' := by
  have small := has.small
  have size := has.size
  obtain ⟨c, there, -, rfl, rfl⟩ := has
  have computes : (Operation.reshape c shape').compute
      = (fun y => ⟨[y], Routing.identity.rule, true⟩) <$> Content.make c.values shape' := by
    show c.reshaped shape' = _
    have elements : shape'.elements = .ok shape'.prod :=
      Size.product_of_lt valid.2 (same ▸ small)
    unfold Content.reshaped
    rw [(Shape.validate_eq_ok_iff shape').mpr valid, elements]
    dsimp only [bind, Except.bind]
    rw [if_neg (fun different => different (same.trans size.symm)),
      Content.view_eq valid (same.trans size.symm) (Nat.lt_of_le_of_lt (Nat.le_of_eq size) small)]
  refine (hinges_one there (.reshape x shape') rfl recording (fun _ => rfl) computes valid
    (size.trans same.symm)).congr ?_
  exact (and_iff_right (same ▸ small)).symm

/-- The members along an axis are made where the values are finite. -/
theorem hinges_unstack {axis : Nat} (inside : axis < shape.rank) (rank : 2 ≤ shape.rank) :
    Hinges (a.nonFinite? = none) (apply (.unstack x axis)) m fun m' ids =>
      List.Forall₂ (fun id t => m'.store.Has id (Buffer.tabulate (shape.eraseIdx axis).prod fun k =>
        a.element (Stacking.place ⟨((shape.eraseIdx axis).drop axis).prod, shape.extent axis⟩ t k))
        (shape.eraseIdx axis)) ids (List.range (shape.extent axis)) := by
  obtain ⟨c, there, regular, rfl, rfl⟩ := has
  obtain ⟨wf, small⟩ := Content.regular_iff.mp regular
  obtain ⟨passes, ends⟩ := Content.unstack_cases wf small inside rank
  have call : (operandsOf m.store (.unstack x axis)).compute = c.unstack axis :=
    congrArg Operation.compute (operandsOf_one there rfl)
  have shows : m.store.Shows (Operation.unstack x axis).operands [c] := .cons there .nil
  have all := hinges_apply recording shows
    (Q := fun results => List.Forall₂ (fun o t => Content.make (Buffer.tabulate
        (c.shape.eraseIdx axis).prod fun k => c.values.element (Stacking.place
          ⟨((c.shape.eraseIdx axis).drop axis).prod, c.shape.extent axis⟩ t k))
        (c.shape.eraseIdx axis) = .ok o) results (List.range (c.shape.extent axis)))
    (fun finite => by
      obtain ⟨members, success⟩ := passes finite
      refine ⟨members, call.trans success, ?_⟩
      rw [Content.unstack_eq_compute wf small inside rank] at success
      obtain ⟨outputs, rfl, made⟩ := Routing.compute_eq_ok_iff.mp success
      have numbered : (List.replicate (c.shape.extent axis) (c.shape.eraseIdx axis)).zipIdx
          = (List.range (c.shape.extent axis)).map (c.shape.eraseIdx axis, ·) :=
        List.ext_getElem (by simp) fun i _ _ => by simp
      rw [numbered, List.forall₂_map_left_iff] at made
      exact made.flip.imp fun o t made => by
        rw [Routing.gather_eq_tabulate] at made
        exact made)
    (fun infinite => ⟨_, call.trans (ends infinite)⟩)
  refine all.mono Iff.rfl fun m' ids _ given => ?_
  obtain ⟨results, made, shows⟩ := given
  exact forall₂_of_common shows.flip made fun o id t there made => .of_made there made

end Session

section Stack

variable {contents : List Content} {values : Nat → Buffer} {n axis : Nat} {shape : Shape}
  (some : 0 < n) (valid : shape.IsValid) (small : shape.prod < Size.limit)
  (inside : axis ≤ shape.rank) (each : List.Forall₂ (fun (c : Content) t =>
    c.Regular ∧ c.shape = shape ∧ c.values = values t) contents (List.range n))
include some valid small inside each

/-- Finite tensors whose elements can be counted together are stacked, and no others. -/
theorem Content.stack_spec :
    ((∀ t < n, (values t).nonFinite? = none) ∧ n * shape.prod < Size.limit →
      ∃ whole, stack contents axis = .ok whole ∧ ∃ o, whole.outputs = [o]
        ∧ make (Buffer.tabulate (shape.insertIdx axis n).prod fun k =>
          (values (Stacking.locate ⟨(shape.drop axis).prod, n⟩ k).1).element
            (Stacking.locate ⟨(shape.drop axis).prod, n⟩ k).2) (shape.insertIdx axis n) = .ok o)
      ∧ (¬((∀ t < n, (values t).nonFinite? = none) ∧ n * shape.prod < Size.limit) →
        ∃ reason, stack contents axis = Outcome.stop reason) := by
  have length : contents.length = n := by rw [each.length_eq, List.length_range]
  have regular (c : Content) (member : c ∈ contents) : c.Regular ∧ c.shape = shape := by
    obtain ⟨t, -, regular, shaped, -⟩ := exists_rel_of_mem each.flip member
    exact ⟨regular, shaped⟩
  have valued : contents.map Content.values = (List.range n).map values := by
    rw [← List.forall₂_eq_eq_eq, List.forall₂_map_left_iff, List.forall₂_map_right_iff]
    exact each.imp fun c t same => same.2.2
  have finite : (∀ c ∈ contents, c.values.nonFinite? = none)
      ↔ ∀ t < n, (values t).nonFinite? = none := by
    have lists : (∀ b ∈ contents.map Content.values, b.nonFinite? = none)
        ↔ ∀ b ∈ (List.range n).map values, b.nonFinite? = none := by rw [valued]
    simpa using lists
  have filled : contents ≠ [] := List.ne_nil_of_length_pos (length ▸ some)
  have alike (c : Content) (member : c ∈ contents) : c.shape = shape := (regular c member).2
  have computes := stack_eq_compute filled inside valid.2 small alike
  obtain ⟨passes, ends⟩ := stack_cases filled inside valid.2 small
    (fun c member => (regular_iff.mp (regular c member).1).1) alike
  rw [finite, length] at passes ends
  refine ⟨fun condition => ?_, ends⟩
  obtain ⟨whole, success, -⟩ := passes condition
  refine ⟨whole, success, ?_⟩
  rw [computes, length] at success
  obtain ⟨output, rfl, made⟩ := Routing.compute_one_eq_ok_iff.mp success
  refine ⟨output, rfl, ?_⟩
  rw [← made, Routing.gather_eq_tabulate, valued]
  refine congrArg (make · _) (Buffer.tabulate_congr fun k within => ?_)
  rw [Shape.prod_insertIdx inside, ← List.prod_take_mul_prod_drop shape axis,
    Nat.mul_left_comm, ← Nat.mul_assoc] at within
  have member := (Stacking.locate_lt (l := ⟨(shape.drop axis).prod, n⟩) within).1
  simp [Routing.fetch, Stacking.joining, member]

end Stack

/-- Tensors of one shape are stacked where all are finite and their elements can be counted
together. -/
theorem Session.hinges_stack {m : Machine} (recording : m.session.finalized = false)
    {ids : List TensorId} {values : Nat → Buffer} {n axis : Nat} {shape : Shape} (some : 0 < n)
    (each : List.Forall₂ (fun id t => m.store.Has id (values t) shape) ids (List.range n))
    (inside : axis ≤ shape.rank) :
    Hinges ((∀ t < n, (values t).nonFinite? = none) ∧ n * shape.prod < Size.limit)
      (apply1 (.stack ids axis)) m fun m' id => m'.store.Has id
        (Buffer.tabulate (shape.insertIdx axis n).prod fun k =>
          (values (Stacking.locate ⟨(shape.drop axis).prod, n⟩ k).1).element
            (Stacking.locate ⟨(shape.drop axis).prod, n⟩ k).2) (shape.insertIdx axis n) := by
  obtain ⟨id, -, first⟩ := exists_rel_of_mem each (List.mem_range.mpr some)
  obtain ⟨contents, shows, given⟩ := Store.Has.exists_contents each
  obtain ⟨passes, ends⟩ := Content.stack_spec some first.valid first.small inside given
  have call : (operandsOf m.store (.stack ids axis)).compute = Content.stack contents axis :=
    congrArg Operation.compute (operandsOf_all shows (.stack · axis) fun _ => rfl)
  have shows : m.store.Shows (Operation.stack ids axis).operands contents := shows
  refine Hinges.one (hinges_apply recording shows (fun condition => ?_) fun fails => ?_)
  · obtain ⟨whole, success, given⟩ := passes condition
    exact ⟨whole, call.trans success, given⟩
  · obtain ⟨reason, ended⟩ := ends fails
    exact ⟨reason, call.trans ended⟩

/-- A batch of samples of the right shape is counted. -/
theorem Layer.hinges_batchSize {m : Machine} {x : TensorId} {a : Buffer} {batch : Nat}
    {sample : Shape} (has : m.store.Has x a (batch :: sample)) (layer : String) :
    Session.Hinges True (batchSize x sample layer) m fun m' n => m' = m ∧ n = batch := by
  obtain ⟨c, there, -, shaped, -⟩ := has
  refine (Session.Hinges.tensor there).after fun t m' _ given => ?_
  obtain ⟨rfl, rfl⟩ := given
  rw [shaped, if_pos ⟨rfl, List.cons_ne_nil _ _⟩]
  exact .pure ⟨rfl, rfl⟩

end LayerNet
