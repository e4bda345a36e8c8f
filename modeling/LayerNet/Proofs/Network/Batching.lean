import LayerNet.Proofs.Network.Abreast
import LayerNet.Proofs.Operation.SampleAxes
import LayerNet.Proofs.Operation.SampleWindows

/-!
# Batching — a network infers sample by sample

All that layers do respects being a sample of (`Content.respected_sampleOf`). So where a network
infers on a batch, it infers on each sample by itself, and what it gives there is, for every sink, the
sample of what it gives on the batch (`Network.forwardAll_samples`): no sample has to do with another.
-/

namespace LayerNet

namespace Content

variable {b : Nat} {x y : Content}

/-- One sample of a batch, as a batch of its own. -/
def sample (x : Content) (b : Nat) : Content where
  shape := 1 :: x.shape.tail
  strides := x.strides
  values := Buffer.tabulate x.shape.tail.prod fun i => x.values.element (b * x.shape.tail.prod + i)

theorem sampleOf_sample (wf : x.WellFormed) (ranked : x.shape.tail ≠ [])
    (inside : b < x.shape.extent 0) : SampleOf b x (x.sample b) := by
  obtain ⟨shape, strides, values⟩ := x
  cases shape with
  | nil => exact absurd rfl wf.valid.1
  | cons n shape =>
    have valid := (Shape.isValid_cons n shape).mp wf.valid
    have size : values.size = n * shape.prod := wf.count.trans List.prod_cons
    exact {
      whole := wf
      single := {
        valid := (Shape.isValid_cons 1 shape).mpr ⟨Nat.one_pos, valid.2⟩
        strides := (Shape.strides_cons_congr ranked 1 n).trans wf.strides
        count := by
          show (Buffer.tabulate shape.prod _).size = List.prod (1 :: shape)
          rw [Buffer.size_tabulate, List.prod_cons, Nat.one_mul] }
      ranked := ranked
      inside := inside
      shape := rfl
      block := .of_size size inside (Buffer.size_tabulate _ _) fun i small =>
        Buffer.element_tabulate _ small }

/-! ## What layers do to samples -/

theorem computes_sampled {op op' : Operation Content} (alike : Operation.Alike (SampleOf b) op op') :
    Sampled b op.compute op'.compute := by
  cases alike with
  | copy sample => exact copy_sampled sample
  | concat behind samples => exact concat_sampled samples behind
  | stack samples => exact stack_sampled samples
  | unstack rank sample => exact unstack_sampled sample rank
  | maxReduce members behind sample => exact maxReduce_sampled sample behind members
  | meanReduce members behind sample => exact meanReduce_sampled sample behind members
  | reshape first second ranked sample =>
    subst first second
    exact reshape_sampled sample ranked
  | add left right => exact add_sampled left right
  | addBias sample bias =>
    obtain ⟨rfl, wf⟩ := bias
    exact addBias_sampled sample wf
  | scale factor sample => exact scale_sampled sample factor
  | matmul sample weight =>
    obtain ⟨rfl, -⟩ := weight
    exact matmul_sampled sample _
  | relu sample | sigmoid sample | tanh sample => exact pointwise_sampled sample _
  | softmax sample => exact softmax_sampled sample
  | conv2d windowing sample kernel bias =>
    obtain ⟨rfl, -⟩ := kernel
    obtain ⟨rfl, -⟩ := bias
    exact conv2d_sampled sample _ _ windowing
  | normalize settings sample => exact normalize_sampled sample settings

theorem zeros_sampled (sample : SampleOf b x y) (units : Nat) {c : Content}
    (success : zeros [x.shape.extent 0, units] = .ok c) :
    ∃ d, zeros [y.shape.extent 0, units] = .ok d ∧ SampleOf b c d := by
  obtain ⟨n, shape, shaped, shaped', -, inside, -⟩ := sample.exists_shape
  rw [shaped] at success
  rw [shaped']
  have success : full [n, units] 0 = .ok c := success
  show ∃ d, full [1, units] 0 = .ok d ∧ _
  obtain ⟨_, -, success⟩ := Outcome.bind_eq_ok_iff.mp success
  obtain ⟨count, space, made⟩ := Outcome.bind_eq_ok_iff.mp success
  obtain ⟨elements, counted, fits⟩ : ∃ elements, Shape.elements [n, units] = .ok elements
      ∧ ¬ Size.signedMax < 4 * elements := by
    obtain ⟨elements, counted, rest⟩ := Outcome.bind_eq_ok_iff.mp space
    split at rest
    · cases rest
    next fits => exact ⟨elements, counted, fits⟩
  have positive := Nat.zero_lt_of_lt inside
  have counted' : Shape.elements [1, units] = .ok [units].prod :=
    Size.product_sample positive counted
  have smaller : ¬ Size.signedMax < 4 * [units].prod := by
    have total := Size.product_eq_ok counted
    rw [List.prod_cons] at total
    have fewer := Nat.le_mul_of_pos_left [units].prod positive
    omega
  have space' : room [1, units] = .ok [units].prod := by
    unfold room
    rw [counted']
    dsimp only [bind, Except.bind]
    rw [if_neg smaller]
    rfl
  have size : count = n * [units].prod := by
    have size := (elements_of_make made).2
    rwa [Buffer.size_filled, List.prod_cons] at size
  have zero (k : Nat) {i : Nat} (small : i < k) : (Buffer.filled k 0).element i = 0 := by
    rw [Buffer.element_of_lt (by rwa [Buffer.size_filled])]
    exact Array.getElem_replicate _
  have block : Buffer.Block b [units].prod (Buffer.filled count 0) (Buffer.filled [units].prod 0) := by
    refine .of_size ((Buffer.size_filled _ _).trans size) inside (Buffer.size_filled _ _) ?_
    intro i small
    rw [zero _ small, zero count (size ▸ mul_add_lt inside small)]
  obtain ⟨d, made', sample⟩ := SampleOf.of_make (List.cons_ne_nil units []) inside made block
  have valid := (of_make_eq_ok made').2.2.1
  exact ⟨d, Outcome.bind_eq_ok_iff.mpr ⟨(), (Shape.validate_eq_ok_iff _).mpr valid,
    Outcome.bind_eq_ok_iff.mpr ⟨_, space', made'⟩⟩, sample⟩

theorem respected_sampleOf (b : Nat) : Respected (SampleOf b) where
  samples x y sample := by
    obtain ⟨n, shape, shaped, shaped', -⟩ := sample.exists_shape
    rw [shaped, shaped']
    exact ⟨List.cons_ne_nil _ _, List.cons_ne_nil _ _, rfl⟩
  computes op op' c alike success := computes_sampled alike c success
  zeros x y units c sample success := zeros_sampled sample units success
  remade x y c sample made := by
    obtain ⟨n, shape, shaped, shaped', ranked, inside, block⟩ := sample.exists_shape
    rw [shaped] at made
    rw [shaped']
    exact SampleOf.of_make ranked inside made block

end Content

namespace Network

variable {n : Network}

theorem mem_parameters (dag : n.graph.IsDag) {v : Nat} {node : Node} (label : n.node? v = some node)
    {p : TensorId} (member : p ∈ node.layer.parameters) : p ∈ n.parameters := by
  have met := Digraph.mem_executionOrder dag.wellFormed dag.acyclic (lt_of_node? label)
  exact List.mem_flatMap.mpr ⟨node, List.mem_filterMap.mpr ⟨v, met, label⟩, member⟩

/-- Where a compiled network infers on a batch and succeeds, it does so on every sample by itself, on
any machine where its parameters are the same, and there it gives, for every sink, the sample of what
it gives on the batch. -/
theorem forwardAll_samples {text : String} {options : Options} {store store' : Store}
    (compiled : compile text options store = .ok (n, store')) (wf : store.WellFormed)
    (entry : n.inputShape ≠ []) {m : Machine} (later : store'.Evolves m.store)
    (inferring : m.session.training = false) {input : TensorId} {x : Content}
    (there : m.store.content? input = some x) {batch : Nat} (shaped : x.shape = batch :: n.inputShape)
    {ids : List TensorId} {m' : Machine} (run : (n.forwardAll input).run m = (.ok ids, m'))
    {b : Nat} (inside : b < batch) {alone : Machine} (formed : alone.store.WellFormed)
    (inferring' : alone.session.training = false)
    (recording : m.session.finalized = false → alone.session.finalized = false)
    (shared : ∀ p ∈ n.parameters, ∀ c, m.store.content? p = some c → alone.store.content? p = some c)
    {row : TensorId} (there' : alone.store.content? row = some (x.sample b)) : ∃ rows alone',
      (n.forwardAll row).run alone = (.ok rows, alone')
        ∧ List.Forall₂ (m'.store.Tied (Content.SampleOf b) alone'.store) ids rows := by
  obtain ⟨evolves, fit⟩ := fit_of_compile compiled
  have fit := fit.evolves later
  have formed₁ := later.wellFormed (evolves.wellFormed wf)
  have topological := Digraph.topological_executionOrder fit.dag.wellFormed fit.dag.acyclic
  rw [← forwardAlong_executionOrder] at run
  obtain ⟨t, m₁, ran, given⟩ := Step.run_bind_eq_ok_iff.mp run
  cases given
  obtain ⟨calls, nodes, performs⟩ := (performs_iff topological.ordered.inside).mp ran
  rw [← nodes] at topological
  have sample : x.SampleOf b (x.sample b) := by
    refine Content.sampleOf_sample (formed₁.content there) ?_ ?_
    · rwa [shaped]
    · rwa [shaped]
  have same (v : Nat) (node : Node) (label : n.node? v = some node) (p : TensorId)
      (member : p ∈ node.layer.parameters) : m.store.Tied Content.Same alone.store p p := by
    obtain ⟨c, found⟩ := (fit.accepts v node label).exists_parameter p member
    have found' := shared p (mem_parameters fit.dag label member) c found
    exact ⟨c, c, found, found', rfl, formed₁.content found⟩
  obtain ⟨calls', t', alone', nodes', performs', -, follow⟩ :=
    performs.follows (Content.respected_sampleOf b)
      ⟨formed₁, formed, ⟨inferring, inferring'⟩, recording⟩ ⟨x, _, there, there', sample⟩ fit same
      topological.ordered topological.complete topological.ordered
  refine ⟨_, alone', ?_, follow.results performs performs' topological (nodes' ▸ topological)⟩
  rw [← forwardAlong_executionOrder, ← nodes]
  unfold forwardAlong
  rw [Step.run_bind_ok
    ((performs_iff topological.ordered.inside).mpr ⟨calls', nodes', performs'⟩)]
  rfl

/-- Two inputs pass the second of two samples on by itself as they do in the batch. -/
theorem forwardAll_samples_passes : ∃ store store' n x m' row alone rows alone',
    compile "2~-1" ⟨false, false, [2], .relu, .squared, 0, 0⟩ store = .ok (n, store')
      ∧ store'.content? ⟨0⟩ = some x ∧ x.shape = [2, 2]
      ∧ (n.forwardAll ⟨0⟩).run ⟨store', Session.fresh false, Generator.ofSeed 0⟩ = (.ok [⟨0⟩], m')
      ∧ alone.store.content? row = some (x.sample 1)
      ∧ (n.forwardAll row).run alone = (.ok rows, alone')
      ∧ List.Forall₂ (m'.store.Tied (Content.SampleOf 1) alone'.store) [⟨0⟩] rows := by
  obtain ⟨store, store', n, x, m', compiled, wf, entry, there, shaped, run⟩ := exists_passing_run
  have formed := (fit_of_compile compiled).1.wellFormed wf
  have sample : x.SampleOf 1 (x.sample 1) := by
    refine Content.sampleOf_sample (formed.content there) ?_ ?_ <;> rw [shaped] <;> decide
  obtain ⟨alone, made⟩ : ∃ alone : Machine, alone
      = ⟨(store'.add (x.sample 1) none).2, Session.fresh false, Generator.ofSeed 0⟩ := ⟨_, rfl⟩
  have adds : Store.Adds [x.sample 1] store' [(store'.add (x.sample 1) none).1] alone.store :=
    made ▸ .cons rfl rfl (.refl _)
  have formed' : alone.store.WellFormed :=
    adds.wellFormed formed fun c member => List.mem_singleton.mp member ▸ sample.single
  obtain ⟨there', -⟩ := List.forall₂_cons.mp adds.added
  obtain ⟨rows, alone', ran, samples⟩ := forwardAll_samples compiled wf (by rw [entry]; decide)
    (m := ⟨store', Session.fresh false, Generator.ofSeed 0⟩) (.refl store') rfl there
    (by rw [shaped, entry]) run Nat.one_lt_two formed' (by rw [made]; rfl)
    (fun _ => by rw [made]; rfl) (fun p _ => adds.keeps p) there'
  exact ⟨store, store', n, x, m', _, alone, rows, alone', compiled, there, shaped, run, there', ran,
    samples⟩

end Network

end LayerNet
