import LayerNet.Proofs.Network.Parameters

/-!
# Rectified biases — where the bias of a layer is filled, and what stays as it was made

After all layers are built and all additions are made, the bias of every layer in front of a
rectifier is filled. In the compiled network a bias has the rectifiers' bias for all its elements if
an edge of the final graph leads from its layer to a rectifier, and zeros otherwise; and nothing
else of what the constructors made is changed (`Network.biased_of_compile`). Filling the bias of one
layer touches no parameter of another, since every layer has its parameters to itself
(`Network.Furnished`).
-/

namespace LayerNet

/-! ## Filling -/

section Filling

variable {layers : List Layer} {value : Float32} {s : Store} {id : TensorId}

theorem Layer.get?_fillBias_of_ne {layer : Layer} (other : layer.bias? ≠ some id) :
    (layer.fillBias value s).get? id = s.get? id := by
  unfold fillBias
  cases isBias : layer.bias? with
  | none => rfl
  | some bias =>
    have different : bias ≠ id := fun same => other (isBias.trans (congrArg some same))
    exact (s.get?_mapValues bias id _).trans (if_neg different)

variable (value) in
theorem Layer.get?_fillBias {layer : Layer} {t : Tensor} (isBias : layer.bias? = some id)
    (there : s.get? id = some t) : (layer.fillBias value s).get? id
      = some { t with values := Buffer.filled t.values.size value, buffer := ⟨s.buffers⟩ } := by
  rw [fillBias, isBias]
  refine (s.get?_mapValues id id _).trans ((if_pos rfl).trans ?_)
  rw [there]
  rfl

/-- A tensor that is the bias of no layer stays as it is. -/
theorem get?_fillAll_of_ne (others : ∀ layer ∈ layers, layer.bias? ≠ some id) :
    (layers.foldl (fun s layer => layer.fillBias value s) s).get? id = s.get? id := by
  induction layers generalizing s with
  | nil => rfl
  | cons layer layers ih =>
    obtain ⟨other, others⟩ := List.forall_mem_cons.mp others
    exact (ih others).trans (Layer.get?_fillBias_of_ne other)

variable (value) in
/-- A tensor that is the bias of a layer is filled, and else stays as it is. -/
theorem get?_fillAll {t : Tensor} (there : s.get? id = some t)
    (one : ∃ layer ∈ layers, layer.bias? = some id) :
    ∃ buffer, (layers.foldl (fun s layer => layer.fillBias value s) s).get? id
      = some { t with values := Buffer.filled t.values.size value, buffer } := by
  induction layers generalizing s t with
  | nil =>
    obtain ⟨layer, absurd, -⟩ := one
    cases absurd
  | cons layer layers ih =>
    by_cases own : layer.bias? = some id
    · have filled := Layer.get?_fillBias value own there
      by_cases again : ∃ layer ∈ layers, layer.bias? = some id
      · obtain ⟨buffer, last⟩ := ih filled again
        refine ⟨buffer, last.trans ?_⟩
        simp [Buffer.filled]
      · have others : ∀ other ∈ layers, other.bias? ≠ some id :=
          fun other member isBias => again ⟨other, member, isBias⟩
        exact ⟨⟨s.buffers⟩, (get?_fillAll_of_ne others).trans filled⟩
    · obtain ⟨other, member, isBias⟩ := one
      have later := (List.mem_cons.mp member).resolve_left fun same => own (same ▸ isBias)
      exact ih ((Layer.get?_fillBias_of_ne own).trans there) ⟨other, later, isBias⟩

end Filling

namespace Network

/-- An edge leads from the node to a rectifier. -/
def FeedsRectifier (n : Network) (v : Nat) : Prop :=
  ∃ w node shape, n.graph.Adj v w ∧ n.node? w = some node ∧ node.layer = .activation .relu shape

theorem isRectifier_iff {layer : Layer} :
    isRectifier layer = true ↔ ∃ shape, layer = .activation .relu shape := by
  unfold isRectifier
  cases layer with
  | activation a shape => simp [Layer.activation?]
  | _ => simp [Layer.activation?]

theorem mem_rectified {n : Network} {layer : Layer} : layer ∈ n.rectified ↔
    ∃ v node, n.node? v = some node ∧ node.layer = layer ∧ layer.isTrainable = true
      ∧ n.FeedsRectifier v := by
  have feeds (v : Nat) : (n.graph.successors v).any (n.layerIs isRectifier) = true
      ↔ n.FeedsRectifier v := by
    simp only [List.any_eq_true, Digraph.mem_successors, layerIs_iff, isRectifier_iff]
    constructor
    · rintro ⟨w, edge, node, there, shape, is⟩
      exact ⟨w, node, shape, edge, there, is⟩
    · rintro ⟨w, node, shape, edge, there, is⟩
      exact ⟨w, edge, node, there, shape, is⟩
  simp only [rectified, List.mem_filterMap, List.mem_range]
  constructor
  · rintro ⟨v, -, taken⟩
    cases there : n.node? v with
    | none => simp [there] at taken
    | some node =>
      simp only [there, Option.ite_none_right_eq_some, Bool.and_eq_true, feeds,
        Option.some.injEq] at taken
      obtain ⟨⟨trainable, fed⟩, rfl⟩ := taken
      exact ⟨v, node, there, rfl, trainable, fed⟩
  · rintro ⟨v, node, there, rfl, trainable, fed⟩
    refine ⟨v, lt_of_node? there, ?_⟩
    simp [there, trainable, (feeds v).mpr fed]

/-- What has become of the parameters that a constructor made for a node: the bias is filled for a
rectifier behind the node or consists of zeros, and nothing else is changed. -/
structure BiasedAt (n : Network) (value : Float32) (made final : Store) (v : Nat) (layer : Layer) :
    Prop where
  weights : ∀ id ∈ layer.parameters, layer.bias? ≠ some id →
    ∃ t, made.get? id = some t ∧ final.get? id = some t
  bias : ∃ id t t', layer.bias? = some id ∧ id ∈ layer.parameters
    ∧ made.get? id = some t ∧ final.get? id = some t'
    ∧ t'.shape = t.shape ∧ t'.strides = t.strides ∧ t'.name = t.name ∧ t'.gradient = t.gradient
    ∧ t'.count = t.count
    ∧ (n.FeedsRectifier v → t'.values = Buffer.filled t.count value)
    ∧ (¬ n.FeedsRectifier v → t'.values = Buffer.filled t.count 0)

section Filled

variable {n : Network} {c : ComponentGraph} {inputShape : Shape} {start : Supply} {now : Store}
  (furnished : n.Furnished c inputShape start now) {value : Float32}
include furnished

/-- A parameter is only touched for the layer whose bias it is. -/
theorem Furnished.sole_of_rectified {v : Nat} {node : Node} (there : n.node? v = some node)
    {id : TensorId} (member : id ∈ node.layer.parameters) {layer : Layer}
    (rectified : layer ∈ n.rectified) (isBias : layer.bias? = some id) :
    layer = node.layer ∧ n.FeedsRectifier v := by
  obtain ⟨w, node', found, rfl, -, feeds⟩ := mem_rectified.mp rectified
  by_cases here : v = w
  · subst here
    cases there.symm.trans found
    exact ⟨rfl, feeds⟩
  · exact absurd (Layer.mem_parameters_of_bias? isBias)
      (List.disjoint_left.mp (furnished.apart v w node node' there found here) member)

/-- Filling touches no tensor that was there before the layers were made. -/
theorem Furnished.untouched_fillRectified :
    start.store.Untouched (n.fillRectified value now) := by
  intro id t there
  refine (get?_fillAll_of_ne fun layer member isBias => ?_).trans (furnished.kept id t there)
  obtain ⟨v, node, found, rfl, -⟩ := mem_rectified.mp member
  have new : start.store.tensors.size ≤ id.index :=
    (furnished.new v node found id (Layer.mem_parameters_of_bias? isBias)).1
  exact absurd (Store.index_lt_of_get? there) (Nat.not_lt.mpr new)

/-- What filling makes of the parameters of a layer. -/
theorem Furnished.biasedAt {v : Nat} {node : Node} (there : n.node? v = some node)
    (trainable : node.layer.isTrainable = true) {made : Store} (kept : made.Untouched now)
    {before : Store} (owns : node.layer.Owns before made) :
    n.BiasedAt value made (n.fillRectified value now) v node.layer := by
  refine ⟨fun id member other => ?_, ?_⟩
  · obtain ⟨contents, adds⟩ := owns.adds
    obtain ⟨t, found⟩ := adds.exists_tensor member
    refine ⟨t, found, (get?_fillAll_of_ne fun layer rectified isBias => ?_).trans (kept id t found)⟩
    obtain ⟨rfl, -⟩ := furnished.sole_of_rectified there member rectified isBias
    exact other isBias
  · obtain ⟨id, isBias⟩ := Option.isSome_iff_exists.mp
      ((Layer.isSome_bias?_iff node.layer).trans trainable)
    have member := Layer.mem_parameters_of_bias? isBias
    obtain ⟨_, content, zeros⟩ := owns.bias id isBias
    obtain ⟨t, found, rfl⟩ := Option.map_eq_some_iff.mp content
    by_cases feeds : n.FeedsRectifier v
    · have rectified : node.layer ∈ n.rectified :=
        mem_rectified.mpr ⟨v, node, there, rfl, trainable, feeds⟩
      obtain ⟨buffer, last⟩ := get?_fillAll value (kept id t found) ⟨_, rectified, isBias⟩
      refine ⟨id, t, { t with values := Buffer.filled t.values.size value, buffer }, isBias, member,
        found, last, rfl, rfl, rfl, rfl, ?_, fun _ => rfl, fun not => absurd feeds not⟩
      simp [Content.count, Buffer.filled]
    · refine ⟨id, t, t, isBias, member, found, ?_, rfl, rfl, rfl, rfl, rfl,
        fun fed => absurd fed feeds, fun _ => zeros⟩
      refine (get?_fillAll_of_ne fun layer rectified isBias => ?_).trans (kept id t found)
      exact feeds (furnished.sole_of_rectified there member rectified isBias).2

end Filled

/-- In a compiled network every bias has the rectifiers' bias for its elements if its layer is
directly in front of a rectifier, and zeros otherwise; all else is as the constructors made it, and
tensors that were there before are as they were. -/
theorem biased_of_compile {text : String} {options : Options} {store store' : Store} {n : Network}
    (compiled : compile text options store = .ok (n, store')) :
    ∃ c, componentsOf text = .ok c ∧ store.Untouched store'
      ∧ ∀ v node, n.node? v = some node → node.layer.isTrainable = true →
        ∃ turn : Construction c.graph options.inputShape ⟨store, Generator.ofSeed options.seed⟩
            c.graph.executionOrder v,
          turn.component.key = node.key ∧ turn.layer = node.layer
            ∧ n.BiasedAt options.rectifierBias turn.after.store store' v node.layer := by
  obtain ⟨c, components, rest⟩ := Outcome.bind_eq_ok_iff.mp compiled
  obtain ⟨⟨n', supply⟩, built, made⟩ := Outcome.bind_eq_ok_iff.mp rest
  cases made
  obtain ⟨now, furnished, filled⟩ := furnished_of_build
    (runnable_of_componentsOf components).dag.wellFormed built
  rw [filled]
  refine ⟨c, components, furnished.untouched_fillRectified, fun v node there trainable => ?_⟩
  obtain ⟨turn, same, key, kept⟩ := furnished.turns v node there trainable
  exact ⟨turn, key, same, furnished.biasedAt there trainable kept (same ▸ turn.owns)⟩

/-- Of two layers with a rectifier between them, the first gets its bias. -/
theorem biased_of_compile_chain : ∃ n store' first last,
    compile "2N~RELU~1N" ⟨false, false, [2], .relu, .squared, 0.5, 0⟩ .empty = .ok (n, store')
      ∧ n.nodes.map (fun node => node.layer.bias?) = [some ⟨1⟩, none, some ⟨3⟩]
      ∧ n.graph.edges = [(1, 2), (0, 1)]
      ∧ store'.get? ⟨1⟩ = some first ∧ first.values = Buffer.filled first.count 0.5
      ∧ store'.get? ⟨3⟩ = some last ∧ last.values = Buffer.filled last.count 0 := by
  have read : readArchitecture "2N~RELU~1N"
      = .ok [.chain [.token "2N", .token "RELU", .token "1N"]] := rfl
  have compiles : (compile "2N~RELU~1N" ⟨false, false, [2], .relu, .squared, 0.5, 0⟩
      .empty).toOption.any (fun built =>
        built.1.nodes.map (fun node => node.layer.bias?) == [some ⟨1⟩, none, some ⟨3⟩]
        && built.1.graph.edges == [(1, 2), (0, 1)]
        && built.1.layerIs Layer.isTrainable 0 && built.1.layerIs isRectifier 1
        && built.1.layerIs Layer.isTrainable 2) = true := by
    unfold compile componentsOf
    rw [read]
    unfold ComponentGraph.normalize ComponentGraph.splitFanOut ComponentGraph.joinFanIn
      ComponentGraph.build buildNetwork buildLayer placementOf
    simp only [Digraph.predecessorsInOrder_eq_insertionSort]
    decide +kernel
  obtain ⟨⟨n, store'⟩, compiled, shown⟩ := except_exists_of_any compiles
  simp only [Bool.and_eq_true, beq_iff_eq, layerIs_iff, isRectifier_iff] at shown
  obtain ⟨⟨⟨⟨biases, edges⟩, node, there, trainable⟩, relu, there', shape, isRelu⟩, node', there'',
    trainable'⟩ := shown
  obtain ⟨c, -, -, each⟩ := biased_of_compile compiled
  have feeds : n.FeedsRectifier 0 := by
    refine ⟨1, relu, shape, ?_, there', isRelu⟩
    rw [Digraph.Adj, edges]
    simp
  have alone : ¬ n.FeedsRectifier 2 := by
    rintro ⟨w, -, -, edge, -⟩
    rw [Digraph.Adj, edges] at edge
    simp at edge
  have bias {v : Nat} {node : Node} (there : n.node? v = some node) :
      [some ⟨1⟩, none, some ⟨3⟩][v]? = some node.layer.bias? := by
    rw [node?, Digraph.label?, ← Array.getElem?_toList] at there
    rw [← biases, List.getElem?_map, nodes, there]
    rfl
  obtain ⟨turn, -, -, -, id, t, first, isFirst, -, -, found, -, -, -, -, count, fed, -⟩ :=
    each 0 node there trainable
  obtain ⟨turn', -, -, -, id', t', last, isLast, -, -, found', -, -, -, -, count', -, unfed⟩ :=
    each 2 node' there'' trainable'
  cases isFirst.symm.trans (Option.some.inj (bias there)).symm
  cases isLast.symm.trans (Option.some.inj (bias there'')).symm
  exact ⟨n, store', first, last, compiled, biases, edges, found, count ▸ fed feeds, found',
    count' ▸ unfed alone⟩

end Network

end LayerNet
