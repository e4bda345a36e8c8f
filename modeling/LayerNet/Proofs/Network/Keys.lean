import LayerNet.Network.Compile
import LayerNet.Proofs.Component.Keys
import LayerNet.Proofs.Network.Rendering

/-!
# Keys of nodes — a key denotes one layer

The nodes of a plain network have the keys of the components that they were built for
(`keys_of_buildNetwork`). A loss or a non-linearity that is added has a numbered key, and its number
is that of its node (`Network.addsNumbered_of_push`). So no two nodes of a compiled network share a
key, and the layer under a key is the layer of the one node that has it (`keys_distinct`).
-/

namespace LayerNet

namespace Network

/-- The keys of the nodes, in order. -/
def keys (n : Network) : List String := n.nodes.map Node.key

theorem length_keys (n : Network) : n.keys.length = n.nodeCount := by
  rw [keys, nodes, List.length_map, Array.length_toList]
  rfl

/-- Where no two keys are the same, the layer under a key is that of the node that has it. -/
theorem layer?_eq_some_iff {n : Network} (distinct : n.keys.Nodup) {key : String} {layer : Layer} :
    n.layer? key = some layer ↔ ∃ v, n.node? v = some ⟨key, layer⟩ := by
  have there (node : Node) : node ∈ n.nodes ↔ ∃ v, n.node? v = some node := by
    rw [nodes, Array.mem_toList_iff]
    exact Array.mem_iff_getElem?
  have named {node : Node} (found : n.nodes.find? (fun node => node.key == key) = some node) :
      node.key = key := by
    have passes := List.find?_some found
    exact beq_iff_eq.mp passes
  rw [← there, layer?, Option.map_eq_some_iff]
  constructor
  · rintro ⟨node, found, rfl⟩
    obtain rfl := named found
    exact List.mem_of_find?_eq_some found
  · intro member
    have found : (n.nodes.find? fun node => node.key == key).isSome :=
      List.find?_isSome.mpr ⟨⟨key, layer⟩, member, beq_self_eq_true key⟩
    obtain ⟨node, first⟩ := Option.isSome_iff_exists.mp found
    have same : node = ⟨key, layer⟩ := List.inj_on_of_nodup_map distinct
      (List.mem_of_find?_eq_some first) member (named first)
    exact ⟨node, first, same ▸ rfl⟩

/-! ## What is added -/

/-- An added node has a token and its number. -/
theorem addsNumbered_of_push {n n' : Network} {token : String} {layer : Layer}
    (pushed : n'.graph.vertices = n.graph.vertices.push ⟨n.addedKey token, layer⟩) :
    AddsNumbered n.keys n'.keys := by
  refine .inr ⟨token, ?_⟩
  rw [length_keys, keys, nodes, pushed, Array.toList_push, List.map_append]
  rfl

theorem addsNumbered_addLoss (loss : Loss) (n : Network) (sink : Nat) :
    AddsNumbered n.keys (n.addLoss loss sink).keys := by
  unfold addLoss
  split
  · exact .inl rfl
  · split
    · exact .inl rfl
    · exact addsNumbered_of_push rfl

theorem addsNumbered_addActivation (activation : Activation) (n : Network) (v : Nat) :
    AddsNumbered n.keys (n.addActivation activation v).keys := by
  unfold addActivation
  dsimp only
  split
  · exact .inl rfl
  · split
    · exact .inl rfl
    · exact addsNumbered_of_push (Digraph.vertices_insertAfter n.graph _ _)

end Network

/-! ## Compiled networks -/

theorem keys_of_buildNetwork {c : ComponentGraph} {inputShape : Shape} {supply supply' : Supply}
    {n : Network} (run : (buildNetwork c inputShape).run supply = .ok (n, supply')) :
    n.keys = c.keys := by
  obtain ⟨-, nodes, declared, rfl, keys, -⟩ := exists_nodes_of_buildNetwork run
  rw [Network.keys, Network.nodes, Digraph.vertices_copyWith]
  exact keys

theorem ComponentGraph.keyed_of_build {c : ComponentGraph} (keyed : Keyed c.keys)
    {options : Options} {supply supply' : Supply} {n : Network}
    (run : (c.build options).run supply = .ok (n, supply')) : Keyed n.keys := by
  obtain ⟨plain, supply₁, built, rest⟩ := Outcome.run_bind_eq_ok.mp run
  cases rest
  have plainly : Keyed plain.keys := keys_of_buildNetwork built ▸ keyed
  have ended : Keyed (if options.addLosses then plain.addLosses options.loss else plain).keys := by
    split
    · exact keyed_foldl Network.keys (Network.addsNumbered_addLoss options.loss) _ plainly
    · exact plainly
  split
  · exact keyed_foldl Network.keys (Network.addsNumbered_addActivation options.activation) _ ended
  · exact ended

/-- No two components of an architecture share a key, as it is assembled and in normal form, and no
two nodes of its networks do, whatever the options; so the layer under a key is the layer of the one
node that has it. -/
theorem keys_distinct {text : String} {statements : List Statement}
    (read : readArchitecture text = .ok statements) :
    (∀ assembled, ComponentGraph.assemble statements = .ok assembled →
      assembled.components.keys.Nodup
        ∧ ∀ normal, assembled.components.normalize = .ok normal → normal.keys.Nodup)
      ∧ ∀ options store n store', compile text options store = .ok (n, store') →
        n.keys.Nodup
          ∧ ∀ key layer, n.layer? key = some layer ↔ ∃ v, n.node? v = some ⟨key, layer⟩ := by
  have formed := isWellFormed_of_readArchitecture read
  refine ⟨fun assembled made => ?_, fun options store n store' compiled => ?_⟩
  · have keyed := ComponentGraph.keyed_of_assemble formed made
    exact ⟨keyed.nodup, fun normal done => (ComponentGraph.keyed_of_normalize keyed done).nodup⟩
  · obtain ⟨c, components, rest⟩ := Outcome.bind_eq_ok_iff.mp compiled
    obtain ⟨⟨n', supply⟩, built, same⟩ := Outcome.bind_eq_ok_iff.mp rest
    cases same
    obtain ⟨assembled, made, -, -, normal⟩ := exists_assembled_of_componentsOf components
    obtain ⟨statements', reads, made⟩ := Outcome.bind_eq_ok_iff.mp made
    obtain rfl : statements = statements' :=
      Except.ok.inj (read.symm.trans (Outcome.ofExcept_eq_ok_iff.mp reads))
    have keyed := ComponentGraph.keyed_of_normalize
      (ComponentGraph.keyed_of_assemble formed made) normal
    have distinct := (ComponentGraph.keyed_of_build keyed built).nodup
    exact ⟨distinct, fun _ _ => Network.layer?_eq_some_iff distinct⟩

/-- A name that is defined in three scopes names three components. -/
theorem keys_distinct_shadowed : ∃ statements assembled normal n store',
    readArchitecture "A=RELU,A~\x7bA=2N,A,TANH\x7d~\x7bA=SIGMOID,A\x7d" = .ok statements
      ∧ ComponentGraph.assemble statements = .ok assembled
      ∧ assembled.components.normalize = .ok normal
      ∧ compile "A=RELU,A~\x7bA=2N,A,TANH\x7d~\x7bA=SIGMOID,A\x7d"
        ⟨true, true, [1], .relu, .squared, 0, 0⟩ .empty = .ok (n, store')
      ∧ n.keys = ["A", "A#1", "TANH#2", "A#3", "SPLIT#4", "CONCAT#5", "L2#6", "RELU#7"]
      ∧ assembled.components.keys.Nodup ∧ normal.keys.Nodup ∧ n.keys.Nodup
      ∧ ∀ key layer, n.layer? key = some layer ↔ ∃ v, n.node? v = some ⟨key, layer⟩ := by
  have compiles : (compile "A=RELU,A~\x7bA=2N,A,TANH\x7d~\x7bA=SIGMOID,A\x7d"
      ⟨true, true, [1], .relu, .squared, 0, 0⟩ .empty).toOption.any (fun built =>
        built.1.keys == ["A", "A#1", "TANH#2", "A#3", "SPLIT#4", "CONCAT#5", "L2#6", "RELU#7"])
      = true := by
    unfold compile componentsOf ComponentGraph.normalize ComponentGraph.splitFanOut
      ComponentGraph.joinFanIn ComponentGraph.build buildNetwork buildLayer placementOf
      Network.addActivations Network.addActivation Digraph.insertAfter Digraph.insertBefore
    simp only [Digraph.successorsInOrder_eq_insertionSort,
      Digraph.predecessorsInOrder_eq_insertionSort]
    decide +kernel
  obtain ⟨⟨n, store'⟩, compiled, shown⟩ := except_exists_of_any compiles
  obtain ⟨c, components, -⟩ := Outcome.bind_eq_ok_iff.mp compiled
  obtain ⟨assembled, made, -, -, normal⟩ := exists_assembled_of_componentsOf components
  obtain ⟨statements, reads, made⟩ := Outcome.bind_eq_ok_iff.mp made
  have read := Outcome.ofExcept_eq_ok_iff.mp reads
  obtain ⟨before, after⟩ := keys_distinct read
  obtain ⟨assembledKeys, normalKeys⟩ := before assembled made
  obtain ⟨networkKeys, denotes⟩ := after _ _ n store' compiled
  exact ⟨statements, assembled, c, n, store', read, made, normal, compiled, beq_iff_eq.mp shown,
    assembledKeys, normalKeys c normal, networkKeys, denotes⟩

end LayerNet
