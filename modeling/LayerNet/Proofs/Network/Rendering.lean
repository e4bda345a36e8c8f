import LayerNet.Proofs.Blueprint.Token
import LayerNet.Proofs.Network.Build
import LayerNet.Proofs.Network.Tracing

/-!
# Rendering — a canonical architecture is what its network is written as

Compilation turns a canonical text into a network, and rendering turns the network back into the
text (`Network.architecture_of_compile`). Every part of it is a module of its own: the text is read
as its items, the items are laid out as components, normalization frames and expands them, every
layer writes the token of its component, and the path through the network goes down the items.
-/

namespace LayerNet

/-! ## The network shows its components -/

/-- Layers so far are made of the blueprints of their components. -/
def Layers.AreMadeOf (layers : Layers) (g : Digraph Component) (s : Store) : Prop :=
  ∀ v layer, layers.lookup v = some layer →
    ∃ component, g.label? v = some component ∧ layer.MadeOf s component.blueprint

namespace Layers.AreMadeOf

variable {g : Digraph Component} {inputShape : Shape} {built built' : Layers × Shape}
  {supply supply' : Supply}

theorem buildLayer (made : built.1.AreMadeOf g supply.store) {v : Nat}
    (run : (LayerNet.buildLayer g inputShape built v).run supply = .ok (built', supply')) :
    supply.store.Evolves supply'.store ∧ built'.1.AreMadeOf g supply'.store := by
  unfold LayerNet.buildLayer at run
  cases label : g.label? v with
  | none =>
    rw [label] at run
    cases run
    exact ⟨.refl _, made⟩
  | some component =>
    rw [label] at run
    dsimp only at run
    obtain ⟨placement, supply₁, placed, rest⟩ := Outcome.run_bind_eq_ok.mp run
    obtain ⟨-, rfl⟩ := Compiling.run_lift_eq_ok placed
    obtain ⟨layer, supply₂, new, last⟩ := Outcome.run_bind_eq_ok.mp rest
    cases last
    obtain ⟨evolves, suits⟩ := component.blueprint.instantiate_makes placement _ _ _ rfl
      (Compiling.run_ofBuilding_eq_ok new)
    refine ⟨evolves, fun w other found => ?_⟩
    by_cases same : w = v
    · subst same
      rw [List.lookup_cons_self] at found
      cases found
      exact ⟨component, label, suits⟩
    · rw [lookup_cons_ne layer same] at found
      obtain ⟨component', label', old⟩ := made w other found
      exact ⟨component', label', old.evolves evolves⟩

theorem foldlM {order : List Nat} (run : (order.foldlM (LayerNet.buildLayer g inputShape) built).run
      supply = .ok (built', supply')) (made : built.1.AreMadeOf g supply.store) :
    supply.store.Evolves supply'.store ∧ built'.1.AreMadeOf g supply'.store := by
  induction order generalizing built supply with
  | nil =>
    cases run
    exact ⟨.refl _, made⟩
  | cons v order ih =>
    rw [List.foldlM_cons] at run
    obtain ⟨built₁, supply₁, first, run⟩ := Outcome.run_bind_eq_ok.mp run
    obtain ⟨evolves, made₁⟩ := made.buildLayer first
    obtain ⟨evolves', made'⟩ := ih run made₁
    exact ⟨evolves.trans evolves', made'⟩

end Layers.AreMadeOf

/-- The plain network of a component graph has its edges and keys, and layers made of its
blueprints. -/
theorem exists_nodes_of_buildNetwork {c : ComponentGraph} {inputShape : Shape}
    {supply supply' : Supply} {n : Network}
    (run : (buildNetwork c inputShape).run supply = .ok (n, supply')) :
    supply.store.Evolves supply'.store ∧ ∃ (nodes : List Node) (declared : Shape),
      n = ⟨c.graph.copyWith nodes.toArray, declared⟩
        ∧ nodes.map Node.key = c.graph.vertices.toList.map Component.key
        ∧ ∀ v component, c.graph.label? v = some component →
          ∃ node, n.node? v = some node ∧ node.layer.MadeOf supply'.store component.blueprint := by
  obtain ⟨layers, declared, nodes, ran, rfl, keys, layerOf⟩ := exists_layers_of_buildNetwork run
  obtain ⟨evolves, made⟩ := Layers.AreMadeOf.foldlM ran fun v layer absurd => nomatch absurd
  refine ⟨evolves, nodes, declared, rfl, keys, fun v component label => ?_⟩
  have inside : v < nodes.length := length_of_keys keys ▸ (Array.getElem?_eq_some_iff.mp label).1
  have found : nodes[v]? = some nodes[v] := List.getElem?_eq_getElem inside
  obtain ⟨component', label', suits⟩ := made v _ (layerOf v _ found)
  obtain rfl := Option.some.inj (label'.symm.trans label)
  refine ⟨nodes[v], ?_, suits⟩
  rw [Network.node?, Digraph.label?, c.graph.vertices_copyWith, List.getElem?_toArray, found]

/-- Without additions, the network of a component graph shows it. -/
theorem ComponentGraph.shows_of_build {c : ComponentGraph} (wf : c.graph.WellFormed)
    {options : Options} (noActivations : options.addActivations = false)
    (noLosses : options.addLosses = false) {supply supply' : Supply}
    (sound : supply.store.WellFormed) {n : Network}
    (run : (c.build options).run supply = .ok (n, supply')) :
    n.Shows supply'.store c ∧ n.nodeCount = c.size := by
  obtain ⟨plain, supply₁, built, rest⟩ := Outcome.run_bind_eq_ok.mp run
  simp only [noActivations, noLosses, Bool.false_eq_true, if_false] at rest
  cases rest
  obtain ⟨evolves, nodes, declared, same, keys, there⟩ := exists_nodes_of_buildNetwork built
  have filled := n.evolves_fillRectified options.rectifierBias supply₁.store
  have graph : n.graph = c.graph.copyWith nodes.toArray := by rw [same]
  have size : nodes.toArray.size = c.graph.size := by rw [List.size_toArray, length_of_keys keys]
  refine ⟨⟨?_, ?_, fun v split => ?_, fun v concat => ?_,
    fun v component text label own read => ?_⟩, ?_⟩
  · rw [graph]
    exact c.graph.wellFormed_copyWith wf _ size
  · rw [graph]
    exact Digraph.adj_copyWith wf _
  · obtain ⟨component, label, is⟩ := split
    obtain ⟨node, found, suits⟩ := there v component label
    exact ⟨node, found, suits.kind_iff.1.mpr is⟩
  · obtain ⟨component, label, is⟩ := concat
    obtain ⟨node, found, suits⟩ := there v component label
    exact ⟨node, found, suits.kind_iff.2.mpr is⟩
  · obtain ⟨node, found, suits⟩ := there v component label
    have last := filled.wellFormed (evolves.wellFormed sound)
    exact ⟨node, found, own.token_eq_ok read last (suits.evolves filled)⟩
  · rw [Network.nodeCount, Digraph.size, graph, c.graph.vertices_copyWith]
    exact size

/-! ## The network is written as its items -/

namespace Network

open Item ComponentGraph

/-- A network that shows a graph with one root begins at the node of a component that no edge
enters. -/
theorem Shows.roots_eq {n : Network} {store : Store} {b c : ComponentGraph}
    {behind front : Nat → Nat} (traced : Traced n store b c behind front)
    (size : n.nodeCount = b.size) (one : b.graph.HasOneRoot) {root : Nat} (inside : root < c.size)
    (alone : ∀ u, ¬ c.graph.Adj u root) : ∃ rest, n.graph.roots = root :: rest := by
  have fixed : front root = root :=
    traced.expands.front_eq_of_single (u := 0) fun w edge => absurd edge (alone w)
  have unentered (u : Nat) : ¬ b.graph.Adj u root := by
    intro edge
    rw [← fixed] at edge
    obtain ⟨v, edge, -⟩ := (traced.expands.enters root inside u).mp edge
    exact alone v edge
  have late : root < b.size := Nat.lt_of_lt_of_le inside traced.expands.larger.size_le
  have member : root ∈ n.graph.roots := by
    rw [Digraph.mem_roots_iff]
    exact ⟨Nat.lt_of_lt_of_eq late size.symm, fun u edge =>
      unentered u ((traced.shows.adj_iff u root).mp edge)⟩
  cases roots : n.graph.roots with
  | nil =>
    rw [roots] at member
    cases member
  | cons first rest =>
    have root' : first ∈ n.graph.roots := roots ▸ List.mem_cons_self
    obtain ⟨inside', alone'⟩ := (Digraph.mem_roots_iff _ _).mp root'
    have unentered' (u : Nat) : ¬ b.graph.Adj u first := fun edge =>
      alone' u ((traced.shows.adj_iff u first).mpr edge)
    have same : first = root :=
      one.unique ⟨Nat.lt_of_lt_of_eq inside' size, unentered'⟩ ⟨late, unentered⟩
    exact ⟨rest, congrArg (· :: rest) same⟩

/-- The network of a canonical architecture is written as that architecture. -/
theorem architecture_of_compile {items : List Item} (canonical : CanonicalItems items)
    {options : Options} (noActivations : options.addActivations = false)
    (noLosses : options.addLosses = false) {store store' : Store} (sound : store.WellFormed)
    {n : Network} (compiled : compile (Item.architecture items) options store = .ok (n, store')) :
    n.architecture store' = .ok (Item.architecture items) := by
  obtain ⟨normal, read, rest⟩ := Outcome.bind_eq_ok_iff.mp compiled
  obtain ⟨⟨n', supply⟩, built, made⟩ := Outcome.bind_eq_ok_iff.mp rest
  cases made
  have runnable := runnable_of_componentsOf read
  have some : items ≠ [] := by
    rintro rfl
    cases read
  obtain ⟨statements, parsed, rest⟩ := Outcome.bind_eq_ok_iff.mp read
  rw [readArchitecture_architecture some canonical] at parsed
  cases parsed
  obtain ⟨assembled, laid, normalized⟩ := Outcome.bind_eq_ok_iff.mp rest
  have normalized : assembled.components.normalize = .ok normal := by
    cases done : assembled.components.normalize with
    | error cause =>
      rw [done] at normalized
      cases normalized
    | ok normal' =>
      rw [done] at normalized
      cases normalized
      rfl
  obtain ⟨c, opening, closing, behind, front, framed, dag, larger, named, expands⟩ :=
    exists_framed some canonical laid normalized
  obtain ⟨shows, size⟩ :=
    shows_of_build runnable.dag.wellFormed noActivations noLosses sound built
  have traced : Traced n supply.store normal c behind front := ⟨shows, expands, dag⟩
  obtain ⟨root, inside, alone, drawn⟩ := traced.exists_drawn some canonical framed named
  obtain ⟨others, roots⟩ := Shows.roots_eq traced size runnable.root inside alone
  have enough : widthAll items < n.nodeCount + 1 := by
    have := expands.larger.size_le
    omega
  have path := pathFrom_items items canonical drawn enough
  rw [architecture, roots]
  exact Outcome.bind_eq_ok_iff.mpr ⟨_, path, rfl⟩

/-- The tokens of non-linearities are layer tokens. -/
theorem isLayerToken_activation (a : Activation) : IsLayerToken a.token := by
  have read : Blueprint.read? a.token = some (.activation a) := by
    cases a <;> rfl
  have named : Reader.isName a.token.toList := by
    cases a <;> decide
  exact ⟨(Reader.isName_iff.mp named).isToken, .activation a, ⟨[[2]], 1, false⟩,
    ⟨.empty, Generator.ofSeed 0⟩, .activation a [2], ⟨.empty, Generator.ofSeed 0⟩, read, rfl, rfl,
    Store.wellFormed_empty, rfl, rfl⟩

/-- A module whose branches end in a module that is closed and in one that is left open. -/
theorem architecture_of_compile_nested : ∃ n store',
    compile "RELU,\x7bTANH~\x7bRELU,TANH\x7d~SIGMOID,RELU~\x7bTANH,SOFTMAX\x7d\x7d"
        { Options.standard with addActivations := false, addLosses := false, inputShape := [2] }
        .empty = .ok (n, store')
      ∧ n.architecture store'
        = .ok "RELU,\x7bTANH~\x7bRELU,TANH\x7d~SIGMOID,RELU~\x7bTANH,SOFTMAX\x7d\x7d" := by
  obtain ⟨items, same⟩ : ∃ items : List Item, items = [.token "RELU", .module [
      [.token "TANH", .module [[.token "RELU"], [.token "TANH"]], .token "SIGMOID"],
      [.token "RELU", .module [[.token "TANH"], [.token "SOFTMAX"]]]]] := ⟨_, rfl⟩
  have text : "RELU,\x7bTANH~\x7bRELU,TANH\x7d~SIGMOID,RELU~\x7bTANH,SOFTMAX\x7d\x7d"
      = Item.architecture items := by
    rw [same]
    rfl
  have canonical : CanonicalItems items := by
    have relu : IsLayerToken "RELU" := isLayerToken_activation .relu
    have tanh : IsLayerToken "TANH" := isLayerToken_activation .tanh
    have sigmoid : IsLayerToken "SIGMOID" := isLayerToken_activation .sigmoid
    have softmax : IsLayerToken "SOFTMAX" := isLayerToken_activation .softmax
    simp [same, CanonicalItems, CanonicalBranches, Canonical, BeginsWithToken, IsModule, relu, tanh,
      sigmoid, softmax]
  rw [text]
  obtain ⟨n, store', compiled⟩ : ∃ n store', compile (Item.architecture items)
      { Options.standard with addActivations := false, addLosses := false, inputShape := [2] }
      .empty = .ok (n, store') := by
    have passes : (compile (Item.architecture items)
        { Options.standard with addActivations := false, addLosses := false, inputShape := [2] }
        .empty).toOption.isSome = true := by
      unfold compile componentsOf
      rw [readArchitecture_architecture (by rw [same]; exact List.cons_ne_nil _ _) canonical, same]
      unfold ComponentGraph.normalize splitFanOut joinFanIn Digraph.insertAfter
        Digraph.insertBefore build buildNetwork buildLayer placementOf
      simp only [Digraph.successorsInOrder_eq_insertionSort,
        Digraph.predecessorsInOrder_eq_insertionSort]
      decide +kernel
    cases result : compile (Item.architecture items)
        { Options.standard with addActivations := false, addLosses := false, inputShape := [2] }
        .empty with
    | error failure =>
      rw [result] at passes
      cases passes
    | ok built => exact ⟨built.1, built.2, rfl⟩
  exact ⟨n, store', compiled,
    architecture_of_compile canonical rfl rfl Store.wellFormed_empty compiled⟩

end Network

end LayerNet
