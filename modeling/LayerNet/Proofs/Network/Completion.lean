import LayerNet.Proofs.Network.Grafting
import LayerNet.Proofs.Network.Seeding

/-!
# Completed networks — what compilation adds, and nothing else

The network that is built for a component graph mirrors it (`Network.Mirrors`), and what the options
ask for is grafted onto that (`Network.exists_grafts`). So a compiled network is completed
(`completed_of_compile`): with losses every sink is one, and seeding is never refused as
unsupported; with non-linearities one, or a loss, follows the place of every fully connected layer
and of every convolution. When the losses that were added are deleted and the non-linearities that
were added are contracted into what feeds them, the components and their edges are left; and the
result has no cycle, one root, no edge twice, and splits that give one tensor for each edge.
-/

namespace LayerNet

open LayerNet.Digraph

/-- A layer that options ask for: the default loss, or the default non-linearity. -/
def Options.Adds (options : Options) (layer : Layer) : Prop :=
  (options.addLosses = true ∧ ∃ shape, layer = .loss options.loss shape)
    ∨ (options.addActivations = true ∧ ∃ shape, layer = .activation options.activation shape)

namespace Network

/-- Whether a node from `k` on is a loss. -/
def isLateLoss (n : Network) (k v : Nat) : Bool :=
  k ≤ v && n.layerIs (fun layer => layer.kind = .loss) v

/-- Whether a node from `k` on is a non-linearity. -/
def isLateActivation (n : Network) (k v : Nat) : Bool :=
  k ≤ v && n.layerIs (fun layer => layer.kind = .activation) v

/-- A network has the components of a graph and what the options promise, and nothing else. -/
structure Completed (c : ComponentGraph) (options : Options) (s : Store) (n : Network) : Prop where
  /-- With losses, every sink is one. -/
  ends : options.addLosses = true → n.EndsInLosses
  /-- So seeding is never refused as unsupported, with one output and one target for each sink. -/
  supported : options.addLosses = true → ∀ outputs targets : List TensorId,
    outputs.length = n.sinks.length → targets.length = n.sinks.length → ∀ m reason,
      ((n.seedLoss outputs targets).run m).1 ≠ .error (.error (.unsupported reason))
  /-- With non-linearities, one or a loss follows the place of every fully connected layer and of
  every convolution. -/
  settled : options.addActivations = true → ∀ v node, n.node? v = some node →
    node.layer.kind = .fullyConnected ∨ node.layer.kind = .convolution → n.Settled v
  /-- The first nodes are the components, under their keys. -/
  components : ∀ v component, c.graph.label? v = some component →
    ∃ node, n.node? v = some node ∧ node.key = component.key
      ∧ node.layer.MadeOf s component.blueprint
  /-- The others are what the options ask for, each the only node behind one of the first. -/
  added : ∀ v, c.size ≤ v → v < n.nodeCount →
    (∃ node, n.node? v = some node ∧ options.Adds node.layer)
      ∧ ∃ p < c.size, n.graph.predecessors v = [p] ∧ n.graph.successors p = [v]
  /-- Without late losses, and with late non-linearities contracted, the nodes of the components are
  left. -/
  nodes : (List.range n.nodeCount).filter
    (fun v => !n.isLateLoss c.size v && !n.isLateActivation c.size v) = List.range c.size
  /-- And so are their edges. -/
  edges : (n.graph.pruned (n.isLateLoss c.size) (n.isLateActivation c.size)).Perm c.graph.edges
  acyclic : n.graph.Acyclic
  simple : n.graph.edges.Nodup
  root : n.graph.HasOneRoot
  /-- A split gives one tensor for each edge that leaves it, and one at a sink. -/
  splits : ∀ v key branches shape, n.node? v = some ⟨key, .split branches shape⟩ →
    branches = max (n.graph.outDegree v) 1

theorem kind_of_adds {options : Options} {layer : Layer} (adds : options.Adds layer) :
    layer.kind = .loss ∨ layer.kind = .activation := by
  rcases adds with ⟨-, shape, rfl⟩ | ⟨-, shape, rfl⟩
  · exact .inl rfl
  · exact .inr rfl

theorem isActivationOrLoss_of_adds {options : Options} (layer : Layer) (adds : options.Adds layer) :
    isActivationOrLoss layer = true :=
  kind_of_isActivationOrLoss.mpr (kind_of_adds adds).symm

/-- The numbers below a bound that are kept are those below a smaller one. -/
theorem filter_range {k m : Nat} (le : k ≤ m) {keep : Nat → Bool} (low : ∀ v < k, keep v = true)
    (high : ∀ v, k ≤ v → v < m → keep v = false) : (List.range m).filter keep = List.range k := by
  obtain ⟨d, rfl⟩ := Nat.exists_eq_add_of_le le
  have kept : (List.range k).filter keep = List.range k :=
    List.filter_eq_self.mpr fun v member => low v (List.mem_range.mp member)
  have dropped : ((List.range d).map (k + ·)).filter keep = [] := by
    rw [List.filter_eq_nil_iff]
    intro v member
    obtain ⟨i, small, rfl⟩ := List.mem_map.mp member
    have small := List.mem_range.mp small
    rw [high (k + i) (by omega) (by omega)]
    exact Bool.false_ne_true
  rw [List.range_add, List.filter_append, kept, dropped, List.append_nil]

theorem not_isLate {n : Network} {k v : Nat} (before : v < k) :
    n.isLateLoss k v = false ∧ n.isLateActivation k v = false := by
  unfold isLateLoss isLateActivation
  rw [decide_eq_false (Nat.not_le.mpr before)]
  exact ⟨rfl, rfl⟩

section Late

variable {plain n : Network} {options : Options} (grafts : plain.Grafts options.Adds n)
include grafts

/-- What was added is a late loss or a late non-linearity. -/
theorem Grafts.isLate {v : Nat} (late : plain.graph.size ≤ v) (below : v < n.graph.size) :
    n.isLateLoss plain.graph.size v = true ∨ n.isLateActivation plain.graph.size v = true := by
  obtain ⟨node, label⟩ : ∃ node, n.node? v = some node := ⟨_, Array.getElem?_eq_getElem below⟩
  unfold isLateLoss isLateActivation
  rw [decide_eq_true late, Bool.true_and, Bool.true_and, layerIs, layerIs, label]
  exact (kind_of_adds (grafts.added v node late label)).imp decide_eq_true decide_eq_true

/-- The nodes of the plain network are left. -/
theorem Grafts.nodes : (List.range n.nodeCount).filter
    (fun v => !n.isLateLoss plain.graph.size v && !n.isLateActivation plain.graph.size v)
      = List.range plain.graph.size := by
  refine filter_range grafts.graph.later (fun v before => ?_) fun v late below => ?_
  · rw [(not_isLate before).1, (not_isLate before).2]
    rfl
  · rcases grafts.isLate late below with isLoss | isActivation
    · rw [isLoss]
      rfl
    · rw [isActivation, Bool.not_true, Bool.and_false]

/-- The edges of the plain network are left. -/
theorem Grafts.edges (wf : plain.graph.WellFormed) :
    (n.graph.pruned (n.isLateLoss plain.graph.size) (n.isLateActivation plain.graph.size)).Perm
      plain.graph.edges := by
  refine grafts.graph.pruned_perm (fun v before => not_isLate before) (fun v w isLoss => ?_)
    (fun v late below noLoss => ?_) wf
  · obtain ⟨late, isLoss⟩ := Bool.and_eq_true_iff.mp isLoss
    obtain ⟨node, label, kind⟩ := layerIs_iff.mp isLoss
    exact grafts.ends v node (of_decide_eq_true late) label (of_decide_eq_true kind) w
  · exact (grafts.isLate late below).resolve_left (Bool.eq_false_iff.mp noLoss)

end Late

/-- What the options ask for is added to a plain network. -/
theorem exists_grafts {plain : Network} (wf : plain.graph.WellFormed) (options : Options)
    {n : Network} (made : n = (if options.addActivations then
      (if options.addLosses then plain.addLosses options.loss else plain).addActivations
        options.activation
      else if options.addLosses then plain.addLosses options.loss else plain)) :
    plain.Grafts options.Adds n ∧ (options.addLosses = true → n.EndsInLosses)
      ∧ (options.addActivations = true → ∀ v,
        plain.layerIs Layer.needsActivation v = true → n.Settled v) := by
  obtain ⟨ended, is⟩ :
      ∃ ended, ended = if options.addLosses then plain.addLosses options.loss else plain := ⟨_, rfl⟩
  obtain ⟨grafts, ends⟩ :
      plain.Grafts options.Adds ended ∧ (options.addLosses = true → ended.EndsInLosses) := by
    rw [is]
    split
    next losses =>
      exact ⟨(Grafts.addLosses wf).mono fun _ isLoss => .inl ⟨losses, isLoss⟩,
        fun _ => endsInLosses_addLosses options.loss wf⟩
    next noLosses => exact ⟨.refl wf, fun losses => absurd losses noLosses⟩
  rw [← is] at made
  split at made
  next activations =>
    obtain ⟨grafts', settles, keeps⟩ := grafts.addActivations isActivationOrLoss_of_adds
      fun shape => .inr ⟨activations, shape, rfl⟩
    rw [made]
    exact ⟨grafts', fun losses => keeps (ends losses), fun _ => settles⟩
  next noActivations =>
    rw [made]
    exact ⟨grafts, ends, fun activations => absurd activations noActivations⟩

/-- A network has the nodes and edges of a component graph, and no others. -/
structure Mirrors (c : ComponentGraph) (s : Store) (plain : Network) : Prop where
  wellFormed : plain.graph.WellFormed
  size : plain.graph.size = c.size
  adj : ∀ u v, plain.graph.Adj u v ↔ c.graph.Adj u v
  components : ∀ v component, c.graph.label? v = some component →
    ∃ node, plain.node? v = some node ∧ node.key = component.key
      ∧ node.layer.MadeOf s component.blueprint

theorem mirrors_of_buildNetwork {c : ComponentGraph} (wf : c.graph.WellFormed) {inputShape : Shape}
    {supply supply' : Supply} {plain : Network}
    (run : (buildNetwork c inputShape).run supply = .ok (plain, supply')) :
    plain.Mirrors c supply'.store := by
  obtain ⟨-, nodes, declared, same, keys, there⟩ := exists_nodes_of_buildNetwork run
  have graph : plain.graph = c.graph.copyWith nodes.toArray := by rw [same]
  have sized : nodes.toArray.size = c.graph.size := by rw [List.size_toArray, length_of_keys keys]
  refine ⟨?_, ?_, ?_, fun v component label => ?_⟩
  · rw [graph]
    exact wellFormed_copyWith wf _ sized
  · rw [Digraph.size, graph, vertices_copyWith]
    exact sized
  · rw [graph]
    exact adj_copyWith wf _
  · obtain ⟨node, found, suits⟩ := there v component label
    refine ⟨node, found, ?_, suits⟩
    rw [Network.node?, Digraph.label?, graph, vertices_copyWith, List.getElem?_toArray] at found
    have key := congrArg (fun keys => keys[v]?) keys
    rw [Digraph.label?] at label
    rw [List.getElem?_map, List.getElem?_map, found, Array.getElem?_toList, label] at key
    exact Option.some.inj key

theorem Mirrors.hasOneRoot {c : ComponentGraph} {s : Store} {plain : Network}
    (mirrors : plain.Mirrors c s) (one : c.graph.HasOneRoot) : plain.graph.HasOneRoot := by
  unfold HasOneRoot at one ⊢
  simp only [mirrors.size, mirrors.adj]
  exact one

/-- The network that is built for a normal graph is completed. -/
theorem completed_of_build {c : ComponentGraph} (runnable : c.Runnable) {options : Options}
    {supply supply' : Supply} {n : Network}
    (run : (c.build options).run supply = .ok (n, supply')) :
    n.Completed c options supply'.store := by
  have fit := (ComponentGraph.fit_of_build runnable run).2
  have cwf := runnable.dag.wellFormed
  obtain ⟨plain, supply₁, plainly, rest⟩ := Outcome.run_bind_eq_ok.mp run
  have mirrors := mirrors_of_buildNetwork cwf plainly
  have wf := mirrors.wellFormed
  have size := mirrors.size
  obtain ⟨n', made⟩ : ∃ n' : Network, n' = (if options.addActivations then
      (if options.addLosses then plain.addLosses options.loss else plain).addActivations
        options.activation
      else if options.addLosses then plain.addLosses options.loss else plain) := ⟨_, rfl⟩
  dsimp only at rest
  rw [← made] at rest
  cases rest
  obtain ⟨grafts, ends, settles⟩ := exists_grafts wf options made
  constructor
  case ends => exact ends
  case supported =>
    intro losses outputs targets counts counts' m reason failed
    refine seedLoss_supported (fun sink member => ?_) counts counts' _ failed reason rfl
    obtain ⟨node, label, kind⟩ := layerIs_iff.mp (ends losses sink member)
    obtain ⟨loss, isLoss⟩ := Option.isSome_iff_exists.mp
      (kind_of_isSome_loss?.mpr (of_decide_eq_true kind))
    exact ⟨node, loss, label, isLoss⟩
  case settled =>
    intro activations v node label kind
    have asks := layerIs_iff.mpr ⟨node, label, needsActivation_of_kind kind⟩
    exact settles activations v ((grafts.asks_iff isActivationOrLoss_of_adds).mp asks)
  case components =>
    intro v component label
    obtain ⟨node, found, key, suits⟩ := mirrors.components v component label
    exact ⟨node, (grafts.keeps v (lt_of_node? found)).trans found, key,
      suits.evolves (n.evolves_fillRectified options.rectifierBias supply₁.store)⟩
  case added =>
    intro v late below
    rw [← size] at late ⊢
    obtain ⟨node, label⟩ : ∃ node, n.node? v = some node := ⟨_, Array.getElem?_eq_getElem below⟩
    obtain ⟨p, before, entered, left⟩ := grafts.graph.behind v late below
    have wf' := grafts.graph.wellFormed
    exact ⟨⟨node, label, grafts.added v node late label⟩, p, before,
      wf'.predecessors_eq_singleton_iff.mpr entered, wf'.successors_eq_singleton_iff.mpr left⟩
  case nodes => exact size ▸ grafts.nodes
  case edges => exact size ▸ (grafts.edges wf).trans (perm_edges cwf wf mirrors.adj)
  case acyclic => exact fit.dag.acyclic
  case simple => exact fit.dag.wellFormed.simple
  case root => exact grafts.graph.hasOneRoot wf (mirrors.hasOneRoot runnable.root)
  case splits => exact fun v key branches shape label => fit.counts v _ label

/-- What compilation adds is what it promises: with losses every sink is one, with non-linearities
every fully connected layer and every convolution has one, or a loss, and without what was added
there are the components of the text and their edges. -/
theorem completed_of_compile {text : String} {options : Options} {store store' : Store}
    {n : Network} (compiled : compile text options store = .ok (n, store')) :
    ∃ c, componentsOf text = .ok c ∧ n.Completed c options store' := by
  obtain ⟨c, components, rest⟩ := Outcome.bind_eq_ok_iff.mp compiled
  obtain ⟨⟨n', supply⟩, built, made⟩ := Outcome.bind_eq_ok_iff.mp rest
  cases made
  exact ⟨c, components, completed_of_build (runnable_of_componentsOf components) built⟩

/-- A layer that fans out gets a non-linearity in front of its split, and both branches a loss. -/
theorem completed_of_compile_fork : ∃ c n store',
    compile "A=2N,A~TANH,A~1N" ⟨true, true, [1], .relu, .squared, 0, 0⟩ .empty = .ok (n, store')
      ∧ n.nodes.map (fun node => node.layer.kind) = [.fullyConnected, .activation, .fullyConnected,
        .split, .loss, .loss, .activation]
      ∧ n.graph.edges = [(0, 6), (6, 3), (2, 5), (1, 4), (3, 2), (3, 1)]
      ∧ componentsOf "A=2N,A~TANH,A~1N" = .ok c
      ∧ n.Completed c ⟨true, true, [1], .relu, .squared, 0, 0⟩ store' := by
  have read : readArchitecture "A=2N,A~TANH,A~1N" = .ok [.define "A" [.token "2N"],
      .chain [.token "A", .token "TANH"], .chain [.token "A", .token "1N"]] := rfl
  have compiles : (compile "A=2N,A~TANH,A~1N" ⟨true, true, [1], .relu, .squared, 0, 0⟩
      .empty).toOption.any (fun built =>
        built.1.nodes.map (fun node => node.layer.kind) == [.fullyConnected, .activation,
          .fullyConnected, .split, .loss, .loss, .activation]
        && built.1.graph.edges == [(0, 6), (6, 3), (2, 5), (1, 4), (3, 2), (3, 1)]) = true := by
    unfold compile componentsOf
    rw [read]
    unfold ComponentGraph.normalize ComponentGraph.splitFanOut ComponentGraph.joinFanIn
      ComponentGraph.build buildNetwork buildLayer placementOf addActivations addActivation
      insertAfter insertBefore
    simp only [successorsInOrder_eq_insertionSort, predecessorsInOrder_eq_insertionSort]
    decide +kernel
  obtain ⟨⟨n, store'⟩, compiled, shown⟩ := except_exists_of_any compiles
  simp only [Bool.and_eq_true, beq_iff_eq] at shown
  obtain ⟨c, components, completed⟩ := completed_of_compile compiled
  exact ⟨c, n, store', compiled, shown.1, shown.2, components, completed⟩

end Network

end LayerNet
