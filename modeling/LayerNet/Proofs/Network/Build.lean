import LayerNet.Network.Compile
import LayerNet.Proofs.Blueprint.Placement
import LayerNet.Proofs.Component.NormalForm
import LayerNet.Proofs.Digraph.Execution
import LayerNet.Proofs.Network.Fit

/-!
# Built networks — what compilation leaves fits

The network of a compiled text fits the store that compilation leaves (`fit_of_compile`).

Layers are built in order of execution, and the invariant is about the ones built so far (`Built`):
they belong to a set of components that is closed under predecessors, each accepts what these give,
and none gives more tensors than there are edges for. That only splits have several edges, and that
there is one root to tell the shape of the network's input, is what normal form is for (`Runnable`).
-/

namespace LayerNet

/-- A graph to build layers for: no cycle, one root, edges enough for splits alone, and blueprints
that were read or added. -/
structure ComponentGraph.Runnable (c : ComponentGraph) : Prop where
  dag : c.graph.IsDag
  root : c.graph.HasOneRoot
  narrow : ∀ v component, c.graph.label? v = some component →
    component.blueprint.isSplit = false → c.graph.outDegree v ≤ 1
  usable : ∀ v component, c.graph.label? v = some component → component.blueprint.IsUsable

/-- The normal form of an assembled graph is one. -/
theorem ComponentGraph.runnable_of_normalize {c normal : ComponentGraph} (wf : c.WellFormed)
    (inhabited : 0 < c.size) (success : c.normalize = .ok normal) : normal.Runnable := by
  have extended := extends_normalize wf success
  obtain ⟨-, settled, root⟩ := settled_of_normalize wf inhabited success
  refine ⟨extended.dag, root, fun v component label noSplit => ?_, fun v component label => ?_⟩
  · refine Nat.le_of_not_lt fun branches => settled v ⟨?_, ?_⟩
    · rw [blueprintIs, label]
      exact noSplit
    · exact (extended.dag.wellFormed.one_lt_outDegree_iff v).mp branches
  · by_cases old : v < c.size
    · rw [extended.label?_eq old] at label
      exact Blueprint.isUsable_of_isRead (wf.read component (Array.mem_of_getElem? label))
    · exact Blueprint.isUsable_of_isRouting (extended.routing_of_le (Nat.le_of_not_lt old) label)

/-! ## Layers built so far -/

namespace Layers

/-- The shape of one sample that the layer of a component gives. -/
def shapeOf (layers : Layers) (v : Nat) : Shape :=
  ((layers.lookup v).map Layer.outputShape).getD []

/-- The shapes of one sample that arrive at a component. -/
def arriving (g : Digraph Component) (layers : Layers) (declared : Shape) (v : Nat) : List Shape :=
  shapesFrom declared layers.shapeOf (g.predecessorsInOrder v)

end Layers

/-- The layers of some components are built, all of whose predecessors are among them: every layer
accepts what arrives, and gives tensors for its edges. Before the root is built, the shape of the
network's input is the one asked for. -/
structure Built (g : Digraph Component) (inputShape : Shape) (done : List Nat)
    (built : Layers × Shape) (s : Store) : Prop where
  closed : ∀ v ∈ done, v < g.size ∧ ∀ u, g.Adj u v → u ∈ done
  covers : ∀ v, v ∈ done ↔ ∃ layer, built.1.lookup v = some layer
  accepts : ∀ v layer, built.1.lookup v = some layer →
    layer.Accepts s (built.1.arriving g built.2 v)
  counts : ∀ v layer, built.1.lookup v = some layer → layer.outputCount = max (g.outDegree v) 1
  untold : (∀ v ∈ done, (g.predecessorsInOrder v).isEmpty = false) → built.2 = inputShape

/-- The placement of a component tells what arrives there. -/
theorem placementOf_eq_ok {g : Digraph Component} {key : String} {v : Nat} {layers : Layers}
    {inputShape : Shape} {placement : Placement}
    (success : placementOf g key v layers inputShape = .ok placement) :
    placement =
      ⟨layers.arriving g inputShape v, g.outDegree v, (g.predecessorsInOrder v).isEmpty⟩ := by
  obtain ⟨shapes, found, success⟩ := Outcome.bind_eq_ok_iff.mp success
  cases success
  have same : shapes = (g.predecessorsInOrder v).map layers.shapeOf := by
    have pairs := Outcome.mapM_eq_ok_iff.mp found
    have equal : List.Forall₂ (fun p shape => layers.shapeOf p = shape)
        (g.predecessorsInOrder v) shapes := by
      refine pairs.imp fun p shape arrived => ?_
      rw [Layers.shapeOf]
      cases there : layers.lookup p with
      | none =>
        rw [there] at arrived
        cases arrived
      | some layer =>
        rw [there] at arrived
        cases arrived
        rfl
    rw [← List.forall₂_map_left_iff] at equal
    exact (List.forall₂_eq_eq_eq ▸ equal : _ = shapes).symm
  rw [same]
  rfl

theorem isEmpty_predecessorsInOrder (g : Digraph Component) (v : Nat) :
    (g.predecessorsInOrder v).isEmpty = true ↔ ∀ u, ¬ g.Adj u v := by
  rw [List.isEmpty_iff, List.eq_nil_iff_forall_not_mem]
  simp only [Digraph.mem_predecessorsInOrder]
  rfl

theorem lookup_cons_ne {layers : Layers} {v w : Nat} (layer : Layer) (other : w ≠ v) :
    List.lookup w ((v, layer) :: layers) = layers.lookup w := by
  rw [List.lookup_cons, beq_eq_false_iff_ne.mpr other]

namespace Built

variable {g : Digraph Component} {inputShape : Shape} {done : List Nat} {built : Layers × Shape}
  {s : Store}

theorem empty (g : Digraph Component) (inputShape : Shape) (s : Store) :
    Built g inputShape [] ([], inputShape) s where
  closed _ member := absurd member List.not_mem_nil
  covers _ := ⟨fun member => absurd member List.not_mem_nil, fun ⟨_, found⟩ => nomatch found⟩
  accepts _ _ found := nomatch found
  counts _ _ found := nomatch found
  untold _ := rfl

/-- At the new component, what its predecessors give arrives. -/
theorem arriving_cons_self {v : Nat} (new : v ∉ done) (entered : ∀ u, g.Adj u v → u ∈ done)
    (layers : Layers) (layer : Layer) (declared : Shape) :
    Layers.arriving g ((v, layer) :: layers) declared v = layers.arriving g declared v := by
  unfold Layers.arriving shapesFrom
  split
  · rfl
  · refine List.map_congr_left fun u before => ?_
    have edge := (Digraph.mem_predecessorsInOrder g v u).mp before
    have other : u ≠ v := fun same => new (same ▸ entered u edge)
    rw [Layers.shapeOf, lookup_cons_ne layer other, Layers.shapeOf]

section Cons

variable {c : ComponentGraph} (runnable : c.Runnable)
  (so_far : Built c.graph inputShape done built s) {v : Nat} (inside : v < c.graph.size)
  (new : v ∉ done) (layer : Layer) {declared : Shape}
include runnable so_far inside new

/-- When the root's turn comes, no root is built. -/
theorem entered_of_source (source : (c.graph.predecessorsInOrder v).isEmpty = true) :
    ∀ w ∈ done, (c.graph.predecessorsInOrder w).isEmpty = false := by
  intro w member
  by_contra root
  have root := Bool.eq_true_of_not_eq_false root
  rw [isEmpty_predecessorsInOrder] at source root
  have same := runnable.root.unique ⟨inside, source⟩ ⟨(so_far.closed w member).1, root⟩
  exact new (same ▸ member)

/-- At the components that are built, the same arrives as before. -/
theorem arriving_cons_of_mem (told : (c.graph.predecessorsInOrder v).isEmpty = false →
      declared = built.2) {w : Nat} (member : w ∈ done) :
    Layers.arriving c.graph ((v, layer) :: built.1) declared w
      = built.1.arriving c.graph built.2 w := by
  unfold Layers.arriving shapesFrom
  split
  next root =>
    cases source : (c.graph.predecessorsInOrder v).isEmpty with
    | true =>
      rw [so_far.entered_of_source runnable inside new source w member] at root
      cases root
    | false => rw [told source]
  · refine List.map_congr_left fun u before => ?_
    have edge := (Digraph.mem_predecessorsInOrder c.graph w u).mp before
    have other : u ≠ v := fun same => new (same ▸ (so_far.closed w member).2 u edge)
    rw [Layers.shapeOf, lookup_cons_ne layer other, Layers.shapeOf]

/-- The new layer accepts what arrives there: at the root, that is the shape it tells itself or the
one asked for. -/
theorem accepts_cons_self (entered : ∀ u, c.graph.Adj u v → u ∈ done) {component : Component}
    {s' : Store} (suits : component.blueprint.Suits s' ⟨built.1.arriving c.graph inputShape v,
      c.graph.outDegree v, (c.graph.predecessorsInOrder v).isEmpty⟩ layer)
    (told : declared =
      if (c.graph.predecessorsInOrder v).isEmpty && component.blueprint.isInput then
        layer.outputShape else built.2) :
    layer.Accepts s' (Layers.arriving c.graph ((v, layer) :: built.1) declared v) := by
  have accepts := suits.1
  rw [arriving_cons_self new entered, told]
  unfold Blueprint.accepted at accepts
  dsimp only at accepts
  cases source : (c.graph.predecessorsInOrder v).isEmpty with
  | false =>
    rw [source, Bool.false_and, if_neg Bool.false_ne_true] at accepts
    rw [Layers.arriving, shapesFrom, source] at accepts ⊢
    exact accepts
  | true =>
    have untold := so_far.untold (so_far.entered_of_source runnable inside new source)
    rw [source, Bool.true_and] at accepts
    rw [Bool.true_and, untold]
    split at accepts
    next isInput =>
      rw [if_pos isInput, Layers.arriving, shapesFrom, source]
      exact accepts
    next isInput =>
      rw [if_neg isInput]
      exact accepts

end Cons

/-- A layer more: it belongs to a component all of whose predecessors are built, and suits where
that one stands. -/
theorem cons {c : ComponentGraph} (runnable : c.Runnable)
    (so_far : Built c.graph inputShape done built s) {v : Nat} (inside : v < c.graph.size)
    (new : v ∉ done) (entered : ∀ u, c.graph.Adj u v → u ∈ done) {component : Component}
    (label : c.graph.label? v = some component) {s' : Store} (evolves : s.Evolves s')
    {layer : Layer}
    (suits : component.blueprint.Suits s' ⟨built.1.arriving c.graph inputShape v,
      c.graph.outDegree v, (c.graph.predecessorsInOrder v).isEmpty⟩ layer) :
    Built c.graph inputShape (v :: done) ((v, layer) :: built.1,
      if (c.graph.predecessorsInOrder v).isEmpty && component.blueprint.isInput then
        layer.outputShape else built.2) s' := by
  obtain ⟨declared, told⟩ : ∃ declared, declared =
      if (c.graph.predecessorsInOrder v).isEmpty && component.blueprint.isInput then
        layer.outputShape else built.2 := ⟨_, rfl⟩
  rw [← told]
  have same : (c.graph.predecessorsInOrder v).isEmpty = false → declared = built.2 := by
    intro source
    rw [told, source]
    rfl
  have self : List.lookup v ((v, layer) :: built.1) = some layer := List.lookup_cons_self
  refine ⟨fun w member => ?_, fun w => ?_, fun w other found => ?_, fun w other found => ?_, ?_⟩
  · rcases List.mem_cons.mp member with rfl | member
    · exact ⟨inside, fun u edge => List.mem_cons_of_mem w (entered u edge)⟩
    · obtain ⟨below, closed⟩ := so_far.closed w member
      exact ⟨below, fun u edge => List.mem_cons_of_mem v (closed u edge)⟩
  · by_cases fresh : w = v
    · subst fresh
      exact ⟨fun _ => ⟨layer, self⟩, fun _ => List.mem_cons_self⟩
    · rw [lookup_cons_ne layer fresh, ← so_far.covers, List.mem_cons]
      exact or_iff_right fresh
  · by_cases fresh : w = v
    · subst fresh
      rw [self] at found
      cases found
      exact so_far.accepts_cons_self runnable inside new layer entered suits told
    · rw [lookup_cons_ne layer fresh] at found
      have member := (so_far.covers w).mpr ⟨other, found⟩
      rw [so_far.arriving_cons_of_mem runnable inside new layer same member]
      exact (so_far.accepts w other found).evolves evolves
  · by_cases fresh : w = v
    · subst fresh
      rw [self] at found
      cases found
      rw [suits.2, Blueprint.tensors]
      split
      · rfl
      next noSplit =>
        have narrow := runnable.narrow w component label (Bool.eq_false_of_not_eq_true noSplit)
        omega
    · rw [lookup_cons_ne layer fresh] at found
      exact so_far.counts w other found
  · intro later
    obtain ⟨source, before⟩ := List.forall_mem_cons.mp later
    rw [same source]
    exact so_far.untold before

end Built

/-! ## Building -/

namespace Compiling

variable {α β : Type} {supply supply' : Supply}

theorem run_lift_eq_ok {x : Outcome CompileError α} {a : α}
    (run : (liftM x : Compiling α).run supply = .ok (a, supply')) :
    x = .ok a ∧ supply = supply' := by
  cases x with
  | error failure => cases run
  | ok a' =>
    cases run
    exact ⟨rfl, rfl⟩

theorem run_ofBuilding_eq_ok {f : TensorError → CompileError} {x : Building α} {a : α}
    (run : (ofBuilding f x).run supply = .ok (a, supply')) : x.run supply = .ok (a, supply') :=
  Outcome.mapCause_eq_ok_iff.mp run

/-- A computation for each element of a list, where each leaves the supply alone. -/
theorem forall₂_of_mapM {f : α → Compiling β} {R : α → β → Prop}
    (each : ∀ x supply y supply', (f x).run supply = .ok (y, supply') → supply = supply' ∧ R x y)
    {xs : List α} {ys : List β} {supply supply' : Supply}
    (run : (xs.mapM f).run supply = .ok (ys, supply')) :
    supply = supply' ∧ List.Forall₂ R xs ys := by
  induction xs generalizing ys supply with
  | nil =>
    rw [List.mapM_nil] at run
    cases run
    exact ⟨rfl, .nil⟩
  | cons x xs ih =>
    rw [List.mapM_cons] at run
    obtain ⟨y, supply₁, first, run⟩ := Outcome.run_bind_eq_ok.mp run
    obtain ⟨ys', supply₂, rest, run⟩ := Outcome.run_bind_eq_ok.mp run
    cases run
    obtain ⟨rfl, made⟩ := each x supply y supply₁ first
    obtain ⟨same, others⟩ := ih rest
    exact ⟨same, .cons made others⟩

end Compiling

namespace Built

variable {c : ComponentGraph} (runnable : c.Runnable) {inputShape : Shape}
include runnable

/-- One layer is built in its turn. -/
theorem buildLayer {done : List Nat} {built built' : Layers × Shape} {supply supply' : Supply}
    (so_far : Built c.graph inputShape done built supply.store) {v : Nat}
    (inside : v < c.graph.size) (new : v ∉ done) (entered : ∀ u, c.graph.Adj u v → u ∈ done)
    (run : (LayerNet.buildLayer c.graph inputShape built v).run supply = .ok (built', supply')) :
    supply.store.Evolves supply'.store
      ∧ Built c.graph inputShape (v :: done) built' supply'.store := by
  obtain ⟨component, label⟩ : ∃ component, c.graph.label? v = some component :=
    ⟨_, Array.getElem?_eq_getElem inside⟩
  unfold LayerNet.buildLayer at run
  rw [label] at run
  dsimp only at run
  obtain ⟨placement, supply₁, placed, rest⟩ := Outcome.run_bind_eq_ok.mp run
  obtain ⟨found, rfl⟩ := Compiling.run_lift_eq_ok placed
  obtain ⟨layer, supply₂, made, last⟩ := Outcome.run_bind_eq_ok.mp rest
  cases last
  rw [placementOf_eq_ok found] at made ⊢
  obtain ⟨evolves, suits⟩ := Blueprint.instantiate_yields (runnable.usable v component label) _ _ _
    _ _ rfl (Compiling.run_ofBuilding_eq_ok made)
  exact ⟨evolves, so_far.cons runnable inside new entered label evolves suits⟩

/-- All layers are built in order of execution, by induction on the order. -/
theorem foldlM {order done : List Nat} {built built' : Layers × Shape} {supply supply' : Supply}
    (so_far : Built c.graph inputShape done built supply.store)
    (ordered : c.graph.InOrder done order)
    (run : (order.foldlM (LayerNet.buildLayer c.graph inputShape) built).run supply
      = .ok (built', supply')) :
    supply.store.Evolves supply'.store
      ∧ ∃ done', Built c.graph inputShape done' built' supply'.store := by
  induction order generalizing done built supply with
  | nil =>
    cases run
    exact ⟨.refl _, done, so_far⟩
  | cons v order ih =>
    obtain ⟨inside, new, entered, ordered⟩ := ordered
    rw [List.foldlM_cons] at run
    obtain ⟨built₁, supply₁, first, run⟩ := Outcome.run_bind_eq_ok.mp run
    obtain ⟨evolves, so_far⟩ := so_far.buildLayer runnable inside new entered first
    obtain ⟨evolves', all⟩ := ih so_far ordered run
    exact ⟨evolves.trans evolves', all⟩

end Built

/-- A network of built layers fits. -/
theorem Built.fit {c : ComponentGraph} (runnable : c.Runnable) {inputShape declared : Shape}
    {layers : Layers} {done : List Nat} {s : Store}
    (all : Built c.graph inputShape done (layers, declared) s) {nodes : List Node}
    (size : nodes.length = c.graph.size)
    (layerOf : ∀ v node, nodes[v]? = some node → layers.lookup v = some node.layer) :
    Network.Fit s ⟨c.graph.copyWith nodes.toArray, declared⟩ := by
  have wf := runnable.dag.wellFormed
  obtain ⟨n, network⟩ : ∃ n : Network, n = ⟨c.graph.copyWith nodes.toArray, declared⟩ := ⟨_, rfl⟩
  have vertices : nodes.toArray.size = c.graph.size := by rw [List.size_toArray, size]
  have copied := c.graph.wellFormed_copyWith wf nodes.toArray vertices
  have label (v : Nat) : n.node? v = nodes[v]? := by
    rw [network, Network.node?, Digraph.label?, Digraph.vertices_copyWith, List.getElem?_toArray]
  have shape {u : Nat} (inside : u < c.graph.size) : n.outputShape u = layers.shapeOf u := by
    have there : nodes[u]? = some nodes[u] := List.getElem?_eq_getElem (size ▸ inside)
    rw [Network.outputShape, label, Layers.shapeOf, layerOf u _ there, there]
    rfl
  have adjacent (u v : Nat) : n.graph.Adj u v ↔ c.graph.Adj u v := by
    rw [network]
    exact Digraph.adj_copyWith wf nodes.toArray u v
  have graph : n.graph.WellFormed := by
    rw [network]
    exact copied
  rw [← network]
  refine ⟨⟨graph, ?_⟩, fun v node there => ?_, fun v node there => ?_⟩
  · rw [network]
    exact Digraph.acyclic_copyWith wf nodes.toArray runnable.dag.acyclic
  · rw [label] at there
    refine (all.accepts v node.layer (layerOf v node there)).perm (.symm ?_)
    have input : n.inputShape = declared := by rw [network]
    rw [Network.arriving, input, Layers.arriving]
    refine shapesFrom_perm id ?_ fun u member => ?_
    · rw [List.map_id]
      refine (n.graph.predecessorsInOrder_perm v).trans (.trans ?_
        (c.graph.predecessorsInOrder_perm v).symm)
      exact Digraph.perm_predecessors wf graph fun u => adjacent u v
    · have edge := (Digraph.mem_predecessorsInOrder c.graph v u).mp member
      exact shape (wf.inside u v edge).1
  · rw [label] at there
    rw [all.counts v node.layer (layerOf v node there), Digraph.outDegree_eq wf graph (adjacent v)]

/-- The plain network has the layers that were built in order of execution, under the keys of their
components. -/
theorem exists_layers_of_buildNetwork {c : ComponentGraph} {inputShape : Shape}
    {supply supply' : Supply} {n : Network}
    (run : (buildNetwork c inputShape).run supply = .ok (n, supply')) :
    ∃ (layers : Layers) (declared : Shape) (nodes : List Node),
      (c.graph.executionOrder.foldlM (buildLayer c.graph inputShape) ([], inputShape)).run supply
          = .ok ((layers, declared), supply')
        ∧ n = ⟨c.graph.copyWith nodes.toArray, declared⟩
        ∧ nodes.map Node.key = c.graph.vertices.toList.map Component.key
        ∧ ∀ v node, nodes[v]? = some node → layers.lookup v = some node.layer := by
  unfold buildNetwork at run
  obtain ⟨⟨layers, declared⟩, supply₁, built, run⟩ := Outcome.run_bind_eq_ok.mp run
  obtain ⟨nodes, supply₂, labelled, run⟩ := Outcome.run_bind_eq_ok.mp run
  cases run
  obtain ⟨rfl, pairs⟩ := Compiling.forall₂_of_mapM
    (R := fun (x : Component × Nat) (node : Node) =>
      layers.lookup x.2 = some node.layer ∧ x.1.key = node.key)
    (fun x supply node supply' run => by
      obtain ⟨component, v⟩ := x
      dsimp only at run
      cases found : layers.lookup v with
      | none =>
        rw [found] at run
        cases run
      | some layer =>
        rw [found] at run
        cases run
        exact ⟨rfl, rfl, rfl⟩) labelled
  have equal : List.Forall₂ Eq (c.graph.vertices.toList.zipIdx.map (Component.key ∘ Prod.fst))
      (nodes.map Node.key) := by
    rw [List.forall₂_map_left_iff, List.forall₂_map_right_iff]
    exact pairs.imp fun _ _ pair => pair.2
  rw [List.forall₂_eq_eq_eq, ← List.map_map, List.zipIdx_map_fst] at equal
  refine ⟨layers, declared, nodes, built, rfl, equal.symm, fun v node there => ?_⟩
  obtain ⟨inside, rfl⟩ := List.getElem?_eq_some_iff.mp there
  have pair := (pairs.get (pairs.length_eq ▸ inside) inside).1
  simp only [List.get_eq_getElem, List.getElem_zipIdx, Nat.zero_add] at pair
  exact pair

/-- So it has as many nodes. -/
theorem length_of_keys {c : ComponentGraph} {nodes : List Node}
    (keys : nodes.map Node.key = c.graph.vertices.toList.map Component.key) :
    nodes.length = c.graph.size := by
  have lengths := congrArg List.length keys
  rwa [List.length_map, List.length_map, Array.length_toList] at lengths

/-- The plain network of a normal graph fits. -/
theorem Network.fit_of_buildNetwork {c : ComponentGraph} (runnable : c.Runnable)
    {inputShape : Shape} {supply supply' : Supply} {n : Network}
    (run : (buildNetwork c inputShape).run supply = .ok (n, supply')) :
    supply.store.Evolves supply'.store ∧ n.Fit supply'.store := by
  obtain ⟨layers, declared, nodes, built, rfl, keys, layerOf⟩ :=
    exists_layers_of_buildNetwork run
  obtain ⟨evolves, done, all⟩ := (Built.empty c.graph inputShape supply.store).foldlM runnable
    (Digraph.executionOrder_inOrder runnable.dag.wellFormed) built
  exact ⟨evolves, all.fit runnable (length_of_keys keys) layerOf⟩

/-! ## Compiling -/

theorem Layer.evolves_fillBias (layer : Layer) (value : Float32) (s : Store) :
    s.Evolves (layer.fillBias value s) := by
  unfold fillBias
  cases layer.bias? with
  | none => exact .refl s
  | some bias => exact s.evolves_mapValues bias fun values => Buffer.size_filled values.size value

theorem Network.evolves_fillRectified (n : Network) (bias : Float32) (s : Store) :
    s.Evolves (n.fillRectified bias s) := by
  unfold fillRectified
  induction n.rectified generalizing s with
  | nil => exact .refl s
  | cons layer layers ih => exact (layer.evolves_fillBias bias s).trans (ih _)

theorem ComponentGraph.fit_of_build {c : ComponentGraph} (runnable : c.Runnable)
    {options : Options} {supply supply' : Supply} {n : Network}
    (run : (c.build options).run supply = .ok (n, supply')) :
    supply.store.Evolves supply'.store ∧ n.Fit supply'.store := by
  obtain ⟨plain, supply₁, built, rest⟩ := Outcome.run_bind_eq_ok.mp run
  cases rest
  obtain ⟨evolves, fit⟩ := Network.fit_of_buildNetwork runnable built
  have filled (n : Network) := n.evolves_fillRectified options.rectifierBias supply₁.store
  refine ⟨evolves.trans (filled _), Network.Fit.evolves ?_ (filled _)⟩
  split
  · refine Network.Fit.addActivations ?_ options.activation
    split
    · exact fit.addLosses options.loss
    · exact fit
  · split
    · exact fit.addLosses options.loss
    · exact fit

theorem Outcome.ofExcept_eq_ok_iff {ε α : Type} {x : Except ε α} {a : α} :
    Outcome.ofExcept x = .ok a ↔ x = .ok a := by
  cases x with
  | ok a' =>
    show (Except.ok a' : Outcome ε α) = .ok a ↔ _
    rw [Except.ok.injEq, Except.ok.injEq]
  | error cause => exact iff_of_false nofun nofun

/-- The assembled graph of an architecture, before it is brought into normal form. -/
def assembledOf (text : String) : Outcome CompileError Assembled := do
  let statements ← Outcome.ofExcept (readArchitecture text)
  ComponentGraph.assemble statements

/-- The components of a text are the normal form of what is assembled. -/
theorem exists_assembled_of_componentsOf {text : String} {c : ComponentGraph}
    (success : componentsOf text = .ok c) : ∃ assembled, assembledOf text = .ok assembled
      ∧ assembled.components.WellFormed ∧ 0 < assembled.components.size
      ∧ assembled.components.normalize = .ok c := by
  obtain ⟨statements, read, rest⟩ := Outcome.bind_eq_ok_iff.mp success
  obtain ⟨assembled, made, normalized⟩ := Outcome.bind_eq_ok_iff.mp rest
  obtain ⟨wf, inhabited⟩ := ComponentGraph.assemble_wellFormed made
  exact ⟨assembled, Outcome.bind_eq_ok_iff.mpr ⟨statements, read, made⟩, wf, inhabited,
    Outcome.ofExcept_eq_ok_iff.mp normalized⟩

theorem runnable_of_componentsOf {text : String} {c : ComponentGraph}
    (success : componentsOf text = .ok c) : c.Runnable := by
  obtain ⟨assembled, -, wf, inhabited, normal⟩ := exists_assembled_of_componentsOf success
  exact ComponentGraph.runnable_of_normalize wf inhabited normal

/-- The network of a text fits the store that it was compiled into. -/
theorem fit_of_compile {text : String} {options : Options} {store store' : Store} {n : Network}
    (compiled : compile text options store = .ok (n, store')) :
    store.Evolves store' ∧ n.Fit store' := by
  obtain ⟨components, normal, rest⟩ := Outcome.bind_eq_ok_iff.mp compiled
  obtain ⟨⟨n', supply⟩, built, made⟩ := Outcome.bind_eq_ok_iff.mp rest
  cases made
  exact ComponentGraph.fit_of_build (runnable_of_componentsOf normal) built

end LayerNet
