import LayerNet.Proofs.Layer.Parameters
import LayerNet.Proofs.Network.Completion

/-!
# Construction — every layer has its parameters to itself

Layers are built one after the other, in order of execution, and each constructor has its turn
(`Construction`): what it is given hangs on the layers before it, and what it makes stays in the
store as it is, since the constructors after it only add (`Layers.constructed_of_foldlM`). So the
parameters of a compiled network are all different, and none of them was there before
(`Network.Furnished`, `Network.furnished_of_build`).

What compilation adds behind the built layers has no parameters.
-/

namespace LayerNet

/-- The turn of a component in the order in which layers are built: what its constructor was given,
and what it made. -/
structure Construction (g : Digraph Component) (inputShape : Shape) (start : Supply)
    (order : List Nat) (v : Nat) where
  done : List Nat
  todo : List Nat
  component : Component
  built : Layers × Shape
  placement : Placement
  before : Supply
  layer : Layer
  after : Supply
  turn : order = done ++ v :: todo
  label : g.label? v = some component
  ran : (done.foldlM (buildLayer g inputShape) ([], inputShape)).run start = .ok (built, before)
  placed : placementOf g component.key v built.1 inputShape = .ok placement
  made : (component.blueprint.instantiate placement).run before = .ok (layer, after)

/-- Layers of which each was made in its turn, with tensors of its own for parameters. -/
structure Layers.Constructed (g : Digraph Component) (inputShape : Shape) (start : Supply)
    (order : List Nat) (layers : Layers) (now : Store) : Prop where
  turns : ∀ v layer, layers.lookup v = some layer →
    ∃ turn : Construction g inputShape start order v,
      turn.layer = layer ∧ turn.after.store.Untouched now
  apart : ∀ v w layer layer', layers.lookup v = some layer → layers.lookup w = some layer' →
    v ≠ w → layer.parameters.Disjoint layer'.parameters
  new : ∀ v layer, layers.lookup v = some layer → ∀ id ∈ layer.parameters,
    start.store.tensors.size ≤ id.index ∧ id.index < now.tensors.size
  kept : start.store.Untouched now

section Constructing

variable {g : Digraph Component} {inputShape : Shape} {start supply supply' : Supply}

namespace Construction

variable {order : List Nat} {v : Nat} (turn : Construction g inputShape start order v)

theorem owns : turn.layer.Owns turn.before.store turn.after.store :=
  Blueprint.owns_of_instantiate turn.made

/-- The turn in a longer order. -/
def append (rest : List Nat) : Construction g inputShape start (order ++ rest) v :=
  { turn with
    todo := turn.todo ++ rest
    turn := (congrArg (· ++ rest) turn.turn).trans (by simp) }

end Construction

/-- The same layers in a longer order. -/
theorem Layers.Constructed.append {order : List Nat} {layers : Layers} {now : Store}
    (constructed : layers.Constructed g inputShape start order now) (rest : List Nat) :
    layers.Constructed g inputShape start (order ++ rest) now :=
  { constructed with
    turns := fun v layer found => by
      obtain ⟨turn, same, kept⟩ := constructed.turns v layer found
      exact ⟨turn.append rest, same, kept⟩ }

/-- After its turn there is a layer more, with parameters that were not in the store before. -/
theorem Construction.constructed {order : List Nat} {v : Nat}
    (turn : Construction g inputShape start order v)
    (before : turn.built.1.Constructed g inputShape start order turn.before.store) :
    Layers.Constructed g inputShape start order ((v, turn.layer) :: turn.built.1)
      turn.after.store := by
  obtain ⟨contents, adds⟩ := turn.owns.adds
  have apart {w : Nat} {other : Layer} (found : turn.built.1.lookup w = some other) :
      other.parameters.Disjoint turn.layer.parameters := fun id member again => by
    have := (before.new w other found id member).2
    have := adds.new id again
    omega
  have lookup_self {other : Layer}
      (found : ((v, turn.layer) :: turn.built.1).lookup v = some other) : turn.layer = other := by
    rw [List.lookup_cons_self] at found
    exact Option.some.inj found
  constructor
  case turns =>
    intro w other found
    by_cases same : w = v
    · subst same
      exact ⟨turn, lookup_self found, fun _ _ there => there⟩
    · rw [lookup_cons_ne turn.layer same] at found
      obtain ⟨turn', rfl, kept⟩ := before.turns w other found
      exact ⟨turn', rfl, kept.trans adds.kept⟩
  case apart =>
    intro w x other other' found found' different
    by_cases same : w = v
    · subst same
      obtain rfl := lookup_self found
      rw [lookup_cons_ne _ (Ne.symm different)] at found'
      exact (apart found').symm
    · rw [lookup_cons_ne _ same] at found
      by_cases same' : x = v
      · subst same'
        obtain rfl := lookup_self found'
        exact apart found
      · rw [lookup_cons_ne _ same'] at found'
        exact before.apart w x other other' found found' different
  case new =>
    intro w other found id member
    by_cases same : w = v
    · subst same
      obtain rfl := lookup_self found
      exact ⟨Nat.le_trans before.kept.size_le (adds.new id member), adds.lt_size member⟩
    · rw [lookup_cons_ne _ same] at found
      obtain ⟨new, below⟩ := before.new w other found id member
      exact ⟨new, Nat.lt_of_lt_of_le below (Store.Untouched.size_le adds.kept)⟩
  case kept => exact before.kept.trans adds.kept

/-- By induction from the end of the order. -/
theorem Layers.constructed_of_foldlM {order : List Nat} {built : Layers × Shape}
    (run : (order.foldlM (buildLayer g inputShape) ([], inputShape)).run start
      = .ok (built, supply')) :
    built.1.Constructed g inputShape start order supply'.store := by
  induction order using List.reverseRecOn generalizing built supply' with
  | nil =>
    cases run
    exact ⟨fun _ _ absurd => (nomatch absurd), fun _ _ _ _ absurd => (nomatch absurd),
      fun _ _ absurd => (nomatch absurd), fun _ _ there => there⟩
  | append_singleton order v ih =>
    rw [List.foldlM_append] at run
    obtain ⟨built₁, supply₁, ran, run⟩ := Outcome.run_bind_eq_ok.mp run
    have before := (ih ran).append [v]
    rw [List.foldlM_cons] at run
    obtain ⟨built₂, supply₂, step, run⟩ := Outcome.run_bind_eq_ok.mp run
    cases run
    unfold buildLayer at step
    cases label : g.label? v with
    | none =>
      rw [label] at step
      cases step
      exact before
    | some component =>
      rw [label] at step
      obtain ⟨placement, supply₃, lifted, rest⟩ := Outcome.run_bind_eq_ok.mp step
      obtain ⟨placed, rfl⟩ := Compiling.run_lift_eq_ok lifted
      obtain ⟨layer, supply₄, instantiated, last⟩ := Outcome.run_bind_eq_ok.mp rest
      cases last
      let turn : Construction g inputShape start (order ++ [v]) v :=
        ⟨order, [], component, built₁, placement, supply₁, layer, supply', rfl, label, ran, placed,
          Compiling.run_ofBuilding_eq_ok instantiated⟩
      exact turn.constructed before

end Constructing

namespace Network

/-- A network of layers that were made in their turns, with the store that was left then. -/
structure Furnished (n : Network) (c : ComponentGraph) (inputShape : Shape) (start : Supply)
    (now : Store) : Prop where
  turns : ∀ v node, n.node? v = some node → node.layer.isTrainable = true →
    ∃ turn : Construction c.graph inputShape start c.graph.executionOrder v,
      turn.layer = node.layer ∧ turn.component.key = node.key ∧ turn.after.store.Untouched now
  apart : ∀ v w node node', n.node? v = some node → n.node? w = some node' → v ≠ w →
    node.layer.parameters.Disjoint node'.layer.parameters
  new : ∀ v node, n.node? v = some node → ∀ id ∈ node.layer.parameters,
    start.store.tensors.size ≤ id.index ∧ id.index < now.tensors.size
  kept : start.store.Untouched now

theorem parameters_of_kind {layer : Layer} (kind : layer.kind = .loss ∨ layer.kind = .activation) :
    layer.parameters = [] := by
  cases layer with
  | fullyConnected | convolution | recurrent => rcases kind with absurd | absurd <;> cases absurd
  | _ => rfl

/-- The network that is built, and the store before the biases in front of rectifiers are filled. -/
theorem furnished_of_build {c : ComponentGraph} (wf : c.graph.WellFormed) {options : Options}
    {start supply' : Supply} {n : Network} (run : (c.build options).run start = .ok (n, supply')) :
    ∃ now, n.Furnished c options.inputShape start now
      ∧ supply'.store = n.fillRectified options.rectifierBias now := by
  obtain ⟨plain, supply₁, plainly, rest⟩ := Outcome.run_bind_eq_ok.mp run
  have mirrors := mirrors_of_buildNetwork wf plainly
  obtain ⟨n', made⟩ : ∃ n' : Network, n' = (if options.addActivations then
      (if options.addLosses then plain.addLosses options.loss else plain).addActivations
        options.activation
      else if options.addLosses then plain.addLosses options.loss else plain) := ⟨_, rfl⟩
  dsimp only at rest
  rw [← made] at rest
  cases rest
  obtain ⟨grafts, -, -⟩ := exists_grafts mirrors.wellFormed options made
  obtain ⟨layers, declared, nodes, ran, same, keys, layerOf⟩ :=
    exists_layers_of_buildNetwork plainly
  have constructed := Layers.constructed_of_foldlM ran
  have labels (v : Nat) : plain.node? v = nodes[v]? := by
    rw [same, node?, Digraph.label?, Digraph.vertices_copyWith, List.getElem?_toArray]
  -- a node is one that was built, or has no parameters
  have found (v : Nat) (node : Node) (there : n.node? v = some node) :
      (nodes[v]? = some node ∧ layers.lookup v = some node.layer)
        ∨ node.layer.parameters = [] := by
    by_cases old : v < plain.graph.size
    · rw [grafts.keeps v old, labels] at there
      exact .inl ⟨there, layerOf v node there⟩
    · exact .inr (parameters_of_kind
        (kind_of_adds (grafts.added v node (Nat.le_of_not_lt old) there)))
  refine ⟨supply₁.store, ⟨fun v node there trainable => ?_, fun v w node node' there there' other =>
    ?_, fun v node there id member => ?_, constructed.kept⟩, rfl⟩
  · rcases found v node there with ⟨placed, built⟩ | none
    · obtain ⟨turn, same, kept⟩ := constructed.turns v node.layer built
      refine ⟨turn, same, ?_, kept⟩
      have key := congrArg (fun keys => keys[v]?) keys
      have label := turn.label
      rw [Digraph.label?] at label
      rw [List.getElem?_map, List.getElem?_map, placed, Array.getElem?_toList, label] at key
      exact (Option.some.inj key).symm
    · rw [Layer.isTrainable, none] at trainable
      cases trainable
  · rcases found v node there with ⟨-, built⟩ | none
    · rcases found w node' there' with ⟨-, built'⟩ | none
      · exact constructed.apart v w _ _ built built' other
      · rw [none]
        exact List.disjoint_nil_right _
    · rw [none]
      exact List.disjoint_nil_left _
  · rcases found v node there with ⟨-, built⟩ | none
    · exact constructed.new v node.layer built id member
    · rw [none] at member
      cases member

namespace Furnished

variable {n : Network} {c : ComponentGraph} {inputShape : Shape} {start : Supply} {now : Store}
  (furnished : n.Furnished c inputShape start now)
include furnished

theorem nodup_parameters {v : Nat} {node : Node} (there : n.node? v = some node) :
    node.layer.parameters.Nodup := by
  cases trainable : node.layer.isTrainable with
  | false =>
    have none : node.layer.parameters = [] := by simpa [Layer.isTrainable] using trainable
    exact none ▸ .nil
  | true =>
    obtain ⟨turn, same, -, -⟩ := furnished.turns v node there trainable
    obtain ⟨contents, adds⟩ := turn.owns.adds
    exact same ▸ adds.distinct

/-- No parameter is listed twice. -/
theorem nodup (wf : n.graph.WellFormed) : n.parameters.Nodup := by
  refine List.nodup_flatMap.mpr ⟨fun node member => ?_, ?_⟩
  · obtain ⟨v, -, there⟩ := List.mem_filterMap.mp member
    exact furnished.nodup_parameters there
  · refine List.pairwise_filterMap.mpr ?_
    refine (Digraph.executionOrder_inOrder wf).nodup.imp fun {v w} other => ?_
    exact fun node there node' there' => furnished.apart v w node node' there there' other

end Furnished

/-- The parameters that are listed are those of the nodes. -/
theorem parameters_perm {n : Network} (dag : n.graph.IsDag) :
    n.parameters.Perm (n.nodes.flatMap fun node => node.layer.parameters) := by
  have there : ∀ nodes : List Node, (List.range nodes.length).filterMap (nodes[·]?) = nodes := by
    intro nodes
    induction nodes with
    | nil => rfl
    | cons node nodes ih => simp [List.range_succ_eq_map, List.filterMap_map, ih]
  have order := (Digraph.topological_executionOrder dag.wellFormed dag.acyclic).perm_range
  refine List.Perm.flatMap_right _ ((order.filterMap n.node?).trans (.of_eq ?_))
  have all := there n.nodes
  rw [nodes, Array.length_toList] at all
  have same : n.node? = (n.graph.vertices.toList[·]?) := funext fun _ => Array.getElem?_toList.symm
  rw [same]
  exact all

end Network

end LayerNet
