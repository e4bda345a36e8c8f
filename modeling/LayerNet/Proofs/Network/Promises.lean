import LayerNet.Proofs.Component.Refusals
import LayerNet.Proofs.Component.Termination
import LayerNet.Proofs.Layer.Refusals
import LayerNet.Proofs.Network.Build

/-!
# Promises — compilation never breaks one of its own

The parts of compilation rely on each other: a layer's turn comes after its predecessors are built,
every component has its turn, and all blueprints but concatenations are given one shape. An error
that says otherwise is internal, and no text and no options lead to one (`compile_keepsPromises`).

The order of execution of a normal graph is topological and normal form leaves one edge into what is
no concatenation. So, by induction on the order, when a component's turn comes all its predecessors
have layers (`Layers.has_foldlM`), and what is left to go wrong is the text or a layer's own shapes
and settings. Among these are numbers that lead out of the range of a size. On them the run ends, and
on values that are not finite, but for no other reason (`compile_ends`).
-/

namespace LayerNet

/-- The error does not say that a promise between the parts of a network was not kept, neither about
a layer nor about tensors at large. -/
def CompileError.KeepsPromises (e : CompileError) : Prop :=
  ∀ cause, e.tensorCause? = some cause → cause.KeepsPromises

theorem CompileError.OfText.keepsPromises {e : CompileError} (text : e.OfText) :
    e.KeepsPromises := by
  intro cause found
  rw [text] at found
  cases found

theorem isNormal_of_componentsOf {text : String} {c : ComponentGraph}
    (success : componentsOf text = .ok c) : c.IsNormal := by
  obtain ⟨assembled, -, wf, inhabited, normal⟩ := exists_assembled_of_componentsOf success
  have dag := (ComponentGraph.extends_normalize wf normal).dag
  obtain ⟨into, out, one⟩ := ComponentGraph.settled_of_normalize wf inhabited normal
  exact ComponentGraph.isNormal_of_settled dag one out into

/-! ## Layers that are there -/

/-- The layer of a component is built. -/
def Layers.Has (layers : Layers) (v : Nat) : Prop := ∃ layer, layers.lookup v = some layer

section Has

variable {g : Digraph Component} {inputShape : Shape} {built built' : Layers × Shape}
  {supply supply' : Supply}

/-- A turn builds the layer of its component, and no other. -/
theorem Layers.has_buildLayer {v : Nat} (inside : v < g.size)
    (run : (buildLayer g inputShape built v).run supply = .ok (built', supply')) (w : Nat) :
    built'.1.Has w ↔ w = v ∨ built.1.Has w := by
  obtain ⟨component, label⟩ : ∃ component, g.label? v = some component :=
    ⟨_, Array.getElem?_eq_getElem inside⟩
  unfold buildLayer at run
  rw [label] at run
  dsimp only at run
  obtain ⟨placement, supply₁, -, rest⟩ := Outcome.run_bind_eq_ok.mp run
  obtain ⟨layer, supply₂, -, last⟩ := Outcome.run_bind_eq_ok.mp rest
  cases last
  by_cases same : w = v
  · subst same
    exact ⟨fun _ => .inl rfl, fun _ => ⟨layer, List.lookup_cons_self⟩⟩
  · show (∃ other, List.lookup w ((v, layer) :: built.1) = some other) ↔ _
    rw [lookup_cons_ne layer same]
    exact (or_iff_right same).symm

/-- The turns of some components build their layers, and no others. -/
theorem Layers.has_foldlM {order : List Nat} (inside : ∀ v ∈ order, v < g.size)
    (run : (order.foldlM (buildLayer g inputShape) built).run supply = .ok (built', supply'))
    (w : Nat) : built'.1.Has w ↔ w ∈ order ∨ built.1.Has w := by
  induction order generalizing built supply with
  | nil =>
    cases run
    exact (or_iff_right List.not_mem_nil).symm
  | cons v order ih =>
    obtain ⟨here, inside⟩ := List.forall_mem_cons.mp inside
    rw [List.foldlM_cons] at run
    obtain ⟨built₁, supply₁, first, run⟩ := Outcome.run_bind_eq_ok.mp run
    rw [ih inside run, has_buildLayer here first, List.mem_cons, or_left_comm, or_assoc]

end Has

/-! ## What a normal graph promises -/

/-- What the building of layers relies on, for a network input of the given shape. -/
structure ComponentGraph.Buildable (c : ComponentGraph) (inputShape : Shape) : Prop where
  /-- Every component has its turn once, after all its predecessors. -/
  topological : c.graph.Topological c.graph.executionOrder
  /-- When a component's turn comes, the layers of all its predecessors are built. -/
  inTurn : ∀ before v after, c.graph.executionOrder = before ++ v :: after →
    ∀ layers declared supply supply',
      (before.foldlM (buildLayer c.graph inputShape) ([], inputShape)).run supply
        = .ok ((layers, declared), supply') → ∀ u, c.graph.Adj u v → layers.Has u
  /-- In the end, every component has its layer. -/
  complete : ∀ layers declared supply supply',
    (c.graph.executionOrder.foldlM (buildLayer c.graph inputShape) ([], inputShape)).run supply
      = .ok ((layers, declared), supply') → ∀ v < c.size, layers.Has v
  /-- All but concatenations are given one shape. -/
  oneShape : ∀ v component, c.graph.label? v = some component → component.blueprint ≠ .concat →
    ∀ layers placement, placementOf c.graph component.key v layers inputShape = .ok placement →
      ∃ shape, placement.inputShapes = [shape]

namespace ComponentGraph

variable {c : ComponentGraph} {inputShape : Shape} {v : Nat}

/-- One shape arrives where at most one edge does: the predecessor's, or at a source the network
input's. -/
theorem exists_inputShape (narrow : c.graph.inDegree v ≤ 1) {key : String} {layers : Layers}
    {placement : Placement}
    (placed : placementOf c.graph key v layers inputShape = .ok placement) :
    ∃ shape, placement.inputShapes = [shape] := by
  rw [placementOf_eq_ok placed]
  show ∃ shape, layers.arriving c.graph inputShape v = [shape]
  have count : (c.graph.predecessorsInOrder v).length ≤ 1 :=
    (c.graph.predecessorsInOrder_perm v).length_eq ▸ narrow
  unfold Layers.arriving shapesFrom
  match before : c.graph.predecessorsInOrder v with
  | [] => exact ⟨inputShape, rfl⟩
  | [u] => exact ⟨layers.shapeOf u, rfl⟩
  | _ :: _ :: _ =>
    rw [before, List.length_cons, List.length_cons] at count
    omega

theorem buildable_of_isNormal (dag : c.graph.IsDag) (normal : c.IsNormal) (inputShape : Shape) :
    c.Buildable inputShape where
  topological := Digraph.topological_executionOrder dag.wellFormed dag.acyclic
  inTurn before v after order layers declared supply supply' run u edge := by
    have inside := (Digraph.executionOrder_inOrder dag.wellFormed).inside
    obtain ⟨-, -, entered⟩ := Digraph.due_of_executionOrder dag.wellFormed order
    refine (Layers.has_foldlM (fun w member => inside w ?_) run u).mpr
      (.inl (List.mem_reverse.mp (entered u edge)))
    rw [order]
    exact List.mem_append_left _ member
  complete layers declared supply supply' run v inside := by
    refine (Layers.has_foldlM (Digraph.executionOrder_inOrder dag.wellFormed).inside run v).mpr ?_
    exact .inl (Digraph.mem_executionOrder dag.wellFormed dag.acyclic inside)
  oneShape v component label other layers placement placed :=
    exists_inputShape (normal.fanIn v component label other) placed

theorem buildable_of_componentsOf {text : String} (success : componentsOf text = .ok c)
    (inputShape : Shape) : c.Buildable inputShape :=
  buildable_of_isNormal (runnable_of_componentsOf success).dag (isNormal_of_componentsOf success)
    inputShape

end ComponentGraph

/-! ## Building -/

/-- Whenever a computation that builds parts of a network fails or ends, all promises were kept. -/
abbrev Compiling.Dutiful {α : Type} (x : Compiling α) : Prop :=
  Confined (Failure.Excused CompileError.KeepsPromises) x

theorem failsOnly_placementOf {g : Digraph Component} {key : String} {v : Nat} {layers : Layers}
    {inputShape : Shape} (entered : ∀ u, g.Adj u v → layers.Has u) :
    FailsOnly (Failure.Excused CompileError.KeepsPromises)
      (placementOf g key v layers inputShape) := by
  refine .bind (.mapM _ fun u member => ?_) fun _ _ => .ok _
  obtain ⟨layer, there⟩ := entered u ((Digraph.mem_predecessorsInOrder g v u).mp member)
  rw [there]
  exact .ok _

theorem Compiling.dutiful_ofBuilding {α : Type} {x : Building α} (key : String)
    (dutiful : x.Dutiful) : Compiling.Dutiful (ofBuilding (.layer key) x) := by
  intro supply
  refine (dutiful supply).mapCause fun cause keeps other same => ?_
  cases same
  exact keeps

namespace ComponentGraph.Buildable

variable {c : ComponentGraph} {inputShape : Shape} (buildable : c.Buildable inputShape)
include buildable

/-- A turn that comes after the predecessors' is refused for the layer's shapes and settings
only. -/
theorem dutiful_buildLayer {v : Nat} {built : Layers × Shape}
    (entered : ∀ u, c.graph.Adj u v → built.1.Has u) :
    Compiling.Dutiful (buildLayer c.graph inputShape built v) := by
  unfold buildLayer
  split
  · exact .pure _
  next component label =>
    intro supply
    refine .bind ((Confined.lift (failsOnly_placementOf entered)) supply) fun placed run => ?_
    obtain ⟨found, -⟩ := Compiling.run_lift_eq_ok run
    have takes : component.blueprint.isConcat = false →
        ∃ shape, placed.1.inputShapes = [shape] := by
      intro noConcat
      refine buildable.oneShape v component label (fun isConcat => ?_) built.1 placed.1 found
      rw [isConcat] at noConcat
      cases noConcat
    exact Confined.bind (Compiling.dutiful_ofBuilding component.key
      (Blueprint.dutiful_instantiate takes)) (fun _ => .pure _) placed.2

/-- All turns, by induction on what is left of the order. -/
theorem failsOnly_foldlM {before after : List Nat}
    (order : c.graph.executionOrder = before ++ after) {built : Layers × Shape}
    {start supply : Supply}
    (run : (before.foldlM (buildLayer c.graph inputShape) ([], inputShape)).run start
      = .ok (built, supply)) :
    FailsOnly (Failure.Excused CompileError.KeepsPromises)
      ((after.foldlM (buildLayer c.graph inputShape) built).run supply) := by
  induction after generalizing before built supply with
  | nil => exact .ok _
  | cons v after ih =>
    have entered := buildable.inTurn before v after order built.1 built.2 start supply run
    rw [List.foldlM_cons]
    refine .bind (buildable.dutiful_buildLayer entered supply) fun next turn => ?_
    have order' : c.graph.executionOrder = (before ++ [v]) ++ after := by
      rw [order, List.append_assoc, List.singleton_append]
    refine ih order' ?_
    rw [List.foldlM_append, Outcome.run_bind_eq_ok]
    refine ⟨built, supply, run, ?_⟩
    rw [List.foldlM_cons, Outcome.run_bind_eq_ok]
    exact ⟨next.1, next.2, turn, rfl⟩

theorem dutiful_buildNetwork : Compiling.Dutiful (buildNetwork c inputShape) := by
  intro supply
  have start : (([] : List Nat).foldlM (buildLayer c.graph inputShape) ([], inputShape)).run supply
      = .ok (([], inputShape), supply) := rfl
  refine .bind (buildable.failsOnly_foldlM (List.nil_append _).symm start) fun built run => ?_
  have complete := buildable.complete built.1.1 built.1.2 supply built.2 run
  refine Confined.bind (.mapM _ fun labelled member => ?_) (fun _ => .pure _) built.2
  obtain ⟨component, v⟩ := labelled
  have inside : v < c.size := by
    have bound := (List.mem_zipIdx member).2.1
    rwa [Nat.zero_add, Array.length_toList] at bound
  obtain ⟨layer, there⟩ := complete v inside
  dsimp only
  rw [there]
  exact .pure _

theorem dutiful_build (options : Options) (same : options.inputShape = inputShape) :
    Compiling.Dutiful (c.build options) := by
  subst same
  exact .bind buildable.dutiful_buildNetwork fun _ => .bind (.modify _) fun _ => .pure _

end ComponentGraph.Buildable

/-! ## Compiling -/

theorem FailsOnly.ofExcept {ε α : Type} {P : ε → Prop} {F : Fatality → Prop} {x : Except ε α}
    (only : FailsOnly P x) : FailsOnly (Failure.Has P F) (Outcome.ofExcept x) := by
  cases x with
  | error cause => exact .fail (only cause rfl)
  | ok a => exact .ok a

theorem failsOnly_componentsOf (text : String) :
    FailsOnly (Failure.Excused CompileError.OfText) (componentsOf text) := by
  refine .bind (.ofExcept (failsOnly_readArchitecture text)) fun statements _ => ?_
  refine .bind ?_ fun assembled _ => .ofExcept assembled.components.failsOnly_normalize
  intro failure failed
  have blames := ComponentGraph.failsOnly_assemble statements failure failed
  -- assembly has no fatal end, so that its failures have a cause
  obtain ⟨assembled, success⟩ | ⟨cause, refused⟩ := ComponentGraph.assemble_ends statements
  · rw [success] at failed
    cases failed
  · rw [refused] at failed
    cases failed
    exact blames

theorem failsOnly_compile (text : String) (options : Options) (store : Store) :
    FailsOnly (Failure.Excused CompileError.KeepsPromises) (compile text options store) := by
  refine .bind ?_ fun c found => ?_
  · exact (failsOnly_componentsOf text).mono
      (Failure.Has.mono (fun _ => CompileError.OfText.keepsPromises) fun _ => id)
  · have buildable := ComponentGraph.buildable_of_componentsOf found options.inputShape
    exact .bind (buildable.dutiful_build options rfl _) fun _ _ => .ok _

/-- Compilation gives a network or an error, or the run ends because a number left its range or a
value is not finite. It never divides by zero, looks for an element that is not there or runs out of
depth. -/
theorem compile_ends (text : String) (options : Options) (store : Store) :
    (∃ result, compile text options store = .ok result)
      ∨ (∃ cause, compile text options store = Outcome.fail cause)
      ∨ compile text options store = Outcome.stop .overflow
      ∨ compile text options store = Outcome.stop .nonFinite := by
  have only := failsOnly_compile text options store
  match ended : compile text options store with
  | .ok result => exact .inl ⟨result, rfl⟩
  | .error (.error cause) => exact .inr (.inl ⟨cause, rfl⟩)
  | .error (@Failure.fatal _ .overflow) => exact .inr (.inr (.inl rfl))
  | .error (@Failure.fatal _ .nonFinite) => exact .inr (.inr (.inr rfl))
  | .error (@Failure.fatal _ .broken) => exact absurd rfl (only _ ended)

/-- Whatever the text and the options are, compilation does not fail with an internal error, neither
of a layer nor of tensors at large: the layers of its components can be built in order of execution,
each after its predecessors and each from as many shapes as it takes, until none is left out. -/
theorem compile_keepsPromises (text : String) (options : Options) (store : Store) :
    (∀ key reason, compile text options store ≠ .error (.error (.layer key (.internal reason))))
      ∧ (∀ reason, compile text options store ≠ .error (.error (.tensor (.internal reason))))
      ∧ ∀ c, componentsOf text = .ok c → c.Buildable options.inputShape := by
  have only := failsOnly_compile text options store
  refine ⟨fun key reason failed => ?_, fun reason failed => ?_, fun c found => ?_⟩
  · exact only _ failed (.internal reason) rfl reason rfl
  · exact only _ failed (.internal reason) rfl reason rfl
  · exact ComponentGraph.buildable_of_componentsOf found options.inputShape

end LayerNet
