import LayerNet.Network.Build
import LayerNet.Proofs.Component.Passes
import LayerNet.Proofs.Digraph.Neighbours
import LayerNet.Proofs.Layer.Contract

/-!
# Fitting networks — every layer accepts what arrives

In a network that fits, every layer accepts the shapes that its predecessors give, or the network's
input shape where it has none, and it gives one tensor for each edge that leaves it, or one where
none does (`Network.Fit`).

Losses and non-linearities are added behind layers that gave one tensor, and give one of the same
shape. So a network that fits still does when layers have been added (`Fit.addLosses`,
`Fit.addActivations`); one insertion is the step (`Fit.insertAfter`). An added layer has a later
number than the one whose place it takes in front of the layers behind, so these may find their
inputs in another order: the contracts do not depend on it.
-/

namespace LayerNet

/-- What arrives over edges from given sources, or the input where there are none. -/
def shapesFrom (input : Shape) (shape : Nat → Shape) (sources : List Nat) : List Shape :=
  if sources.isEmpty then [input] else sources.map shape

/-- Sources under other numbers, in another order, let the same arrive in another order. -/
theorem shapesFrom_perm {input : Shape} {shape shape' : Nat → Shape} {sources sources' : List Nat}
    (f : Nat → Nat) (renamed : sources'.Perm (sources.map f))
    (same : ∀ u ∈ sources, shape' (f u) = shape u) :
    (shapesFrom input shape' sources').Perm (shapesFrom input shape sources) := by
  have empty : sources'.isEmpty = sources.isEmpty := by
    rw [Bool.eq_iff_iff, List.isEmpty_iff_length_eq_zero, List.isEmpty_iff_length_eq_zero,
      renamed.length_eq, List.length_map]
  unfold shapesFrom
  rw [empty]
  split
  · exact .refl _
  · refine (renamed.map shape').trans ?_
    rw [List.map_map]
    exact .of_eq (List.map_congr_left same)

namespace Network

/-- The shape of one sample that a node gives. -/
def outputShape (n : Network) (v : Nat) : Shape :=
  ((n.node? v).map fun node => node.layer.outputShape).getD []

/-- The shapes of one sample that arrive at a node, in order of creation of its predecessors. -/
def arriving (n : Network) (v : Nat) : List Shape :=
  shapesFrom n.inputShape n.outputShape (n.graph.predecessorsInOrder v)

/-- Every layer accepts what arrives and gives as many tensors as there are edges for. -/
structure Fit (s : Store) (n : Network) : Prop where
  dag : n.graph.IsDag
  accepts : ∀ v node, n.node? v = some node → node.layer.Accepts s (n.arriving v)
  counts : ∀ v node, n.node? v = some node → node.layer.outputCount = max (n.graph.outDegree v) 1

theorem lt_of_node? {n : Network} {v : Nat} {node : Node} (label : n.node? v = some node) :
    v < n.graph.size := by
  obtain ⟨inside, -⟩ := Array.getElem?_eq_some_iff.mp label
  exact inside

theorem outputShape_of_node? {n : Network} {v : Nat} {node : Node} (label : n.node? v = some node) :
    n.outputShape v = node.layer.outputShape := by
  rw [outputShape, label]
  rfl

/-- The network with a layer put behind a node. -/
def putBehind (n : Network) (v : Nat) (added : Node) : Network :=
  { n with graph := n.graph.insertAfter v added }

theorem Fit.evolves {s s' : Store} {n : Network} (fit : n.Fit s) (evolves : s.Evolves s') :
    n.Fit s' where
  dag := fit.dag
  accepts v node label := (fit.accepts v node label).evolves evolves
  counts := fit.counts

/-! ## Behind a node -/

section PutBehind

variable {n : Network} {v : Nat} (added : Node)

theorem node?_putBehind_of_lt {w : Nat} (old : w < n.graph.size) :
    (n.putBehind v added).node? w = n.node? w :=
  n.graph.label?_insertAfter_of_lt v added old

theorem node?_putBehind_new : (n.putBehind v added).node? n.graph.size = some added :=
  n.graph.label?_insertAfter v added

/-- A node is one that was there, or the added one. -/
theorem node?_putBehind_cases {w : Nat} {other : Node}
    (there : (n.putBehind v added).node? w = some other) :
    (w < n.graph.size ∧ n.node? w = some other) ∨ (w = n.graph.size ∧ other = added) := by
  have below := lt_of_node? there
  rw [putBehind, Digraph.size_insertAfter] at below
  by_cases last : w = n.graph.size
  · rw [last, node?_putBehind_new added] at there
    exact .inr ⟨last, (Option.some.inj there).symm⟩
  · have below : w < n.graph.size := by omega
    rw [node?_putBehind_of_lt added below] at there
    exact .inl ⟨below, there⟩

theorem layerIs_putBehind_of_lt (test : Layer → Bool) {w : Nat} (old : w < n.graph.size) :
    (n.putBehind v added).layerIs test w = n.layerIs test w := by
  rw [layerIs, node?_putBehind_of_lt added old, layerIs]

variable (wf : n.graph.WellFormed) {node : Node} (label : n.node? v = some node)
include wf label

theorem arriving_putBehind_new :
    (n.putBehind v added).arriving n.graph.size = [node.layer.outputShape] := by
  have inside := lt_of_node? label
  have predecessors : (n.putBehind v added).graph.predecessorsInOrder n.graph.size = [v] := by
    rw [putBehind, Digraph.predecessorsInOrder, Digraph.predecessors_insertAfter_new wf inside,
      List.mergeSort_singleton]
  rw [arriving, predecessors]
  show [(n.putBehind v added).outputShape v] = _
  rw [outputShape, node?_putBehind_of_lt added inside, label]
  rfl

/-- Where the added layer gives the shape it takes, the same shapes arrive at all others. -/
theorem arriving_putBehind_of_lt (shape : added.layer.outputShape = node.layer.outputShape)
    {w : Nat} (old : w < n.graph.size) :
    ((n.putBehind v added).arriving w).Perm (n.arriving w) := by
  have inside := lt_of_node? label
  have sorted := n.graph.predecessorsInOrder_perm w
  refine shapesFrom_perm (fun u => if u = v then n.graph.size else u) ?_ fun u member => ?_
  · refine (Digraph.predecessorsInOrder_perm _ w).trans ?_
    exact (Digraph.predecessors_insertAfter wf inside added (Nat.ne_of_lt old)).trans
      (sorted.symm.map _)
  split
  next same =>
    rw [same, outputShape_of_node? (node?_putBehind_new added), shape,
      outputShape_of_node? label]
  · have edge := (Digraph.mem_predecessorsInOrder _ w u).mp member
    rw [outputShape, node?_putBehind_of_lt added (wf.inside u w edge).1, outputShape]

end PutBehind

namespace Fit

variable {s : Store} {n : Network} (fit : n.Fit s)
include fit

/-- A layer of one tensor has at most one edge. -/
theorem outDegree_le {v : Nat} {node : Node} (label : n.node? v = some node)
    (single : node.layer.outputCount = 1) : n.graph.outDegree v ≤ 1 := by
  have count := fit.counts v node label
  omega

/-- A layer that gives the shape it takes can be put behind one that gives one tensor. -/
theorem putBehind {v : Nat} {node : Node} (label : n.node? v = some node)
    (single : node.layer.outputCount = 1) {added : Node}
    (accepts : added.layer.Accepts s [node.layer.outputShape])
    (shape : added.layer.outputShape = node.layer.outputShape)
    (count : added.layer.outputCount = 1) : (n.putBehind v added).Fit s := by
  have wf := fit.dag.wellFormed
  have inside := lt_of_node? label
  refine ⟨⟨wf.insertAfter inside added, fit.dag.acyclic.insertAfter wf inside added⟩, ?_, ?_⟩
  · intro w other there
    rcases node?_putBehind_cases added there with ⟨old, before⟩ | ⟨rfl, rfl⟩
    · exact (fit.accepts w other before).perm
        (arriving_putBehind_of_lt added wf label shape old).symm
    · rw [arriving_putBehind_new _ wf label]
      exact accepts
  · intro w other there
    rw [Network.putBehind]
    rcases node?_putBehind_cases added there with ⟨old, before⟩ | ⟨rfl, rfl⟩
    · by_cases same : w = v
      · subst same
        rw [label] at before
        cases before
        rw [Digraph.outDegree, Digraph.successors_insertAfter wf inside, single]
        rfl
      · rw [Digraph.outDegree_insertAfter_of_ne wf inside added same (Nat.ne_of_lt old)]
        exact fit.counts w other before
    · have narrow := fit.outDegree_le label single
      rw [Digraph.outDegree_insertAfter_new wf inside, count]
      omega

end Fit

/-! ## Losses -/

/-- A loss is put behind a sink that has none. -/
theorem addLoss_cases (loss : Loss) {n : Network} {v : Nat} {node : Node}
    (label : n.node? v = some node) (sink : n.graph.successors v = []) :
    (node.layer.loss?.isSome ∧ n.addLoss loss v = n)
      ∨ (¬ node.layer.loss?.isSome ∧ n.addLoss loss v
        = n.putBehind v ⟨n.addedKey loss.token, .loss loss node.layer.outputShape⟩) := by
  unfold addLoss
  rw [label]
  dsimp only
  split
  next ends => exact .inl ⟨ends, rfl⟩
  next goesOn =>
    refine .inr ⟨goesOn, ?_⟩
    rw [putBehind, Digraph.insertAfter_of_sink sink]
    rfl

theorem Fit.addLoss {s : Store} {n : Network} (fit : n.Fit s) (loss : Loss) {v : Nat}
    (inside : v < n.graph.size) (sink : n.graph.outDegree v = 0) : (n.addLoss loss v).Fit s := by
  obtain ⟨node, label⟩ : ∃ node, n.node? v = some node := ⟨_, Array.getElem?_eq_getElem inside⟩
  have single : node.layer.outputCount = 1 := by rw [fit.counts v node label, sink]; rfl
  rcases addLoss_cases loss label (List.length_eq_zero_iff.mp sink) with ⟨-, same⟩ | ⟨-, put⟩
  · rw [same]
    exact fit
  · rw [put]
    exact fit.putBehind label single (.loss loss _) rfl rfl

/-- A loss leaves the other sinks as they are. -/
theorem sink_addLoss {n : Network} (wf : n.graph.WellFormed) (loss : Loss) {v w : Nat}
    (inside : v < n.graph.size) (sink : n.graph.outDegree v = 0) (other : w ≠ v)
    (below : w < n.graph.size) (zero : n.graph.outDegree w = 0) :
    w < (n.addLoss loss v).graph.size ∧ (n.addLoss loss v).graph.outDegree w = 0 := by
  obtain ⟨node, label⟩ : ∃ node, n.node? v = some node := ⟨_, Array.getElem?_eq_getElem inside⟩
  rcases addLoss_cases loss label (List.length_eq_zero_iff.mp sink) with ⟨-, same⟩ | ⟨-, put⟩
  · rw [same]
    exact ⟨below, zero⟩
  · rw [put, putBehind, Digraph.size_insertAfter,
      Digraph.outDegree_insertAfter_of_ne wf inside _ other (Nat.ne_of_lt below)]
    exact ⟨by omega, zero⟩

/-- Losses are put behind all sinks, one after the other: what holds of the network and the sinks
that are left. -/
theorem addLosses_run {P : List Nat → Network → Prop} (loss : Loss)
    (wf : ∀ xs n, P xs n → n.graph.WellFormed)
    (step : ∀ v xs n, P (v :: xs) n → v < n.graph.size → n.graph.outDegree v = 0 →
      P xs (n.addLoss loss v)) {n : Network} (start : P n.sinks n) : P [] (n.addLosses loss) := by
  have run (xs : List Nat) (n : Network) (holds : P xs n) (nodup : xs.Nodup)
      (sinks : ∀ v ∈ xs, v < n.graph.size ∧ n.graph.outDegree v = 0) :
      P [] (xs.foldl (Network.addLoss loss) n) := by
    induction xs generalizing n with
    | nil => exact holds
    | cons v xs ih =>
      obtain ⟨new, nodup⟩ := List.nodup_cons.mp nodup
      obtain ⟨⟨inside, sink⟩, sinks⟩ := List.forall_mem_cons.mp sinks
      refine ih _ (step v xs n holds inside sink) nodup fun w member => ?_
      obtain ⟨below, zero⟩ := sinks w member
      have other : w ≠ v := fun same => new (same ▸ member)
      exact sink_addLoss (wf _ n holds) loss inside sink other below zero
  refine run n.sinks n start (List.nodup_range.filter _) fun v member => ?_
  obtain ⟨inside, none⟩ := (Digraph.mem_sinks n.graph v).mp member
  exact ⟨inside, by rw [Digraph.outDegree, none]; rfl⟩

/-- What a loss behind a sink keeps, losses behind all sinks keep. -/
theorem addLosses_induction {P : Network → Prop} (loss : Loss)
    (wf : ∀ n, P n → n.graph.WellFormed)
    (step : ∀ n v, P n → v < n.graph.size → n.graph.outDegree v = 0 → P (n.addLoss loss v))
    {n : Network} (start : P n) : P (n.addLosses loss) :=
  addLosses_run (P := fun _ => P) loss (fun _ => wf) (fun v _ n => step n v) start

theorem Fit.addLosses {s : Store} {n : Network} (fit : n.Fit s) (loss : Loss) :
    (n.addLosses loss).Fit s :=
  addLosses_induction loss (fun _ fit => fit.dag.wellFormed)
    (fun _ _ fit inside sink => fit.addLoss loss inside sink) fit

/-! ## Non-linearities -/

/-- The node is there, and its layer gives one tensor. -/
def IsSingle (n : Network) (v : Nat) : Prop :=
  ∃ node, n.node? v = some node ∧ node.layer.outputCount = 1

theorem isSingle_of_layerIs {n : Network} {test : Layer → Bool}
    (single : ∀ layer, test layer = true → layer.outputCount = 1) {v : Nat}
    (passes : n.layerIs test v = true) : n.IsSingle v := by
  obtain ⟨node, label, passes⟩ := (Option.any_eq_true _ _).mp passes
  exact ⟨node, label, single node.layer passes⟩

theorem isSingle_activationPlace {n : Network} {v : Nat} (single : n.IsSingle v) :
    n.IsSingle (n.activationPlace v) := by
  unfold activationPlace
  split
  · split
    next pools =>
      refine isSingle_of_layerIs (fun layer passes => ?_) pools
      cases layer with
      | split branches shape => exact absurd passes (by simp [isMaxPool, Layer.kind])
      | _ => rfl
    · exact single
  · exact single

theorem Fit.addActivation {s : Store} {n : Network} (fit : n.Fit s) (activation : Activation)
    {v : Nat} (single : n.IsSingle v) : (n.addActivation activation v).Fit s
      ∧ ∀ w, n.IsSingle w → (n.addActivation activation v).IsSingle w := by
  obtain ⟨node, label, one⟩ := isSingle_activationPlace single
  unfold Network.addActivation
  dsimp only
  rw [label]
  dsimp only
  split
  · exact ⟨fit, fun _ single => single⟩
  · refine ⟨fit.putBehind label one (.activation activation _) rfl rfl, ?_⟩
    rintro w ⟨other, there, count⟩
    refine ⟨other, ?_, count⟩
    rw [← there]
    exact node?_putBehind_of_lt _ (lt_of_node? there)

theorem Fit.addActivations {s : Store} {n : Network} (fit : n.Fit s) (activation : Activation) :
    (n.addActivations activation).Fit s := by
  have run (xs : List Nat) (n : Network) (fit : n.Fit s) (asking : ∀ v ∈ xs, n.IsSingle v) :
      (xs.foldl (Network.addActivation activation) n).Fit s := by
    induction xs generalizing n with
    | nil => exact fit
    | cons v xs ih =>
      obtain ⟨fit', kept⟩ := fit.addActivation activation (asking v List.mem_cons_self)
      exact ih _ fit' fun w member => kept w (asking w (List.mem_cons_of_mem v member))
  refine run _ n fit fun v member => ?_
  refine isSingle_of_layerIs (fun layer needs => ?_) (List.mem_filter.mp member).2
  cases layer with
  | split branches shape => exact absurd needs Bool.false_ne_true
  | _ => rfl

end Network

end LayerNet
