import LayerNet.Proofs.Component.Origins
import LayerNet.Proofs.Network.Rendering

/-!
# Concatenation — in which order inputs are joined

A node takes its inputs in the order in which its predecessors were created. Where vertices of the
assembled graph feed a concatenation themselves, that is the order of the text. But a branch that
fans out feeds it through a split, and a layer that asks for a non-linearity through that, and these
were created later. So the inputs come in three groups (`Network.InGroups`): vertices of the
assembled graph, in order; splits, in the order of the vertices that they were added for; and
non-linearities, in the order of the layers that asked for them. The order of the text is kept in
each group, but not from one group to the next (`Network.not_concatenatesInOrder`).

In the last group the order is that of the layers that ask, not of the nodes that non-linearities
stand behind: a maximum pooling may have been created before the layer in front of it.

Additions are put behind nodes, one after the other. What each of them keeps is that the network
`Grown` from the assembled graph can be walked back, and that non-linearities were `Asked` for in
order.
-/

namespace LayerNet

open LayerNet.Digraph

/-- Whether a node hands on what it takes without joining anything: a split or a non-linearity. -/
def Node.relays (node : Node) : Bool := node.layer.kind = .split || node.layer.kind = .activation

namespace Network

/-- The node before `k` that walking back from a node through added splits and non-linearities ends
at. -/
abbrev Origin (n : Network) (k : Nat) : Nat → Nat → Prop := n.graph.Origin Node.relays k

/-- The origins of nodes increase. -/
def TracesInOrder (n : Network) (k : Nat) (nodes : List Nat) : Prop :=
  ∃ origins, List.Forall₂ (n.Origin k) nodes origins ∧ origins.Pairwise (· < ·)

/-- A layer asks for a non-linearity at a place: behind itself, or behind a maximum pooling that it
feeds. -/
def AsksAt (n : Network) (asking place : Nat) : Prop :=
  n.layerIs Layer.needsActivation asking
    ∧ (asking = place ∨ (n.graph.Adj asking place ∧ n.layerIs isMaxPool place))

/-- The layers that asked for non-linearities increase. -/
def AskedInOrder (n : Network) (k : Nat) (nodes : List Nat) : Prop :=
  ∃ askers, List.Forall₂ (fun v asker => ∃ place, n.Origin k v place ∧ n.AsksAt asker place)
    nodes askers ∧ askers.Pairwise (· < ·)

/-- Every concatenation of several inputs takes them in the order of their origins. -/
def ConcatenatesInOrder (n : Network) (k : Nat) : Prop :=
  ∀ v node, n.node? v = some node → node.layer.kind = .concat → 1 < n.graph.inDegree v →
    n.TracesInOrder k (n.graph.predecessorsInOrder v)

/-! ## Additions -/

/-- A network that grew: of the nodes from `k` on, those before `s` were added by normalization, and
the others are non-linearities and losses. -/
structure Grown (n : Network) (k s : Nat) : Prop where
  wellFormed : n.graph.WellFormed
  later : k ≤ s
  late : s ≤ n.graph.size
  traceable : n.graph.Traceable Node.relays k
  inOrder : n.graph.InOrderUpTo Node.relays k s
  routing : ∀ v node, k ≤ v → v < s → n.node? v = some node →
    node.layer.kind = .split ∨ node.layer.kind = .concat
  ending : ∀ v node, s ≤ v → n.node? v = some node →
    node.layer.kind = .activation ∨ node.layer.kind = .loss

/-- The non-linearities so far were asked for by layers before `next`, in order. -/
def Asked (n : Network) (k s next : Nat) : Prop :=
  ∃ asker : Nat → Nat,
    (∀ v place, s ≤ v → n.Origin k v place → n.AsksAt (asker v) place ∧ asker v < next)
      ∧ ∀ u v o p, s ≤ u → u < v → n.Origin k u o → n.Origin k v p → asker u < asker v

theorem layerIs_iff {n : Network} {test : Layer → Bool} {v : Nat} :
    n.layerIs test v = true ↔ ∃ node, n.node? v = some node ∧ test node.layer = true :=
  Option.any_eq_true _ _

section PutBehind

variable {n : Network} {k s place : Nat} {node added : Node}

theorem layerIs_putBehind {test : Layer → Bool} {v : Nat} (passes : n.layerIs test v = true) :
    (n.putBehind place added).layerIs test v = true := by
  obtain ⟨other, there, -⟩ := layerIs_iff.mp passes
  rw [layerIs_putBehind_of_lt added test (lt_of_node? there)]
  exact passes

variable (grown : n.Grown k s) (label : n.node? place = some node)
include grown label

/-- A layer still asks at a place when something is put behind another layer. -/
theorem AsksAt.putBehind {asking p : Nat} (asks : n.AsksAt asking p) (other : asking ≠ place) :
    (n.putBehind place added).AsksAt asking p := by
  have inside := lt_of_node? label
  refine ⟨layerIs_putBehind asks.1, asks.2.imp_right ?_⟩
  rintro ⟨edge, pools⟩
  refine ⟨(adj_insertAfter grown.wellFormed inside added _ _).mpr (.inr (.inr ⟨other, edge⟩)), ?_⟩
  exact layerIs_putBehind pools

/-- What has an origin in the network with a node more had it before, or is that node, and then its
origin is that of the place. -/
theorem origin_putBehind {v o : Nat} (after : k ≤ v)
    (origin : (n.putBehind place added).Origin k v o) :
    (v = n.graph.size ∧ added.relays = true ∧ n.Origin k place o)
      ∨ (v < n.graph.size ∧ n.Origin k v o) := by
  have wf := grown.wellFormed
  have inside := lt_of_node? label
  have before := origin.of_insertAfter wf inside (Nat.le_trans grown.later grown.late)
  have relays := origin.relays after
  by_cases new : v = n.graph.size
  · rw [if_pos new] at before
    rw [new] at relays
    exact .inl ⟨new, (relays_push_new (vertices_insertAfter _ _ added)).mp relays, before⟩
  · rw [if_neg new] at before
    exact .inr ⟨(before.relays after).lt, before⟩

/-- What is put behind a node is a non-linearity, or a loss that ends a branch. -/
theorem Grown.putBehind (ends : added.layer.kind = .activation
      ∨ (added.layer.kind = .loss ∧ ∀ v, ¬ n.graph.Adj place v)) :
    (n.putBehind place added).Grown k s := by
  have wf := grown.wellFormed
  have inside := lt_of_node? label
  have before := Nat.le_trans grown.later grown.late
  have hands : added.relays = true ∨ ∀ v, ¬ n.graph.Adj place v :=
    ends.imp (fun kind => by simp [Node.relays, kind]) And.right
  refine ⟨wf.insertAfter inside added, grown.later, ?_,
    grown.traceable.insertAfter wf inside before hands, ?_, ?_, ?_⟩
  · exact Nat.le_trans grown.late (le_size_push (vertices_insertAfter _ _ added))
  · intro u v o p after later small first second
    have small' : v < n.graph.size := Nat.lt_of_lt_of_le small grown.late
    refine grown.inOrder u v o p after later small ?_ ?_
    · exact (origin_insertAfter wf inside before hands (Nat.lt_trans later small')).mp first
    · exact (origin_insertAfter wf inside before hands small').mp second
  · intro v other after small there
    rw [node?_putBehind_of_lt added (Nat.lt_of_lt_of_le small grown.late)] at there
    exact grown.routing v other after small there
  · intro v other after there
    rcases node?_putBehind_cases added there with ⟨-, there⟩ | ⟨-, rfl⟩
    · exact grown.ending v other after there
    · exact ends.imp_right And.left

end PutBehind

/-! ## Losses -/

/-- No node from `s` on has an origin. -/
def Unasked (n : Network) (k s : Nat) : Prop := ∀ v o, s ≤ v → ¬ n.Origin k v o

theorem Grown.addLoss {n : Network} {k s : Nat} (grown : n.Grown k s) (unasked : n.Unasked k s)
    (loss : Loss) {v : Nat} (inside : v < n.graph.size) (sink : n.graph.outDegree v = 0) :
    (n.addLoss loss v).Grown k s ∧ (n.addLoss loss v).Unasked k s := by
  obtain ⟨node, label⟩ : ∃ node, n.node? v = some node := ⟨_, Array.getElem?_eq_getElem inside⟩
  rcases addLoss_cases loss label (List.length_eq_zero_iff.mp sink) with ⟨-, same⟩ | ⟨-, put⟩
  · rw [same]
    exact ⟨grown, unasked⟩
  · rw [put]
    constructor
    · exact grown.putBehind label (.inr ⟨rfl, (outDegree_eq_zero_iff _ _).mp sink⟩)
    · intro w o after origin
      rcases origin_putBehind grown label (Nat.le_trans grown.later after) origin with
        ⟨-, relays, -⟩ | ⟨-, origin⟩
      · cases relays
      · exact unasked w o after origin

theorem Grown.addLosses {n : Network} {k s : Nat} (grown : n.Grown k s)
    (unasked : n.Unasked k s) (loss : Loss) :
    (n.addLosses loss).Grown k s ∧ (n.addLosses loss).Unasked k s :=
  addLosses_induction (P := fun n => n.Grown k s ∧ n.Unasked k s) loss
    (fun _ both => both.1.wellFormed)
    (fun _ _ both inside sink => both.1.addLoss both.2 loss inside sink) ⟨grown, unasked⟩

/-! ## Non-linearities -/

/-- A layer asks at the place of its non-linearity. -/
theorem asksAt_activationPlace {n : Network} {v : Nat}
    (asks : n.layerIs Layer.needsActivation v = true) : n.AsksAt v (n.activationPlace v) := by
  refine ⟨asks, ?_⟩
  unfold activationPlace
  split
  next next only =>
    split
    next pools =>
      exact .inr ⟨(mem_successors n.graph v next).mp (only ▸ List.mem_singleton_self next), pools⟩
    · exact .inl rfl
  · exact .inl rfl

/-- A node whose layer is of none of the kinds that are added was there from the start. -/
theorem Grown.lt_of_layerIs {n : Network} {k s v : Nat} (grown : n.Grown k s) {test : Layer → Bool}
    (passes : n.layerIs test v = true) (other : ∀ layer, test layer = true →
      layer.kind ∉ [LayerKind.split, .concat, .activation, .loss]) : v < k := by
  obtain ⟨node, there, passes⟩ := layerIs_iff.mp passes
  have others := other node.layer passes
  simp only [List.mem_cons, List.not_mem_nil, or_false, not_or] at others
  obtain ⟨split, concat, activation, loss⟩ := others
  by_contra after
  by_cases small : v < s
  · exact (grown.routing v node (Nat.le_of_not_lt after) small there).elim split concat
  · exact (grown.ending v node (Nat.le_of_not_lt small) there).elim activation loss

theorem kind_of_isMaxPool {layer : Layer} (pools : isMaxPool layer = true) :
    layer.kind = .maxPool :=
  of_decide_eq_true pools

theorem kind_of_needsActivation {layer : Layer} (needs : layer.needsActivation = true) :
    layer.kind = .fullyConnected ∨ layer.kind = .convolution := by
  cases layer with
  | fullyConnected => exact .inl rfl
  | convolution => exact .inr rfl
  | _ => cases needs

/-- A layer that asks is no maximum pooling. -/
theorem not_isMaxPool_of_asking {n : Network} {v : Nat}
    (asks : n.layerIs Layer.needsActivation v = true) : ¬ n.layerIs isMaxPool v = true := by
  intro pools
  obtain ⟨node, there, needs⟩ := layerIs_iff.mp asks
  obtain ⟨node', there', pools⟩ := layerIs_iff.mp pools
  obtain rfl := Option.some.inj (there.symm.trans there')
  rcases kind_of_needsActivation needs with kind | kind <;> simp [kind_of_isMaxPool pools] at kind

/-- The place of a non-linearity was there from the start. -/
theorem AsksAt.lt {n : Network} {k s asking place : Nat} (grown : n.Grown k s)
    (asks : n.AsksAt asking place) : place < k := by
  rcases asks with ⟨needs, rfl | ⟨-, pools⟩⟩
  · refine grown.lt_of_layerIs needs fun layer needs => ?_
    rcases kind_of_needsActivation needs with kind | kind <;> simp [kind]
  · refine grown.lt_of_layerIs pools fun layer pools => ?_
    simp [kind_of_isMaxPool pools]

/-- A non-linearity that a layer asks for after all others were asked for by layers before it. -/
theorem Asked.putBehind {n : Network} {k s next v place : Nat} {node added : Node}
    (grown : n.Grown k s) (label : n.node? place = some node) (asked : n.Asked k s next)
    (le : next ≤ v) (asks : n.AsksAt v place) : (n.putBehind place added).Asked k s (v + 1) := by
  obtain ⟨asker, each, increasing⟩ := asked
  have origins {w o : Nat} (after : s ≤ w) (origin : (n.putBehind place added).Origin k w o) :
      (w = n.graph.size ∧ o = place) ∨ (w < n.graph.size ∧ n.Origin k w o) := by
    rcases origin_putBehind grown label (Nat.le_trans grown.later after) origin with
      ⟨new, -, origin⟩ | old
    · exact .inl ⟨new, origin.eq_of_lt (asks.lt grown)⟩
    · exact .inr old
  -- an earlier layer that asked is not the place: that is this layer, or a maximum pooling
  have other {w p : Nat} (earlier : n.AsksAt w p) (before : w < next) : w ≠ place := by
    rintro rfl
    rcases asks.2 with rfl | ⟨-, pools⟩
    · omega
    · exact not_isMaxPool_of_asking earlier.1 pools
  refine ⟨Function.update asker n.graph.size v, ?_, ?_⟩
  · intro w o after origin
    rcases origins after origin with ⟨rfl, rfl⟩ | ⟨small, origin⟩
    · rw [Function.update_self]
      refine ⟨?_, Nat.lt_succ_self v⟩
      by_cases same : v = o
      · exact ⟨layerIs_putBehind asks.1, .inl same⟩
      · exact asks.putBehind grown label same
    · rw [Function.update_of_ne (Nat.ne_of_lt small)]
      obtain ⟨earlier, before⟩ := each w o after origin
      exact ⟨earlier.putBehind grown label (other earlier before), by omega⟩
  · intro u w o p after later first second
    have after' : s ≤ w := Nat.le_of_lt (Nat.lt_of_le_of_lt after later)
    rcases origins after first with ⟨new, -⟩ | ⟨small, first⟩
    · rcases origins after' second with ⟨new', -⟩ | ⟨small, -⟩ <;> omega
    · rw [Function.update_of_ne (Nat.ne_of_lt small)]
      rcases origins after' second with ⟨rfl, -⟩ | ⟨small', second⟩
      · rw [Function.update_self]
        exact Nat.lt_of_lt_of_le (each u o after first).2 le
      · rw [Function.update_of_ne (Nat.ne_of_lt small')]
        exact increasing u w o p after later first second

theorem Unasked.asked {n : Network} {k s : Nat} (unasked : n.Unasked k s) : n.Asked k s 0 :=
  ⟨id, fun v o after origin => absurd origin (unasked v o after),
    fun u _ o _ after _ origin => absurd origin (unasked u o after)⟩

theorem Asked.mono {n : Network} {k s next next' : Nat} (asked : n.Asked k s next)
    (le : next ≤ next') : n.Asked k s next' := by
  obtain ⟨asker, each, increasing⟩ := asked
  refine ⟨asker, fun v place after origin => ?_, increasing⟩
  exact (each v place after origin).imp_right fun before => Nat.lt_of_lt_of_le before le

theorem Grown.addActivation {n : Network} {k s next v : Nat} (grown : n.Grown k s)
    (activation : Activation) (asked : n.Asked k s next) (le : next ≤ v)
    (needs : n.layerIs Layer.needsActivation v = true) :
    (n.addActivation activation v).Grown k s ∧ (n.addActivation activation v).Asked k s (v + 1)
      ∧ ∀ w, n.layerIs Layer.needsActivation w = true →
        (n.addActivation activation v).layerIs Layer.needsActivation w = true := by
  have asks := asksAt_activationPlace needs
  have still : n.Asked k s (v + 1) := asked.mono (Nat.le_succ_of_le le)
  unfold Network.addActivation
  dsimp only
  split
  · exact ⟨grown, still, fun _ needs => needs⟩
  next node label =>
    split
    · exact ⟨grown, still, fun _ needs => needs⟩
    · exact ⟨grown.putBehind label (.inl rfl), asked.putBehind grown label le asks,
        fun w needs => layerIs_putBehind needs⟩

/-- Layers are asked in order of creation. -/
theorem Grown.addActivations {n : Network} {k s : Nat} (grown : n.Grown k s)
    (unasked : n.Unasked k s) (activation : Activation) :
    (n.addActivations activation).Grown k s
      ∧ ∃ next, (n.addActivations activation).Asked k s next := by
  have run (xs : List Nat) (sorted : xs.Pairwise (· < ·)) (next : Nat) (n : Network)
      (grown : n.Grown k s) (asked : n.Asked k s next)
      (asking : ∀ v ∈ xs, next ≤ v ∧ n.layerIs Layer.needsActivation v = true) :
      (xs.foldl (Network.addActivation activation) n).Grown k s
        ∧ ∃ next', (xs.foldl (Network.addActivation activation) n).Asked k s next' := by
    induction xs generalizing next n with
    | nil => exact ⟨grown, next, asked⟩
    | cons v xs ih =>
      obtain ⟨later, sorted⟩ := List.pairwise_cons.mp sorted
      obtain ⟨⟨le, needs⟩, others⟩ := List.forall_mem_cons.mp asking
      obtain ⟨grown', asked', kept⟩ := grown.addActivation activation asked le needs
      refine ih sorted (v + 1) _ grown' asked' fun w member => ?_
      exact ⟨later w member, kept w (others w member).2⟩
  refine run _ (List.pairwise_lt_range.filter _) 0 n grown unasked.asked fun v member => ?_
  exact ⟨Nat.zero_le v, (List.mem_filter.mp member).2⟩

/-! ## Compiled networks -/

/-- The plain network of a normal form has the origins of its components. -/
theorem grown_of_buildNetwork {c normal : ComponentGraph} (wf : normal.graph.WellFormed)
    (ordered : normal.Ordered c.size) (larger : ComponentGraph.Extends c.size c normal)
    {inputShape : Shape} {supply supply' : Supply} {n : Network}
    (run : (buildNetwork normal inputShape).run supply = .ok (n, supply')) :
    n.Grown c.size normal.size ∧ n.Unasked c.size normal.size := by
  obtain ⟨-, nodes, declared, same, keys, there⟩ := exists_nodes_of_buildNetwork run
  have length := length_of_keys keys
  have graph : n.graph = normal.graph.copyWith nodes.toArray := by rw [same]
  have size : n.graph.size = normal.size := by
    rw [Digraph.size, graph, vertices_copyWith, List.size_toArray, length]
    rfl
  -- a node that was added is of the kind that its component asks for
  have added {v : Nat} (after : c.size ≤ v) {node : Node} (label : n.node? v = some node) :
      ∃ component, normal.graph.label? v = some component ∧
        ((component.blueprint = .split ∧ node.layer.kind = .split)
          ∨ (component.blueprint = .concat ∧ node.layer.kind = .concat)) := by
    have inside : v < normal.graph.size := Nat.lt_of_lt_of_eq (lt_of_node? label) size
    have found : normal.graph.label? v = some normal.graph.vertices[v] :=
      Array.getElem?_eq_getElem inside
    obtain ⟨node', label', made⟩ := there v _ found
    obtain rfl := Option.some.inj (label'.symm.trans label)
    refine ⟨_, found, (larger.routing_of_le after found).imp (fun is => ?_) fun is => ?_⟩
    · exact ⟨is, made.kind_iff.1.mpr is⟩
    · exact ⟨is, made.kind_iff.2.mpr is⟩
  have edges (x y : Nat) : n.graph.Adj x y ↔ normal.graph.Adj x y := by
    rw [graph]
    exact adj_copyWith wf nodes.toArray x y
  have relays (v : Nat) (after : c.size ≤ v) :
      n.graph.Relays Node.relays v ↔ normal.graph.Relays Component.isSplit v := by
    constructor
    · intro relays
      obtain ⟨node, label, relays⟩ := (Option.any_eq_true _ _).mp relays
      obtain ⟨component, found, ⟨is, -⟩ | ⟨-, kind⟩⟩ := added after label
      · refine (Option.any_eq_true _ _).mpr ⟨component, found, ?_⟩
        exact (ComponentGraph.isSplit_iff _).mpr is
      · simp [Node.relays, kind] at relays
    · intro relays
      obtain ⟨component, found, isSplit⟩ := (Option.any_eq_true _ _).mp relays
      obtain ⟨node, label, made⟩ := there v component found
      have kind := made.kind_iff.1.mpr ((ComponentGraph.isSplit_iff _).mp isSplit)
      exact (Option.any_eq_true _ _).mpr ⟨node, label, by simp [Node.relays, kind]⟩
  constructor
  · refine ⟨?_, larger.size_le, Nat.le_of_eq size.symm,
      Origin.traceable_congr edges relays ordered.traceable, ?_, ?_, ?_⟩
    · rw [graph]
      exact wellFormed_copyWith wf _ (by rw [List.size_toArray, length])
    · intro u v o p after later small first second
      exact ordered.inOrder u v o p after later small
        ((Origin.congr edges relays).mp first) ((Origin.congr edges relays).mp second)
    · intro v node after _ label
      obtain ⟨_, -, ⟨-, kind⟩ | ⟨-, kind⟩⟩ := added after label
      · exact .inl kind
      · exact .inr kind
    · intro v node after label
      exact absurd (Nat.lt_of_lt_of_eq (lt_of_node? label) size) (Nat.not_lt.mpr after)
  · intro v o after origin
    have inside := (origin.relays (Nat.le_trans larger.size_le after)).lt
    exact absurd (Nat.lt_of_lt_of_eq inside size) (Nat.not_lt.mpr after)

/-- Every compiled network grew from its assembled graph. -/
theorem grown_of_compile {text : String} {options : Options} {store store' : Store} {n : Network}
    {assembled : Assembled} (made : assembledOf text = .ok assembled)
    (compiled : compile text options store = .ok (n, store')) :
    ∃ s next, n.Grown assembled.components.size s ∧ n.Asked assembled.components.size s next := by
  obtain ⟨normal, components, rest⟩ := Outcome.bind_eq_ok_iff.mp compiled
  obtain ⟨⟨n', supply⟩, built, same⟩ := Outcome.bind_eq_ok_iff.mp rest
  cases same
  obtain ⟨assembled', made', wf, -, normalized⟩ := exists_assembled_of_componentsOf components
  obtain rfl : assembled' = assembled := by
    rw [made] at made'
    cases made'
    rfl
  have runnable := runnable_of_componentsOf components
  obtain ⟨plain, supply₁, plainly, rest⟩ := Outcome.run_bind_eq_ok.mp built
  cases rest
  obtain ⟨grown, unasked⟩ := grown_of_buildNetwork runnable.dag.wellFormed
    (ComponentGraph.origins_of_normalize wf normalized)
    (ComponentGraph.extends_normalize wf normalized) plainly
  obtain ⟨ended, is⟩ :
      ∃ ended, ended = if options.addLosses then plain.addLosses options.loss else plain := ⟨_, rfl⟩
  obtain ⟨grown, unasked⟩ : ended.Grown assembled'.components.size normal.size
      ∧ ended.Unasked assembled'.components.size normal.size := by
    rw [is]
    split
    · exact grown.addLosses unasked options.loss
    · exact ⟨grown, unasked⟩
  rw [← is]
  refine ⟨normal.size, ?_⟩
  split
  · obtain ⟨grown, next, asked⟩ := grown.addActivations unasked options.activation
    exact ⟨next, grown, asked⟩
  · exact ⟨0, grown, unasked.asked⟩

/-! ## The order of the inputs -/

/-- A sorted list is what is below a bound and what is not. -/
theorem exists_append_of_sorted {xs : List Nat} (sorted : xs.Pairwise (· < ·)) (bound : Nat) :
    ∃ low high, xs = low ++ high ∧ (∀ x ∈ low, x < bound) ∧ ∀ x ∈ high, bound ≤ x := by
  induction xs with
  | nil => exact ⟨[], [], rfl, by simp, by simp⟩
  | cons x xs ih =>
    obtain ⟨least, sorted⟩ := List.pairwise_cons.mp sorted
    by_cases small : x < bound
    · obtain ⟨low, high, rfl, below, above⟩ := ih sorted
      exact ⟨x :: low, high, rfl, List.forall_mem_cons.mpr ⟨small, below⟩, above⟩
    · refine ⟨[], x :: xs, rfl, by simp, List.forall_mem_cons.mpr ⟨Nat.le_of_not_lt small, ?_⟩⟩
      intro y member
      have := least y member
      omega

/-- An increasing function gives the members of a sorted list partners that increase. -/
theorem exists_increasing {R : Nat → Nat → Prop} {xs : List Nat} (sorted : xs.Pairwise (· < ·))
    {f : Nat → Nat} (each : ∀ x ∈ xs, R x (f x))
    (increasing : ∀ x ∈ xs, ∀ y ∈ xs, x < y → f x < f y) :
    ∃ ys, List.Forall₂ R xs ys ∧ ys.Pairwise (· < ·) := by
  refine ⟨xs.map f, List.forall₂_map_right_iff.mpr (List.forall₂_same.mpr each), ?_⟩
  rw [List.pairwise_map]
  exact sorted.imp_of_mem fun member member' => increasing _ member _ member'

/-- The inputs of a concatenation in three groups: vertices of the assembled graph, in order of
creation; added splits, in the order of their origins; added non-linearities, in the order of the
layers that asked for them. -/
structure InGroups (n : Network) (k : Nat) (direct splits activations : List Nat) : Prop where
  direct_lt : ∀ u ∈ direct, u < k
  direct_inOrder : n.TracesInOrder k direct
  splits_added : ∀ u ∈ splits, k ≤ u ∧ n.layerIs (fun layer => layer.kind = .split) u
  splits_inOrder : n.TracesInOrder k splits
  activations_added : ∀ u ∈ activations, k ≤ u ∧ n.layerIs (fun layer => layer.kind = .activation) u
  activations_inOrder : n.AskedInOrder k activations

/-- A node that has an origin is one from the start, an added split, or an added non-linearity. -/
theorem Grown.kind_of_origin {n : Network} {k s v o : Nat} (grown : n.Grown k s)
    (origin : n.Origin k v o) (after : k ≤ v) :
    (v < s → n.layerIs (fun layer => layer.kind = .split) v = true)
      ∧ (s ≤ v → n.layerIs (fun layer => layer.kind = .activation) v = true) := by
  obtain ⟨node, label, relays⟩ := (Option.any_eq_true _ _).mp (origin.relays after)
  constructor
  · intro small
    refine layerIs_iff.mpr ⟨node, label, decide_eq_true ?_⟩
    refine (grown.routing v node after small label).resolve_right fun concat => ?_
    simp [Node.relays, concat] at relays
  · intro late
    refine layerIs_iff.mpr ⟨node, label, decide_eq_true ?_⟩
    refine (grown.ending v node late label).resolve_right fun loss => ?_
    simp [Node.relays, loss] at relays

/-- Where several inputs arrive, each can be walked back to one vertex of the assembled graph, and
the inputs come in three groups. -/
theorem Grown.inGroups {n : Network} {k s next : Nat} (grown : n.Grown k s)
    (asked : n.Asked k s next) {v : Nat} (several : 1 < n.graph.inDegree v) :
    (∀ u ∈ n.graph.predecessorsInOrder v, ∃! o, n.Origin k u o)
      ∧ ∃ direct splits activations,
        n.graph.predecessorsInOrder v = direct ++ splits ++ activations
          ∧ n.InGroups k direct splits activations := by
  have wf := grown.wellFormed
  obtain ⟨x, y, different, first, second⟩ := (wf.one_lt_inDegree_iff v).mp several
  have traced (u : Nat) (member : u ∈ n.graph.predecessorsInOrder v) : ∃ o, n.Origin k u o := by
    refine (grown.traceable.feeds u v ((mem_predecessorsInOrder _ _ _).mp member)).resolve_right ?_
    exact fun alone => different ((alone x first).trans (alone y second).symm)
  choose! origin isOrigin using traced
  refine ⟨fun u member => ⟨origin u, isOrigin u member, fun o other => ?_⟩, ?_⟩
  · exact other.unique grown.traceable (isOrigin u member)
  have sorted := wf.pairwise_predecessorsInOrder v
  obtain ⟨early, activations, parts, early_lt, activations_le⟩ := exists_append_of_sorted sorted s
  rw [parts] at sorted isOrigin ⊢
  obtain ⟨sortedEarly, sortedLate, -⟩ := List.pairwise_append.mp sorted
  obtain ⟨direct, splits, rfl, direct_lt, splits_le⟩ := exists_append_of_sorted sortedEarly k
  obtain ⟨sortedDirect, sortedSplits, -⟩ := List.pairwise_append.mp sortedEarly
  simp only [List.mem_append] at isOrigin early_lt
  refine ⟨direct, splits, activations, rfl, direct_lt, ?_, ?_, ?_, ?_, ?_⟩
  · exact exists_increasing sortedDirect (f := id)
      (fun u member => .here (direct_lt u member)) fun _ _ _ _ lt => lt
  · intro u member
    have late := splits_le u member
    exact ⟨late, (grown.kind_of_origin (isOrigin u (.inl (.inr member))) late).1
      (early_lt u (.inr member))⟩
  · refine exists_increasing sortedSplits (fun u member => isOrigin u (.inl (.inr member))) ?_
    intro u member w member' lt
    exact grown.inOrder u w _ _ (splits_le u member) lt (early_lt w (.inr member'))
      (isOrigin u (.inl (.inr member))) (isOrigin w (.inl (.inr member')))
  · intro u member
    have late := activations_le u member
    have after := Nat.le_trans grown.later late
    exact ⟨after, (grown.kind_of_origin (isOrigin u (.inr member)) after).2 late⟩
  · obtain ⟨asker, each, increasing⟩ := asked
    refine exists_increasing sortedLate (f := asker) (fun u member => ?_) ?_
    · exact ⟨origin u, isOrigin u (.inr member),
        (each u _ (activations_le u member) (isOrigin u (.inr member))).1⟩
    · intro u member w member' lt
      exact increasing u w _ _ (activations_le u member) lt (isOrigin u (.inr member))
        (isOrigin w (.inr member'))

/-- In a compiled network, each of several inputs of a node, which only a concatenation has, can be
walked back through added splits and non-linearities to one vertex of the assembled graph. The node
takes first the inputs that are such vertices, in order of creation, then those through added
splits, in the order of their origins, then those through added non-linearities, in the order of the
layers that asked for them. -/
theorem predecessorsInOrder_of_compile {text : String} {options : Options} {store store' : Store}
    {n : Network} {assembled : Assembled} (made : assembledOf text = .ok assembled)
    (compiled : compile text options store = .ok (n, store')) {v : Nat}
    (several : 1 < n.graph.inDegree v) :
    (∀ u ∈ n.graph.predecessorsInOrder v, ∃! o, n.Origin assembled.components.size u o)
      ∧ ∃ direct splits activations,
        n.graph.predecessorsInOrder v = direct ++ splits ++ activations
          ∧ n.InGroups assembled.components.size direct splits activations := by
  obtain ⟨s, next, grown, asked⟩ := grown_of_compile made compiled
  exact grown.inGroups asked several

/-- Three branches meet: the first vertex asks for a non-linearity, the second also leads elsewhere,
the third does neither. -/
theorem exists_three_branches : ∃ assembled n store',
    assembledOf "D=2N,A=RELU,B=TANH,C=RELU,D~C,A~C,B~C,A~RELU" = .ok assembled
      ∧ compile "D=2N,A=RELU,B=TANH,C=RELU,D~C,A~C,B~C,A~RELU"
        ⟨true, false, [1], .relu, .squared, 0, 0⟩ .empty = .ok (n, store')
      ∧ assembled.components.size = 5
      ∧ (n.node? 7).map (fun node => node.layer.kind) = some .concat
      ∧ n.graph.predecessors 7 = [8, 6, 3] ∧ n.graph.predecessors 8 = [0]
      ∧ n.graph.predecessors 6 = [2] := by
  have read : readArchitecture "D=2N,A=RELU,B=TANH,C=RELU,D~C,A~C,B~C,A~RELU"
      = .ok [.define "D" [.token "2N"], .define "A" [.token "RELU"], .define "B" [.token "TANH"],
        .define "C" [.token "RELU"], .chain [.token "D", .token "C"],
        .chain [.token "A", .token "C"], .chain [.token "B", .token "C"],
        .chain [.token "A", .token "RELU"]] := rfl
  have assembles : (assembledOf "D=2N,A=RELU,B=TANH,C=RELU,D~C,A~C,B~C,A~RELU").toOption.any
      (fun assembled => assembled.components.size == 5) = true := by
    unfold assembledOf
    rw [read]
    decide +kernel
  have compiles : (compile "D=2N,A=RELU,B=TANH,C=RELU,D~C,A~C,B~C,A~RELU"
      ⟨true, false, [1], .relu, .squared, 0, 0⟩ .empty).toOption.any (fun built =>
        (built.1.node? 7).map (fun node => node.layer.kind) == some .concat
          && built.1.graph.predecessors 7 == [8, 6, 3] && built.1.graph.predecessors 8 == [0]
          && built.1.graph.predecessors 6 == [2]) = true := by
    unfold compile componentsOf
    rw [read]
    unfold ComponentGraph.normalize ComponentGraph.splitFanOut ComponentGraph.joinFanIn
      ComponentGraph.build buildNetwork buildLayer placementOf addActivations addActivation
      insertAfter insertBefore
    simp only [successorsInOrder_eq_insertionSort, predecessorsInOrder_eq_insertionSort]
    decide +kernel
  obtain ⟨assembled, made, size⟩ := except_exists_of_any assembles
  obtain ⟨⟨n, store'⟩, compiled, passes⟩ := except_exists_of_any compiles
  simp only [Bool.and_eq_true, beq_iff_eq] at size passes
  obtain ⟨⟨⟨kind, joined⟩, asked⟩, split⟩ := passes
  exact ⟨assembled, n, store', made, compiled, size, kind, joined, asked, split⟩

/-- The concatenation of the three branches takes its inputs in groups. -/
theorem predecessorsInOrder_of_three_branches : ∃ assembled n store',
    assembledOf "D=2N,A=RELU,B=TANH,C=RELU,D~C,A~C,B~C,A~RELU" = .ok assembled
      ∧ compile "D=2N,A=RELU,B=TANH,C=RELU,D~C,A~C,B~C,A~RELU"
        ⟨true, false, [1], .relu, .squared, 0, 0⟩ .empty = .ok (n, store')
      ∧ 1 < n.graph.inDegree 7
      ∧ (∀ u ∈ n.graph.predecessorsInOrder 7, ∃! o, n.Origin assembled.components.size u o)
      ∧ ∃ direct splits activations,
        n.graph.predecessorsInOrder 7 = direct ++ splits ++ activations
          ∧ n.InGroups assembled.components.size direct splits activations := by
  obtain ⟨assembled, n, store', made, compiled, -, -, joined, -, -⟩ := exists_three_branches
  have several : 1 < n.graph.inDegree 7 := by
    rw [inDegree, joined]
    decide
  exact ⟨assembled, n, store', made, compiled, several,
    predecessorsInOrder_of_compile made compiled several⟩

/-- It takes the third branch first and the first last, so not in the order of their origins. -/
theorem not_concatenatesInOrder : ∃ assembled n store',
    assembledOf "D=2N,A=RELU,B=TANH,C=RELU,D~C,A~C,B~C,A~RELU" = .ok assembled
      ∧ compile "D=2N,A=RELU,B=TANH,C=RELU,D~C,A~C,B~C,A~RELU"
        ⟨true, false, [1], .relu, .squared, 0, 0⟩ .empty = .ok (n, store')
      ∧ ¬ n.ConcatenatesInOrder assembled.components.size := by
  obtain ⟨assembled, n, store', made, compiled, size, kind, joined, asked, split⟩ :=
    exists_three_branches
  refine ⟨assembled, n, store', made, compiled, fun ordered => ?_⟩
  obtain ⟨node, label, concat⟩ := Option.map_eq_some_iff.mp kind
  obtain ⟨origins, traced, sorted⟩ := ordered 7 node label concat (by rw [inDegree, joined]; decide)
  have inputs : n.graph.predecessorsInOrder 7 = [3, 6, 8] := by
    rw [predecessorsInOrder_eq_insertionSort, joined]
    decide
  rw [inputs, size] at traced
  -- what stands behind one vertex of the assembled graph has that for its origin
  have behind {v u o : Nat} (only : n.graph.predecessors v = [u]) (old : u < 5) (late : 5 ≤ v)
      (origin : n.Origin 5 v o) : o = u := by
    cases origin with
    | here before => exact absurd before (Nat.not_lt.mpr late)
    | through _ _ edge rest =>
      have member := (mem_predecessors _ _ _).mpr edge
      rw [only, List.mem_singleton] at member
      subst member
      exact rest.eq_of_lt old
  cases traced with
  | cons first rest =>
    cases rest with
    | cons second rest =>
      obtain rfl := first.eq_of_lt (by decide)
      obtain rfl := behind split (by decide) (by decide) second
      exact absurd sorted (by simp)

end Network

end LayerNet
