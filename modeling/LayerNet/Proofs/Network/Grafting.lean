import LayerNet.Proofs.Digraph.Grafting
import LayerNet.Proofs.Network.Concatenation

/-!
# Grafted networks — losses behind sinks, non-linearities behind the layers that ask for one

What is added to a network is grafted onto the plain one (`Network.Grafts`): every node is put
behind a plain node that leads to no loss or non-linearity yet. Losses are put behind all sinks
without one, so that every sink is a loss (`endsInLosses_addLosses`, by induction on the sinks that
are left).

A non-linearity is put behind the layer that asks for it, or behind the maximum pooling that alone
follows this layer (`Network.IsPlace`). A layer that has its non-linearity keeps it
(`Settled.putBehind`): a later one goes neither behind the same place, which is taken, nor behind
the layer itself, where only its own would go. And sinks stay losses, since a place that is a sink
would be no loss. So one addition settles one layer and breaks nothing (`Grafts.addActivation`), and
all additions settle all layers (`Grafts.addActivations`, by induction on the layers that ask).
-/

namespace LayerNet

open LayerNet.Digraph

namespace Network

/-- A maximum pooling alone follows a node. -/
def PoolsAlone (n : Network) (v next : Nat) : Prop :=
  n.graph.successors v = [next] ∧ n.layerIs isMaxPool next = true

/-- The place of a node's non-linearity: the maximum pooling that alone follows the node, or the
node itself where there is none. -/
def IsPlace (n : Network) (v place : Nat) : Prop :=
  n.PoolsAlone v place ∨ (place = v ∧ ∀ next, ¬ n.PoolsAlone v next)

/-- A non-linearity or a loss follows the place of a node's non-linearity. -/
def Settled (n : Network) (v : Nat) : Prop :=
  ∀ place, n.IsPlace v place →
    ∃ w ∈ n.graph.successors place, n.layerIs isActivationOrLoss w = true

/-- Every sink is a loss. -/
def EndsInLosses (n : Network) : Prop :=
  ∀ v ∈ n.sinks, n.layerIs (fun layer => layer.kind = .loss) v = true

/-- A network with nodes of allowed layers grafted onto a plain one. -/
structure Grafts (allowed : Layer → Prop) (plain n : Network) : Prop where
  graph : plain.graph.Grafted n.graph
  keeps : ∀ v < plain.graph.size, n.node? v = plain.node? v
  added : ∀ v node, plain.graph.size ≤ v → n.node? v = some node → allowed node.layer
  ends : ∀ v node, plain.graph.size ≤ v → n.node? v = some node → node.layer.kind = .loss →
    ∀ w, ¬ n.graph.Adj v w

theorem kind_of_isSome_loss? {layer : Layer} : layer.loss?.isSome ↔ layer.kind = .loss := by
  cases layer with
  | loss => exact iff_of_true rfl rfl
  | pool pooling => cases pooling <;> exact iff_of_false nofun nofun
  | _ => exact iff_of_false nofun nofun

theorem isPlace_iff {n : Network} {v place : Nat} :
    n.IsPlace v place ↔ n.activationPlace v = place := by
  have pools (next : Nat) : n.PoolsAlone v next ↔
      n.graph.successors v = [next] ∧ n.layerIs isMaxPool next = true := Iff.rfl
  unfold activationPlace IsPlace
  simp only [pools]
  split
  next next only =>
    rw [only]
    split
    next isPool =>
      constructor
      · rintro (⟨same, -⟩ | ⟨-, none⟩)
        · exact (List.cons.inj same).1
        · exact absurd ⟨rfl, isPool⟩ (none next)
      · rintro rfl
        exact .inl ⟨rfl, isPool⟩
    next noPool =>
      constructor
      · rintro (⟨same, isPool⟩ | ⟨same, -⟩)
        · exact absurd ((List.cons.inj same).1 ▸ isPool) noPool
        · exact same.symm
      · rintro rfl
        exact .inr ⟨rfl, fun other ⟨same, isPool⟩ => noPool ((List.cons.inj same).1 ▸ isPool)⟩
  next several =>
    constructor
    · rintro (⟨only, -⟩ | ⟨same, -⟩)
      · exact absurd only (several place)
      · exact same.symm
    · rintro rfl
      exact .inr ⟨rfl, fun other pools => several other pools.1⟩

namespace Grafts

variable {allowed : Layer → Prop} {plain n : Network}

theorem refl (wf : plain.graph.WellFormed) : plain.Grafts allowed plain where
  graph := .of_adj wf rfl fun _ _ => Iff.rfl
  keeps _ _ := rfl
  added _ _ late label := absurd (lt_of_node? label) (Nat.not_lt.mpr late)
  ends _ _ late label := absurd (lt_of_node? label) (Nat.not_lt.mpr late)

theorem mono {allowed' : Layer → Prop} (weaker : ∀ layer, allowed layer → allowed' layer)
    (grafts : plain.Grafts allowed n) : plain.Grafts allowed' n where
  graph := grafts.graph
  keeps := grafts.keeps
  added v node late label := weaker _ (grafts.added v node late label)
  ends := grafts.ends

/-- A node is put behind a plain one that leads to plain nodes only. -/
theorem putBehind (grafts : plain.Grafts allowed n) {t : Nat} {node : Node}
    (label : n.node? t = some node) (old : t < plain.graph.size)
    (free : ∀ w, n.graph.Adj t w → w < plain.graph.size) {added : Node}
    (allows : allowed added.layer)
    (ends : added.layer.kind = .loss → ∀ w, ¬ n.graph.Adj t w) :
    plain.Grafts allowed (n.putBehind t added) := by
  have wf := grafts.graph.wellFormed
  have inside := lt_of_node? label
  refine ⟨grafts.graph.insertAfter old free added, fun v before => ?_, fun v other late there => ?_,
    fun v other late there isLoss w edge => ?_⟩
  · rw [node?_putBehind_of_lt added (Nat.lt_of_lt_of_le before grafts.graph.later)]
    exact grafts.keeps v before
  · rcases node?_putBehind_cases added there with ⟨-, there⟩ | ⟨-, rfl⟩
    · exact grafts.added v other late there
    · exact allows
  · have later := grafts.graph.later
    have from? := (adj_insertAfter wf inside added v w).mp edge
    rcases node?_putBehind_cases added there with ⟨below, there⟩ | ⟨rfl, rfl⟩
    · rcases from? with ⟨rfl, -⟩ | ⟨same, -⟩ | ⟨-, edge⟩
      · omega
      · omega
      · exact grafts.ends v other late there isLoss w edge
    · rcases from? with ⟨rfl, -⟩ | ⟨-, edge⟩ | ⟨-, edge⟩
      · exact absurd inside (Nat.lt_irrefl _)
      · exact ends isLoss w edge
      · exact absurd (wf.inside _ w edge).1 (Nat.lt_irrefl _)

/-! ## Losses -/

/-- A loss is put behind a sink of the plain network. -/
theorem addLoss {loss : Loss}
    (grafts : plain.Grafts (fun layer => ∃ shape, layer = .loss loss shape) n) {v : Nat}
    (inside : v < n.graph.size) (sink : n.graph.outDegree v = 0) :
    plain.Grafts (fun layer => ∃ shape, layer = .loss loss shape) (n.addLoss loss v) := by
  obtain ⟨node, label⟩ : ∃ node, n.node? v = some node := ⟨_, Array.getElem?_eq_getElem inside⟩
  have alone := (outDegree_eq_zero_iff n.graph v).mp sink
  rcases addLoss_cases loss label (List.length_eq_zero_iff.mp sink) with ⟨-, same⟩ | ⟨noLoss, put⟩
  · rw [same]
    exact grafts
  · rw [put]
    refine grafts.putBehind label ?_ (fun w edge => absurd edge (alone w)) ⟨_, rfl⟩ fun _ => alone
    -- what was added is a loss
    by_contra late
    obtain ⟨shape, isLoss⟩ := grafts.added v node (Nat.le_of_not_lt late) label
    rw [isLoss] at noLoss
    exact noLoss rfl

theorem addLosses {loss : Loss} (wf : plain.graph.WellFormed) :
    plain.Grafts (fun layer => ∃ shape, layer = .loss loss shape) (plain.addLosses loss) :=
  addLosses_induction loss (fun _ grafts => grafts.graph.wellFormed)
    (fun _ _ grafts inside sink => grafts.addLoss inside sink) (refl wf)

end Grafts

theorem mem_sinks_iff {n : Network} {v : Nat} :
    v ∈ n.sinks ↔ v < n.graph.size ∧ ∀ w, ¬ n.graph.Adj v w := by
  rw [sinks, mem_sinks, ← List.length_eq_zero_iff]
  exact and_congr_right fun _ => outDegree_eq_zero_iff n.graph v

/-- A node put behind another is no sink, unless the other was one. -/
theorem mem_sinks_putBehind {n : Network} (wf : n.graph.WellFormed) {t : Nat} {node : Node}
    (label : n.node? t = some node) (added : Node) {v : Nat}
    (sink : v ∈ (n.putBehind t added).sinks) :
    (v = n.graph.size ∧ t ∈ n.sinks) ∨ (v < n.graph.size ∧ v ≠ t ∧ v ∈ n.sinks) := by
  have inside := lt_of_node? label
  have edges := adj_insertAfter wf inside added
  obtain ⟨below, alone⟩ := mem_sinks_iff.mp sink
  have size : (n.putBehind t added).graph.size = n.graph.size + 1 :=
    size_insertAfter n.graph t added
  have other : v ≠ t := by
    rintro rfl
    exact alone n.graph.size ((edges _ _).mpr (.inl ⟨rfl, rfl⟩))
  by_cases new : v = n.graph.size
  · subst new
    exact .inl ⟨rfl, mem_sinks_iff.mpr ⟨inside, fun w edge =>
      alone w ((edges _ _).mpr (.inr (.inl ⟨rfl, edge⟩)))⟩⟩
  · have below : v < n.graph.size := by omega
    exact .inr ⟨below, other, mem_sinks_iff.mpr ⟨below, fun w edge =>
      alone w ((edges _ _).mpr (.inr (.inr ⟨other, edge⟩)))⟩⟩

/-- Behind every sink, by induction on the sinks: those that are left are the only ones without. -/
theorem endsInLosses_addLosses (loss : Loss) {n : Network} (wf : n.graph.WellFormed) :
    (n.addLosses loss).EndsInLosses := by
  have run := addLosses_run (n := n) (P := fun xs n => n.graph.WellFormed
    ∧ ∀ v ∈ n.sinks, v ∈ xs ∨ n.layerIs (fun layer => layer.kind = .loss) v = true) loss
    (fun _ _ both => both.1) ?_ ⟨wf, fun v sink => .inl sink⟩
  · exact fun v sink => (run.2 v sink).resolve_left List.not_mem_nil
  rintro v xs n ⟨wf, others⟩ inside sink
  obtain ⟨node, label⟩ : ∃ node, n.node? v = some node := ⟨_, Array.getElem?_eq_getElem inside⟩
  rcases addLoss_cases loss label (List.length_eq_zero_iff.mp sink) with ⟨ends, same⟩ | ⟨-, put⟩
  · rw [same]
    refine ⟨wf, fun w sink => ?_⟩
    rcases others w sink with member | isLoss
    · rcases List.mem_cons.mp member with rfl | member
      · exact .inr (layerIs_iff.mpr ⟨node, label, decide_eq_true (kind_of_isSome_loss?.mp ends)⟩)
      · exact .inl member
    · exact .inr isLoss
  · rw [put]
    refine ⟨wf.insertAfter inside _, fun w sink => ?_⟩
    rcases mem_sinks_putBehind wf label _ sink with ⟨rfl, -⟩ | ⟨below, other, sink⟩
    · exact .inr (layerIs_iff.mpr ⟨_, node?_putBehind_new _, rfl⟩)
    · rw [layerIs_putBehind_of_lt _ _ below]
      exact (others w sink).imp_left fun member => (List.mem_cons.mp member).resolve_left other

/-! ## Non-linearities -/

theorem kind_of_isActivationOrLoss {layer : Layer} :
    isActivationOrLoss layer = true ↔ layer.kind = .activation ∨ layer.kind = .loss := by
  simp [isActivationOrLoss]

theorem not_isActivationOrLoss_of_asking {layer : Layer} (needs : layer.needsActivation = true) :
    isActivationOrLoss layer = false := by
  rcases kind_of_needsActivation needs with kind | kind <;> simp [isActivationOrLoss, kind]

theorem needsActivation_of_kind {layer : Layer}
    (kind : layer.kind = .fullyConnected ∨ layer.kind = .convolution) :
    layer.needsActivation = true := by
  cases layer with
  | fullyConnected | convolution => rfl
  | pool pooling => cases pooling <;> exact absurd kind (by simp [Layer.kind])
  | _ => exact absurd kind (by simp [Layer.kind])

theorem layerIs_eq_of_imp {n : Network} {test test' : Layer → Bool} {v : Nat}
    (passes : n.layerIs test v = true)
    (imp : ∀ layer, test layer = true → test' layer = false) : n.layerIs test' v = false := by
  obtain ⟨node, label, passes⟩ := layerIs_iff.mp passes
  rw [layerIs, label]
  exact imp _ passes

section PutBehind

variable {n : Network} (wf : n.graph.WellFormed) {t : Nat} {node : Node}
  (label : n.node? t = some node) (added : Node)
include wf label

/-- Nothing changes behind the other nodes. -/
theorem adj_putBehind_of_ne {v w : Nat} (other : v ≠ t) (old : v < n.graph.size) :
    (n.putBehind t added).graph.Adj v w ↔ n.graph.Adj v w := by
  refine (adj_insertAfter wf (lt_of_node? label) added v w).trans
    ⟨?_, fun edge => .inr (.inr ⟨other, edge⟩)⟩
  rintro (⟨same, -⟩ | ⟨same, -⟩ | ⟨-, edge⟩)
  · exact absurd same other
  · omega
  · exact edge

theorem poolsAlone_putBehind {v next : Nat} (other : v ≠ t) (old : v < n.graph.size) :
    (n.putBehind t added).PoolsAlone v next ↔ n.PoolsAlone v next := by
  have wf' : (n.putBehind t added).graph.WellFormed := wf.insertAfter (lt_of_node? label) added
  unfold PoolsAlone
  rw [wf'.successors_eq_singleton_iff, wf.successors_eq_singleton_iff]
  simp only [adj_putBehind_of_ne wf label added other old]
  refine and_congr_right fun alone => ?_
  rw [layerIs_putBehind_of_lt added _ (wf.inside v next ((alone next).mpr rfl)).2]

/-- The places of the other nodes stay. -/
theorem isPlace_putBehind {v place : Nat} (other : v ≠ t) (old : v < n.graph.size) :
    (n.putBehind t added).IsPlace v place ↔ n.IsPlace v place := by
  simp only [IsPlace, poolsAlone_putBehind wf label added other old]

/-- A node that is settled stays so when something is put behind another node, which leads to no
non-linearity or loss. -/
theorem Settled.putBehind {v : Nat} (settled : n.Settled v) (other : v ≠ t) (old : v < n.graph.size)
    (bare : ∀ w, n.graph.Adj t w → n.layerIs isActivationOrLoss w = false) :
    (n.putBehind t added).Settled v := by
  intro place isPlace
  have before := (isPlace_putBehind wf label added other old).mp isPlace
  obtain ⟨w, follows, passes⟩ := settled place before
  have edge := (mem_successors n.graph place w).mp follows
  have inside := wf.inside place w edge
  have different : place ≠ t := by
    rintro rfl
    rw [bare w edge] at passes
    cases passes
  refine ⟨w, (mem_successors _ place w).mpr ?_, ?_⟩
  · exact (adj_putBehind_of_ne wf label added different inside.1).mpr edge
  · rw [layerIs_putBehind_of_lt added _ inside.2]
    exact passes

/-- The node at whose place a non-linearity is put is settled. -/
theorem settled_putBehind {v : Nat} (old : v < n.graph.size) (isPlace : n.IsPlace v t)
    (isActivation : added.layer.kind = .activation) : (n.putBehind t added).Settled v := by
  have inside := lt_of_node? label
  have new : (n.putBehind t added).layerIs isActivationOrLoss n.graph.size = true :=
    layerIs_iff.mpr ⟨added, node?_putBehind_new added,
      kind_of_isActivationOrLoss.mpr (.inl isActivation)⟩
  have behind : n.graph.size ∈ (n.putBehind t added).graph.successors t :=
    (mem_successors _ _ _).mpr ((adj_insertAfter wf inside added _ _).mpr (.inl ⟨rfl, rfl⟩))
  -- either way, the place is where the new node is behind
  suffices stays : ∀ place, (n.putBehind t added).IsPlace v place → place = t by
    intro place isPlace'
    rw [stays place isPlace']
    exact ⟨_, behind, new⟩
  intro place isPlace'
  by_cases same : v = t
  · subst same
    have only := successors_insertAfter wf inside added
    rcases isPlace' with ⟨alone, pools⟩ | ⟨same, -⟩
    · obtain rfl : n.graph.size = place := (List.cons.inj (only.symm.trans alone)).1
      have noPool : (n.putBehind v added).layerIs isMaxPool n.graph.size = false := by
        refine layerIs_eq_of_imp new fun layer passes => ?_
        rcases kind_of_isActivationOrLoss.mp passes with kind | kind <;> simp [isMaxPool, kind]
      rw [noPool] at pools
      cases pools
    · exact same
  · have before := (isPlace_putBehind wf label added same old).mp isPlace'
    exact (isPlace_iff.mp before).symm.trans (isPlace_iff.mp isPlace)

end PutBehind

namespace Grafts

variable {allowed : Layer → Prop} {plain n : Network}

theorem layerIs_eq (grafts : plain.Grafts allowed n) (test : Layer → Bool) {v : Nat}
    (before : v < plain.graph.size) : n.layerIs test v = plain.layerIs test v := by
  rw [layerIs, grafts.keeps v before, layerIs]

section Asking

variable (grafts : plain.Grafts allowed n)
  (kinds : ∀ layer, allowed layer → isActivationOrLoss layer = true)
include grafts kinds

/-- A node of a kind that is never added is a plain one. -/
theorem lt_of_layerIs {test : Layer → Bool} {v : Nat} (passes : n.layerIs test v = true)
    (other : ∀ layer, test layer = true → isActivationOrLoss layer = false) :
    v < plain.graph.size := by
  by_contra late
  obtain ⟨node, label, passes⟩ := layerIs_iff.mp passes
  have added := kinds _ (grafts.added v node (Nat.le_of_not_lt late) label)
  rw [other _ passes] at added
  cases added

/-- The layers that ask for a non-linearity are plain ones. -/
theorem asks_iff {v : Nat} : n.layerIs Layer.needsActivation v = true ↔
    plain.layerIs Layer.needsActivation v = true := by
  constructor
  · intro asks
    have before := grafts.lt_of_layerIs kinds asks fun _ => not_isActivationOrLoss_of_asking
    exact (grafts.layerIs_eq _ before).symm.trans asks
  · intro asks
    obtain ⟨node, label, -⟩ := layerIs_iff.mp asks
    exact (grafts.layerIs_eq _ (lt_of_node? label)).trans asks

/-- Where a layer's non-linearity belongs, there is a plain node of a kind that is never added. -/
theorem place_of_asking {v place : Nat} (asks : n.layerIs Layer.needsActivation v = true)
    (isPlace : n.IsPlace v place) :
    place < plain.graph.size ∧ n.layerIs isActivationOrLoss place = false
      ∧ (place = v ∨ ¬ n.layerIs Layer.needsActivation place = true) := by
  have asking (layer : Layer) := @not_isActivationOrLoss_of_asking layer
  have pooling (layer : Layer) (pools : isMaxPool layer = true) :
      isActivationOrLoss layer = false := by
    simp [isActivationOrLoss, kind_of_isMaxPool pools]
  rcases isPlace with ⟨-, pools⟩ | ⟨rfl, -⟩
  · exact ⟨grafts.lt_of_layerIs kinds pools pooling, layerIs_eq_of_imp pools pooling,
      .inr fun asks => not_isMaxPool_of_asking asks pools⟩
  · exact ⟨grafts.lt_of_layerIs kinds asks asking, layerIs_eq_of_imp asks asking, .inl rfl⟩

/-- A layer that asks for a non-linearity is settled, those that were stay so, and so do sinks that
are losses. -/
theorem addActivation {activation : Activation}
    (allows : ∀ shape, allowed (.activation activation shape)) {v : Nat}
    (asks : plain.layerIs Layer.needsActivation v = true) :
    plain.Grafts allowed (n.addActivation activation v)
      ∧ (∀ w, plain.layerIs Layer.needsActivation w = true → w = v ∨ n.Settled w →
        (n.addActivation activation v).Settled w)
      ∧ (n.EndsInLosses → (n.addActivation activation v).EndsInLosses) := by
  have wf := grafts.graph.wellFormed
  have asker {w : Nat} (asks : plain.layerIs Layer.needsActivation w = true) :=
    (grafts.asks_iff kinds).mpr asks
  obtain ⟨place, isPlace⟩ : ∃ place, n.IsPlace v place := ⟨_, isPlace_iff.mpr rfl⟩
  obtain ⟨before, noEnd, same?⟩ := grafts.place_of_asking kinds (asker asks) isPlace
  obtain ⟨node, label⟩ : ∃ node, n.node? place = some node :=
    ⟨_, Array.getElem?_eq_getElem (Nat.lt_of_lt_of_le before grafts.graph.later)⟩
  unfold Network.addActivation
  dsimp only
  rw [isPlace_iff.mp isPlace, label]
  dsimp only
  split
  next there =>
    refine ⟨grafts, fun w _ settled => settled.elim ?_ id, id⟩
    rintro rfl place' isPlace'
    rw [← isPlace_iff.mp isPlace', isPlace_iff.mp isPlace]
    exact List.any_eq_true.mp there
  next bare =>
    rw [List.any_eq_true, not_exists] at bare
    have bare (w : Nat) (edge : n.graph.Adj place w) : n.layerIs isActivationOrLoss w = false :=
      Bool.eq_false_of_not_eq_true fun ends => bare w ⟨(mem_successors _ _ _).mpr edge, ends⟩
    have free (w : Nat) (edge : n.graph.Adj place w) : w < plain.graph.size := by
      by_contra late
      obtain ⟨other, there⟩ : ∃ other, n.node? w = some other :=
        ⟨_, Array.getElem?_eq_getElem (wf.inside place w edge).2⟩
      have ends := kinds _ (grafts.added w other (Nat.le_of_not_lt late) there)
      have none := bare w edge
      rw [layerIs, there] at none
      exact absurd (none.symm.trans ends) Bool.false_ne_true
    have noLoss : LayerKind.activation ≠ .loss := by decide
    refine ⟨grafts.putBehind label before free (allows _) fun isLoss => absurd isLoss noLoss,
      fun w needs settled => ?_, fun ends w sink => ?_⟩
    · obtain ⟨other, there, -⟩ := layerIs_iff.mp (asker needs)
      have inside := lt_of_node? there
      by_cases own : w = v
      · subst own
        exact settled_putBehind wf label _ inside isPlace rfl
      · -- it is not behind this layer: it is behind one that asks itself, or behind a pooling
        have other : w ≠ place := by
          rintro rfl
          exact same?.elim own fun noAsk => noAsk (asker needs)
        exact (settled.resolve_left own).putBehind wf label _ other inside bare
    · rcases mem_sinks_putBehind wf label _ sink with ⟨-, sink⟩ | ⟨below, -, sink⟩
      · obtain ⟨other, there, kind⟩ := layerIs_iff.mp (ends place sink)
        have ending : n.layerIs isActivationOrLoss place = true := layerIs_iff.mpr
          ⟨other, there, kind_of_isActivationOrLoss.mpr (.inr (of_decide_eq_true kind))⟩
        exact absurd (noEnd.symm.trans ending) Bool.false_ne_true
      · exact (layerIs_putBehind_of_lt _ _ below).trans (ends w sink)

end Asking

/-- All layers that ask for a non-linearity are settled, one after the other. -/
theorem addActivations (grafts : plain.Grafts allowed n)
    (kinds : ∀ layer, allowed layer → isActivationOrLoss layer = true) {activation : Activation}
    (allows : ∀ shape, allowed (.activation activation shape)) :
    plain.Grafts allowed (n.addActivations activation)
      ∧ (∀ v, plain.layerIs Layer.needsActivation v = true →
        (n.addActivations activation).Settled v)
      ∧ (n.EndsInLosses → (n.addActivations activation).EndsInLosses) := by
  have run (xs : List Nat) (n : Network) (grafts : plain.Grafts allowed n)
      (asking : ∀ v ∈ xs, plain.layerIs Layer.needsActivation v = true) :
      plain.Grafts allowed (xs.foldl (Network.addActivation activation) n)
        ∧ (∀ v, plain.layerIs Layer.needsActivation v = true → v ∈ xs ∨ n.Settled v →
          (xs.foldl (Network.addActivation activation) n).Settled v)
        ∧ (n.EndsInLosses → (xs.foldl (Network.addActivation activation) n).EndsInLosses) := by
    induction xs generalizing n with
    | nil => exact ⟨grafts, fun v _ settled => settled.resolve_left List.not_mem_nil, id⟩
    | cons v xs ih =>
      obtain ⟨asks, asking⟩ := List.forall_mem_cons.mp asking
      obtain ⟨grafts', settles, ends⟩ := grafts.addActivation kinds allows asks
      obtain ⟨grafts'', settles', ends'⟩ := ih _ grafts' asking
      refine ⟨grafts'', fun w needs settled => settles' w needs ?_, fun all => ends' (ends all)⟩
      rcases settled with member | settled
      · exact (List.mem_cons.mp member).symm.imp_right fun same => settles w needs (.inl same)
      · exact .inr (settles w needs (.inr settled))
  obtain ⟨grafts', settles, ends⟩ := run _ n grafts fun v member =>
    (grafts.asks_iff kinds).mp (List.mem_filter.mp member).2
  refine ⟨grafts', fun v needs => settles v needs (.inl ?_), ends⟩
  have asks := (grafts.asks_iff kinds).mpr needs
  obtain ⟨node, label, -⟩ := layerIs_iff.mp asks
  exact List.mem_filter.mpr ⟨List.mem_range.mpr (lt_of_node? label), asks⟩

end Grafts

end Network

end LayerNet
