import LayerNet.Proofs.Layer.Abreast
import LayerNet.Proofs.Network.Calls

/-!
# Networks abreast — two runs of one network

While a session infers, a run of a network only adds tensors, and every call finds its inputs there
(`Performs.made`). Where one run succeeds, so does another on an input that is tied to the first
one's, in any order of the nodes that puts them after their predecessors, and each node gives tensors
tied to those that it gave in the first run (`Performs.follows`). The induction is on the order of
the second run; a node's call in the first run may have been made at any time (`Made`).
-/

namespace LayerNet

theorem Store.Tied.of_later {R : Content → Content → Prop} {s s' s₂ : Store} {x y : TensorId}
    (tied : s'.Tied R s₂ x y) (keeps : s.Keeps s') (there : ∃ c, s.content? x = some c) :
    s.Tied R s₂ x y := by
  obtain ⟨c, d, later, second, related⟩ := tied
  obtain ⟨c', there⟩ := there
  rw [keeps x c' there] at later
  cases later
  exact ⟨c, d, there, second, related⟩

namespace Network

open Content

variable {n : Network} {input : TensorId}

/-! ## What nodes are handed in two runs -/

theorem Fed.forall {α : Type} {x : α} {comes : Nat → α → Prop} {v : Nat} {inputs : List α}
    (fed : n.Fed x comes v inputs) {P : α → Prop} (first : P x) (others : ∀ p y, comes p y → P y) :
    ∀ y ∈ inputs, P y := by
  unfold Fed at fed
  split at fed
  · subst fed
    exact List.forall_mem_singleton.mpr first
  · intro y member
    obtain ⟨p, -, comes⟩ := exists_rel_of_mem fed member
    exact others p y comes

theorem Fed.forall₂ {α β : Type} {x : α} {y : β} {comes : Nat → α → Prop} {comes' : Nat → β → Prop}
    {v : Nat} {xs : List α} {ys : List β} (fed : n.Fed x comes v xs) (fed' : n.Fed y comes' v ys)
    {T : α → β → Prop} (first : T x y) (others : ∀ p a b, comes p a → comes' p b → T a b) :
    List.Forall₂ T xs ys := by
  unfold Fed at fed fed'
  split at fed
  next root =>
    rw [if_pos root] at fed'
    subst fed fed'
    exact .cons first .nil
  next entered =>
    rw [if_neg entered] at fed'
    exact forall₂_of_common fed fed' others

/-- In a run from a machine to another, a call was made on a machine in between, and left one. -/
structure Made (n : Network) (m m' : Machine) (c : Call) (node : Node) (before after : Machine) :
    Prop where
  label : n.node? c.node = some node
  run : (node.layer.forward c.inputs).run before = (.ok c.outputs, after)
  earlier : m.Onward before
  onward : before.Onward after
  later : after.Onward m'
  inputs : ∀ id ∈ c.inputs, ∃ x, before.store.content? id = some x
  outputs : ∀ id ∈ c.outputs, ∃ x, after.store.content? id = some x

theorem Made.trans {m m₁ m₂ before after : Machine} {c : Call} {node : Node}
    (made : n.Made m m₁ c node before after) (onward : m₁.Onward m₂) :
    n.Made m m₂ c node before after :=
  { made with later := made.later.trans onward }

theorem Made.exists_output {m m' before after : Machine} {c : Call} {node : Node}
    (made : n.Made m m' c node before after) {id : TensorId} (member : id ∈ c.outputs) :
    ∃ x, m'.store.content? id = some x := by
  obtain ⟨x, there⟩ := made.outputs id member
  exact ⟨x, made.later.keeps id x there⟩

namespace Performs

/-! ## One run -/

section Made

variable {m : Machine} (fit : n.Fit m.store) (wf : m.store.WellFormed)
  (inferring : m.session.training = false) (there : ∃ x, m.store.content? input = some x)
include fit wf inferring there

/-- A run of a session that infers keeps what is there, and so do all calls. -/
theorem made {m' : Machine} {calls : List Call} {t : Traffic}
    (performs : n.Performs input m calls t m')
    (ordered : n.graph.InOrder [] (calls.map Call.node)) :
    m.Onward m' ∧ ∀ c ∈ calls, ∃ node before after, n.Made m m' c node before after := by
  induction performs with
  | start => exact ⟨.refl m, fun c member => absurd member List.not_mem_nil⟩
  | @call calls t t₁ m₁ m₂ v node inputs outputs performs label taken ran count ih =>
    rw [List.map_append, List.map_singleton] at ordered
    obtain ⟨onward, made⟩ := ih (Digraph.inOrder_concat_iff.mp ordered).1
    have found : ∀ id ∈ inputs, ∃ x, m₁.store.content? id = some x := by
      refine (performs.fed fit.dag.wellFormed ordered taken).forall
        (P := fun id => ∃ x, m₁.store.content? id = some x) ?_ ?_
      · obtain ⟨x, there⟩ := there
        exact ⟨x, onward.keeps input x there⟩
      · rintro p id ⟨d, member, -, given⟩
        obtain ⟨_, _, _, made⟩ := made d member
        exact made.exists_output (List.mem_of_getElem? given)
    obtain ⟨more, outputs⟩ := Layer.forward_onward
      ((fit.accepts v node label).keeps onward.keeps) (onward.wellFormed wf)
      (onward.training.trans inferring) found ran
    refine ⟨onward.trans more, fun c member => ?_⟩
    rcases List.mem_append.mp member with member | last
    · obtain ⟨node, before, after, made⟩ := made c member
      exact ⟨node, before, after, made.trans more⟩
    · rw [List.mem_singleton.mp last]
      exact ⟨node, m₁, m₂, label, ran, onward, more, .refl m₂, found, outputs⟩

end Made

/-! ## Two runs -/

/-- The calls of a second run, each with the call of the first that it follows. -/
def Follow (R : Content → Content → Prop) (s₁ s₂ : Store) (first second : List Call) : Prop :=
  ∀ d ∈ second, ∃ c ∈ first, c.node = d.node ∧ List.Forall₂ (s₁.Tied R s₂) c.outputs d.outputs

/-- What was sent along an edge in two runs is tied. -/
theorem tied_of_sent {R : Content → Content → Prop} {s₁ s₂ : Store} {calls calls' : List Call}
    (once : (calls.map Call.node).Nodup) (follow : Follow R s₁ s₂ calls calls') {e : Edge}
    {x y : TensorId} (sent : n.Sent calls e x) (sent' : n.Sent calls' e y) : s₁.Tied R s₂ x y := by
  obtain ⟨c, member, node, given⟩ := sent
  obtain ⟨d, member', node', given'⟩ := sent'
  obtain ⟨c', inside, same, tied⟩ := follow d member'
  obtain rfl := List.inj_on_of_nodup_map once inside member (by rw [same, node', node])
  exact rel_of_getElem? tied given given'

/-- The results of two runs, where the second follows the first, are tied. -/
theorem Follow.results {R : Content → Content → Prop} {s₁ s₂ : Store} {m₁ m₂ m₁' m₂' : Machine}
    {input' : TensorId} {calls calls' : List Call} (follow : Follow R s₁ s₂ calls calls')
    {t t' : Traffic} (performs : n.Performs input m₁ calls t m₁')
    (performs' : n.Performs input' m₂ calls' t' m₂')
    (topological : n.graph.Topological (calls.map Call.node))
    (topological' : n.graph.Topological (calls'.map Call.node)) :
    List.Forall₂ (s₁.Tied R s₂) ((List.range n.nodeCount).flatMap t.given)
      ((List.range n.nodeCount).flatMap t'.given) := by
  refine forall₂_of_common (performs.results topological.ordered topological.complete)
    (performs'.results topological'.ordered topological'.complete) ?_
  rintro v x y ⟨c, member, node, given⟩ ⟨d, member', node', given'⟩
  obtain ⟨c', inside, same, tied⟩ := follow d member'
  obtain rfl := List.inj_on_of_nodup_map topological.ordered.nodup inside member
    (by rw [same, node', node])
  rw [given, given'] at tied
  rcases tied with _ | ⟨tied, -⟩
  exact tied

section Follows

variable {R : Content → Content → Prop} (respected : Respected R) {m₁ m₂ : Machine}
  (abreast : m₁.Abreast m₂) {input' : TensorId} (tied : m₁.store.Tied R m₂.store input input')
  (fit : n.Fit m₁.store)
  (shared : ∀ v node, n.node? v = some node → ∀ p ∈ node.layer.parameters,
    m₁.store.Tied Same m₂.store p p)
  {calls : List Call} {t : Traffic} {m₁' : Machine} (performs : n.Performs input m₁ calls t m₁')
  (ordered : n.graph.InOrder [] (calls.map Call.node))
  (complete : ∀ v < n.graph.size, v ∈ calls.map Call.node)
include respected abreast tied fit shared performs ordered complete

/-- Where a run succeeds, so does one on a tied input, in any order, and what it gives is tied. -/
theorem follows {order : List Nat} (ordered' : n.graph.InOrder [] order) :
    ∃ calls' t' m₂', calls'.map Call.node = order ∧ n.Performs input' m₂ calls' t' m₂'
      ∧ m₂.Onward m₂' ∧ Follow R m₁'.store m₂'.store calls calls' := by
  have there : ∃ x, m₁.store.content? input = some x := by
    obtain ⟨x, _, there, -⟩ := tied
    exact ⟨x, there⟩
  obtain ⟨onward₁, made⟩ := performs.made fit abreast.first abreast.inferring.1 there ordered
  induction order using List.reverseRecOn with
  | nil =>
    exact ⟨[], _, m₂, rfl, .start, .refl m₂, fun d member => absurd member List.not_mem_nil⟩
  | append_singleton order v ih =>
    obtain ⟨before, inside, new, entered⟩ := Digraph.inOrder_concat_iff.mp ordered'
    rw [List.append_nil] at new entered
    obtain ⟨calls', t', m₂', rfl, performs', onward₂, follow⟩ := ih before
    obtain ⟨c, member, rfl⟩ := List.mem_map.mp (complete v inside)
    obtain ⟨node, mb, ma, made⟩ := made c member
    obtain ⟨inputs', t₁', taken, fed'⟩ :=
      (performs'.loaded before).handed fit.dag.wellFormed new entered node.key
    have wired := performs.wired fit.dag.wellFormed ordered c member
    have handed : List.Forall₂ (m₁'.store.Tied R m₂'.store) c.inputs inputs' :=
      wired.forall₂ fed' (tied.keeps onward₁.keeps onward₂.keeps) fun p x y sent sent' =>
        tied_of_sent ordered.nodup follow sent sent'
    have keeps := made.onward.keeps.trans made.later.keeps
    have inputs : List.Forall₂ (mb.store.Tied R m₂'.store) c.inputs inputs' :=
      forall₂_imp_of_mem handed fun x among y tied => tied.of_later keeps (made.inputs x among)
    obtain ⟨outputs', m₂'', ran', onward, onward', given⟩ := Layer.forward_follows respected
      ((fit.accepts c.node node made.label).keeps made.earlier.keeps)
      (fun p member => (shared c.node node made.label p member).keeps made.earlier.keeps
        onward₂.keeps) inputs (abreast.onward made.earlier onward₂) c.outputs ma made.run
    have count : outputs'.length = max (n.graph.outDegree c.node) 1 := by
      rw [← given.length_eq, performs.length_outputs c member]
    refine ⟨calls' ++ [⟨c.node, inputs', outputs'⟩], _, m₂'', ?_,
      .call performs' made.label taken ran' count, onward₂.trans onward', ?_⟩
    · rw [List.map_append]
      rfl
    · intro d among
      rcases List.mem_append.mp among with among | last
      · obtain ⟨c', member', same, tied⟩ := follow d among
        exact ⟨c', member', same, tied.imp fun _ _ tied => tied.keeps (.refl _) onward'.keeps⟩
      · rw [List.mem_singleton.mp last]
        exact ⟨c, member, rfl, given.imp fun _ _ tied => tied.keeps made.later.keeps (.refl _)⟩

end Follows

end Performs

end Network

end LayerNet
