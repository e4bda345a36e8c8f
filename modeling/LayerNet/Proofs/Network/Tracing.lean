import LayerNet.Proofs.Component.Embedding
import LayerNet.Proofs.Network.Drawing

/-!
# Tracing — the network of a canonical architecture has the shape of its items

The network of a component graph has a node for every component (`Network.Shows`). Where the graph
is the expansion of one in which items are embedded, the items are drawn in the network: the edges
of the items lead from what stands behind a component to what stands in front of one.

A module that ends the items around it shares the concatenation that they run into, so its exits are
fewer than the edges of the concatenation; any other module has a concatenation of its own. This is
what is assumed of the exits of items, and handed on to the items inside (`Leaves`).
-/

namespace LayerNet

open Item ComponentGraph

namespace Network

/-- A network has a node for every component: a split for a split, a concatenation for a
concatenation, and for another token of a layer a node that writes it. -/
structure Shows (n : Network) (store : Store) (b : ComponentGraph) : Prop where
  wellFormed : n.graph.WellFormed
  adj_iff : ∀ u v, n.graph.Adj u v ↔ b.graph.Adj u v
  splits : ∀ v, b.IsLabelled v .split → n.Splits v
  concats : ∀ v, b.IsLabelled v .concat →
    ∃ node, n.node? v = some node ∧ node.layer.kind = .concat
  writes : ∀ v component text, b.graph.label? v = some component → IsLayerToken text →
    Blueprint.read? text = some component.blueprint → n.Writes store v text

/-! ## Where items begin and end -/

/-- How many exits of items lead to what stands behind them: nothing, a concatenation that closes
them, or a component that other edges enter too. -/
inductive Leaves (c : ComponentGraph) (front : Nat → Nat) :
    List Nat → List Nat → Option (Nat × Nat) → Prop
  | stop {exits : List Nat} (few : exits.length ≤ 1) : Leaves c front [] exits none
  | closed {v : Nat} {exits : List Nat} (inside : v < c.size)
    (isConcat : c.IsLabelled v .concat) (several : 1 < exits.length)
    (entered : ∀ u, c.graph.Adj u v ↔ u ∈ exits) (sink : ∀ w, ¬ c.graph.Adj v w) :
    Leaves c front [v] exits none
  | shared {v : Nat} {exits : List Nat} (inside : v < c.size)
    (fewer : exits.length < c.graph.inDegree v) :
    Leaves c front [v] exits (some (front v, exits.length))

/-- A component that stands before a module has several successors. -/
theorem branches_of_heads {c : ComponentGraph} {branches : List (List Item)} {first u : Nat}
    (canonical : (Item.module branches).Canonical)
    (onward : ∀ w, c.graph.Adj u w ↔ w ∈ heads branches first) : c.graph.Branches u := by
  have nodup : (heads branches first).Nodup := (pairwise_heads canonical.2).nodup
  have several : 1 < (heads branches first).length := by
    rw [length_heads]
    exact canonical.1
  obtain ⟨x, y, differ, member, member'⟩ := (Digraph.one_lt_length_iff nodup).mp several
  exact ⟨x, y, differ, (onward x).mpr member, (onward y).mpr member'⟩

/-- The node where items begin that stand behind a component. -/
def entryNode (behind front : Nat → Nat) (u : Nat) : List Item → Nat → List Nat → Option Nat
  | [], _, after => after.head?.map front
  | .token _ :: _, first, _ => some first
  | .module _ :: _, _, _ => some (behind u)

theorem entryNode_of_begins {behind front : Nat → Nat} {u first : Nat} {items : List Item}
    {after : List Nat} (begins : BeginsWithToken items) :
    entryNode behind front u items first after = some first := by
  obtain ⟨text, rest, rfl⟩ := begins.exists_token
  rfl

/-- Only items that are none leave what stands before them behind. -/
theorem exitsAll_eq_nil {before : List Nat} {items : List Item} {first : Nat} (some : items ≠ []) :
    exitsAll before items first = exitsAll [] items first := by
  cases items with
  | nil => exact absurd rfl some
  | cons item rest => rfl

/-! ## What is next to a component -/

/-- A network shows the expansion of a graph without cycles. -/
structure Traced (n : Network) (store : Store) (b c : ComponentGraph) (behind front : Nat → Nat) :
    Prop where
  shows : n.Shows store b
  expands : Expands c b behind front
  dag : c.graph.IsDag

namespace Traced

variable {n : Network} {store : Store} {b c : ComponentGraph} {behind front : Nat → Nat}

section

variable (traced : Traced n store b c behind front)
include traced

theorem adj_behind_iff {u : Nat} (inside : u < c.size) (y : Nat) :
    n.graph.Adj (behind u) y ↔ ∃ w, c.graph.Adj u w ∧ y = front w :=
  (traced.shows.adj_iff _ y).trans (traced.expands.leaves u inside y)

theorem successorsInOrder_of_sink {u : Nat} (inside : u < c.size) (sink : ∀ w, ¬ c.graph.Adj u w) :
    n.graph.successorsInOrder u = [] := by
  have still : behind u = u :=
    traced.expands.behind_eq_of_single (v := u) fun w edge => absurd edge (sink w)
  refine traced.shows.wellFormed.successorsInOrder_eq .nil fun y => ?_
  have edges := traced.adj_behind_iff inside y
  rw [still] at edges
  refine edges.trans ⟨?_, fun absurd => (List.not_mem_nil absurd).elim⟩
  exact fun ⟨w, edge, _⟩ => absurd edge (sink w)

theorem successorsInOrder_of_single {u v : Nat} (inside : u < c.size)
    (single : ∀ w, c.graph.Adj u w ↔ w = v) : n.graph.successorsInOrder u = [front v] := by
  have still : behind u = u := traced.expands.behind_eq_of_single fun w edge => (single w).mp edge
  refine traced.shows.wellFormed.successorsInOrder_eq (List.pairwise_singleton _ _) fun y => ?_
  have edges := traced.adj_behind_iff inside y
  rw [still] at edges
  rw [edges, List.mem_singleton]
  constructor
  · rintro ⟨w, edge, rfl⟩
    rw [(single w).mp edge]
  · exact fun same => ⟨v, (single v).mpr rfl, same⟩

/-- Behind a component that several edges leave is a split. -/
theorem splits_behind {u : Nat} (inside : u < c.size) (several : c.graph.Branches u) :
    n.Splits (behind u) :=
  traced.shows.splits _ (traced.expands.isLabelled_behind inside several)

/-- As many edges enter what stands in front of a component as enter the component. -/
theorem inDegree_front {v : Nat} (inside : v < c.size) :
    n.graph.inDegree (front v) = c.graph.inDegree v := by
  have wf := traced.dag.wellFormed
  have old {u : Nat} (member : u ∈ c.graph.predecessors v) : u < c.size :=
    (wf.inside u v ((Digraph.mem_predecessors c.graph v u).mp member)).1
  have nodup : ((c.graph.predecessors v).map behind).Nodup :=
    (wf.nodup_predecessors v).map_on fun x member y member' same =>
      traced.expands.behind_injective x y (old member) (old member') same
  rw [traced.shows.wellFormed.inDegree_eq nodup fun u => ?_, List.length_map, Digraph.inDegree]
  refine (traced.shows.adj_iff u _).trans ((traced.expands.enters v inside u).trans ?_)
  rw [List.mem_map]
  exact exists_congr fun w =>
    and_congr (Digraph.mem_predecessors c.graph v w).symm ⟨Eq.symm, Eq.symm⟩

/-- In front of a component that several edges enter is a concatenation. -/
theorem joins_front {v : Nat} (inside : v < c.size) (several : 1 < c.graph.inDegree v) :
    n.Joins (front v) := by
  have merges := (traced.dag.wellFormed.one_lt_inDegree_iff v).mp several
  refine ⟨traced.shows.concats _ (traced.expands.isLabelled_front inside merges), ?_⟩
  rw [traced.inDegree_front inside]
  exact several

/-- Behind the concatenation of a component is the component. -/
theorem successorsInOrder_front {v : Nat} (inside : v < c.size) (fans : c.FansIn v) :
    n.graph.successorsInOrder (front v) = [v] := by
  refine traced.shows.wellFormed.successorsInOrder_eq (List.pairwise_singleton _ _) fun y => ?_
  rw [List.mem_singleton, traced.shows.adj_iff]
  exact traced.expands.fromConcat v inside fans y

/-! ## Items -/

/-- The component of a token is neither a split nor a concatenation, and its node writes the
token. -/
theorem writes_token {text : String} {v : Nat} (own : IsLayerToken text)
    (named : ∃ component, c.graph.label? v = some component
      ∧ Blueprint.read? text = some component.blueprint) :
    v < c.size ∧ c.blueprintIs Blueprint.isSplit v = false
      ∧ c.blueprintIs Blueprint.isConcat v = false ∧ n.Writes store v text := by
  obtain ⟨component, label, read⟩ := named
  obtain ⟨-, blueprint, -, -, -, -, read', noSplit, noConcat, -⟩ := id own
  obtain rfl := Option.some.inj (read.symm.trans read')
  have inside : v < c.size := (Array.getElem?_eq_some_iff.mp label).1
  refine ⟨inside, ?_, ?_, traced.shows.writes v component text ?_ own read⟩
  · rw [blueprintIs, label]
    exact noSplit
  · rw [blueprintIs, label]
    exact noConcat
  · rw [traced.expands.larger.label?_eq inside]
    exact label

/-- Only what stands before items enters a token that they begin with. -/
theorem entered_of_begins {items : List Item} {first : Nat} {before after : List Nat}
    (canonical : CanonicalItems items) (begins : BeginsWithToken items)
    (embedded : Embedded c.graph.Adj before items first after)
    (named : c.Named (tokensAll items) first) :
    entriesAll items first after = [first] ∧ first < c.size
      ∧ c.blueprintIs Blueprint.isConcat first = false ∧ ∀ u, c.graph.Adj u first ↔ u ∈ before := by
  obtain ⟨text, rest, rfl⟩ := begins.exists_token
  obtain ⟨inside, -, noConcat, -⟩ := traced.writes_token canonical.1 (named 0 text rfl)
  exact ⟨rfl, inside, noConcat, (embedded.adj_token_iff canonical).1⟩

/-- Behind a token, the items begin that stand behind it. -/
theorem successorsInOrder_token {u : Nat} {items : List Item} {first : Nat} {after : List Nat}
    {exit : Option (Nat × Nat)} (inside : u < c.size)
    (noSplit : c.blueprintIs Blueprint.isSplit u = false) (canonical : CanonicalItems items)
    (embedded : Embedded c.graph.Adj [u] items first after)
    (onward : ∀ w, c.graph.Adj u w ↔ w ∈ entriesAll items first after)
    (leaves : Leaves c front after (exitsAll [u] items first) exit) :
    n.graph.successorsInOrder u = (entryNode behind front u items first after).toList := by
  match items with
  | [] =>
    cases leaves with
    | stop few =>
      exact traced.successorsInOrder_of_sink inside fun w edge =>
        absurd ((onward w).mp edge) List.not_mem_nil
    | closed _ _ several => exact absurd several (Nat.lt_irrefl 1)
    | shared _ _ =>
      exact traced.successorsInOrder_of_single inside fun w =>
        (onward w).trans List.mem_singleton
  | .token text :: rest =>
    have entered := (embedded.adj_token_iff canonical).1
    have fixed : front first = first :=
      traced.expands.front_eq_of_single fun w edge => List.mem_singleton.mp ((entered w).mp edge)
    have single := traced.successorsInOrder_of_single inside fun w =>
      (onward w).trans List.mem_singleton
    rwa [fixed] at single
  | .module branches :: rest =>
    have fans : c.FansOut u := ⟨noSplit, branches_of_heads canonical.1 onward⟩
    refine traced.shows.wellFormed.successorsInOrder_eq (List.pairwise_singleton _ _) fun y => ?_
    rw [traced.shows.adj_iff, traced.expands.toSplit u inside fans]
    exact List.mem_singleton.symm

/-- A module is drawn between what stands behind the component before it and what stands in front of
the one behind. -/
theorem drawn_module {branches : List (List Item)} {first u v : Nat}
    (canonical : (Item.module branches).Canonical)
    (embedded : EmbeddedBranches c.graph.Adj [u] branches first [v]) (inside : u < c.size)
    (onward : ∀ w, c.graph.Adj u w ↔ w ∈ heads branches first) (inside' : v < c.size)
    (room : (exitsBranches branches first).length ≤ c.graph.inDegree v)
    (drawn : DrawnBranches n store branches first (front v)) :
    (Item.module branches).Drawn n store first (behind u) (front v) := by
  have fixed {w : Nat} (member : w ∈ heads branches first) : front w = w :=
    traced.expands.front_eq_of_single fun x edge =>
      List.mem_singleton.mp ((embedded.adj_head_iff canonical.2 member x).mp edge)
  refine ⟨traced.splits_behind inside (branches_of_heads canonical onward), ?_, ?_, drawn⟩
  · refine traced.shows.wellFormed.successorsInOrder_eq (pairwise_heads canonical.2) fun y => ?_
    rw [traced.adj_behind_iff inside]
    simp only [onward]
    constructor
    · rintro ⟨w, member, rfl⟩
      rwa [fixed member]
    · exact fun member => ⟨y, member, (fixed member).symm⟩
  · have several := canonical.1.trans (length_le_exitsBranches branches first canonical.2)
    exact traced.joins_front inside' (Nat.lt_of_lt_of_le several room)

variable {branches : List (List Item)} {first u : Nat} {exit : Option (Nat × Nat)}
  (own : (Item.module branches).Canonical)
include own

/-- A module that ends the items is closed by a concatenation of its own, or shares one with the
items around it. -/
theorem drawnAll_last {after : List Nat}
    (leaves : Leaves c front after (exitsBranches branches first) exit)
    (drawn : ∀ v, after = [v] → v < c.size →
      (exitsBranches branches first).length ≤ c.graph.inDegree v →
      (Item.module branches).Drawn n store first (behind u) (front v)) :
    DrawnAll n store [.module branches] first (some (behind u)) exit := by
  have several := own.1.trans (length_le_exitsBranches branches first own.2)
  cases leaves with
  | stop few => exact absurd several (Nat.not_le.mpr (Nat.lt_succ_of_le few))
  | @closed v _ inside isConcat _ entered sink =>
    have room : c.graph.inDegree v = (exitsBranches branches first).length :=
      traced.dag.wellFormed.inDegree_eq (pairwise_exitsBranches branches first own.2).nodup entered
    have last := traced.successorsInOrder_of_sink inside sink
    rw [← traced.expands.front_eq_of_concat isConcat] at last
    exact ⟨_, front v, rfl, drawn v rfl inside room.ge,
      .inl ⟨fun _ => (traced.inDegree_front inside).trans room, none, last, rfl, (nomatch ·, ·)⟩⟩
  | @shared v _ inside fewer =>
    refine ⟨_, front v, rfl, drawn v rfl inside (Nat.le_of_lt fewer), .inr ⟨trivial, rfl, ?_, rfl⟩⟩
    rw [traced.inDegree_front inside]
    exact fewer

/-- A module before a token is closed by the concatenation in front of the token. -/
theorem drawnAll_next {rest : List Item} {v : Nat} (next : v = first + widthBranches branches)
    (inside : v < c.size) (noConcat : c.blueprintIs Blueprint.isConcat v = false)
    (entered : ∀ w, c.graph.Adj w v ↔ w ∈ exitsBranches branches first)
    (drawn : (exitsBranches branches first).length ≤ c.graph.inDegree v →
      (Item.module branches).Drawn n store first (behind u) (front v))
    (rest' : DrawnAll n store rest v (some v) exit) :
    DrawnAll n store (.module branches :: rest) first (some (behind u)) exit := by
  have several := own.1.trans (length_le_exitsBranches branches first own.2)
  have room : c.graph.inDegree v = (exitsBranches branches first).length :=
    traced.dag.wellFormed.inDegree_eq (pairwise_exitsBranches branches first own.2).nodup entered
  have fans : c.FansIn v :=
    ⟨noConcat, (traced.dag.wellFormed.one_lt_inDegree_iff v).mp (room ▸ several)⟩
  subst next
  exact ⟨_, _, rfl, drawn room.ge, .inl ⟨fun _ => (traced.inDegree_front inside).trans room, some _,
    traced.successorsInOrder_front inside fans, rest'⟩⟩

end

mutual

/-- Embedded items are drawn from where they begin to where they end. -/
theorem drawn_items (traced : Traced n store b c behind front) :
    ∀ (items : List Item), CanonicalItems items →
    ∀ {first u : Nat} {before after : List Nat} {exit : Option (Nat × Nat)},
    Embedded c.graph.Adj before items first after → c.Named (tokensAll items) first →
    (BeginsWithToken items ∨ (before = [u] ∧ u < c.size
      ∧ ∀ w, c.graph.Adj u w ↔ w ∈ entriesAll items first after)) →
    Leaves c front after (exitsAll before items first) exit →
    DrawnAll n store items first (entryNode behind front u items first after) exit
  | [], _, first, u, before, after, exit, embedded, named, begins, leaves => by
    obtain ⟨rfl, -, -⟩ := begins.resolve_left id
    cases leaves with
    | stop few => exact ⟨rfl, fun v absurd => nomatch absurd⟩
    | closed _ _ several => exact absurd several (Nat.lt_irrefl 1)
    | shared inside fewer =>
      refine ⟨rfl, fun v same => ?_⟩
      cases same
      exact traced.joins_front inside fewer
  | .token text :: rest, canonical, first, u, before, after, exit, embedded, named, begins,
      leaves => by
    obtain ⟨inside, noSplit, -, writes⟩ := traced.writes_token canonical.1 (named 0 text rfl)
    obtain ⟨-, onward⟩ := embedded.adj_token_iff canonical
    have tail := embedded.tail canonical
    have named : c.Named ([text] ++ tokensAll rest) first := named
    have next := traced.successorsInOrder_token inside noSplit canonical.2.2 tail onward leaves
    refine ⟨first, first, rfl, ⟨rfl, rfl, writes⟩, .inl ⟨(nomatch ·), _, next, ?_⟩⟩
    exact drawn_items traced rest canonical.2.2 tail named.append.2 (.inr ⟨rfl, inside, onward⟩)
      leaves
  | .module branches :: rest, canonical, first, u, before, after, exit, embedded, named, begins,
      leaves => by
    obtain ⟨own, apart, others⟩ := id canonical
    obtain ⟨rfl, inside, onward⟩ := begins.resolve_left (fun absurd => absurd trivial)
    obtain ⟨named, named'⟩ := named.append
    have inner := embedded.branches canonical
    have drawn {v : Nat} (next : entriesAll rest (first + widthBranches branches) after = [v])
        (inside' : v < c.size) (room : (exitsBranches branches first).length ≤ c.graph.inDegree v) :
        (Item.module branches).Drawn n store first (behind u) (front v) := by
      rw [next] at inner
      have several : 2 ≤ 0 + branches.length := (Nat.zero_add _).symm ▸ own.1
      have drawn := drawn_branches traced branches own.2 0 inner named inside' several (by omega)
      exact traced.drawn_module own inner inside onward inside' room drawn
    rcases apart trivial with rfl | begins
    · exact traced.drawnAll_last own leaves fun v next => drawn next
    · have tail := embedded.tail canonical
      obtain ⟨next, inside', noConcat, entered⟩ :=
        traced.entered_of_begins others begins tail named'
      have rest' := drawn_items traced rest others (u := u) tail named' (.inl begins) leaves
      rw [entryNode_of_begins begins] at rest'
      exact traced.drawnAll_next own rfl inside' noConcat entered (drawn next inside') rest'

/-- Branches are drawn to the concatenation in front of what stands behind them. -/
theorem drawn_branches (traced : Traced n store b c behind front) :
    ∀ (branches : List (List Item)), CanonicalBranches branches →
    ∀ (seen : Nat) {first v : Nat} {before : List Nat},
    EmbeddedBranches c.graph.Adj before branches first [v] →
    c.Named (tokensBranches branches) first → v < c.size → 2 ≤ seen + branches.length →
    seen + (exitsBranches branches first).length ≤ c.graph.inDegree v →
    DrawnBranches n store branches first (front v)
  | [], _, seen, first, v, before, embedded, named, inside, several, room => trivial
  | branch :: rest, canonical, seen, first, v, before, embedded, named, inside, several, room => by
    obtain ⟨head, tail⟩ := embedded.cons canonical
    obtain ⟨begins, own, others⟩ := canonical
    obtain ⟨named, named'⟩ := named.append
    have exits := exitsAll_pos [] branch first own (.inl begins.ne_nil)
    have least := length_le_exitsBranches rest (first + widthAll branch) others
    rw [exitsBranches, List.length_append] at room
    rw [List.length_cons] at several
    have leaves : Leaves c front [v] (exitsAll before branch first)
        (some (front v, (exitsAll [] branch first).length)) := by
      rw [exitsAll_eq_nil begins.ne_nil]
      exact .shared inside (by omega)
    have drawn := drawn_items traced branch own (u := v) head named (.inl begins) leaves
    rw [entryNode_of_begins begins] at drawn
    exact ⟨drawn, drawn_branches traced rest others (seen + (exitsAll [] branch first).length) tail
      named' inside (by omega) (by omega)⟩

end

/-- Framed items are drawn from the root. -/
theorem exists_drawn (traced : Traced n store b c behind front) {items : List Item}
    {opening closing : List Nat} (some : items ≠ []) (canonical : CanonicalItems items)
    (framed : Framed c items opening closing) (named : c.Named (tokensAll items) 0) :
    ∃ root < c.size, (∀ u, ¬ c.graph.Adj u root)
      ∧ DrawnAll n store items 0 (.some root) none := by
  have embedded := framed.embedded
  have leaves : Leaves c front closing (exitsAll opening items 0) none := by
    rw [exitsAll_eq_nil some]
    rcases framed.closes with ⟨rfl, few⟩ | ⟨x, rfl, -, labelled, several⟩
    · exact .stop few
    · have last := List.mem_singleton_self x
      obtain ⟨entered, sink⟩ := framed.adj_closing_iff some canonical last
      rw [exitsAll_eq_nil some] at entered
      obtain ⟨component, label, -⟩ := id labelled
      exact .closed (Array.getElem?_eq_some_iff.mp label).1 labelled several entered
        (sink fun first => framed.disjoint first last)
  obtain ⟨first, rest, rfl⟩ := List.exists_cons_of_ne_nil some
  rcases framed.opens with ⟨rfl, few⟩ | ⟨s, rfl, -, labelled, several⟩
  · cases first with
    | token text =>
      obtain ⟨inside, -⟩ := traced.writes_token canonical.1 (named 0 text rfl)
      refine ⟨0, inside, fun u edge => ?_, ?_⟩
      · exact List.not_mem_nil (((embedded.adj_token_iff canonical).1 u).mp edge)
      · exact drawn_items traced _ canonical (u := 0) embedded named (.inl id) leaves
    | module branches =>
      have few : (heads branches 0).length ≤ 1 := few
      rw [length_heads] at few
      exact absurd canonical.1.1 (Nat.not_le.mpr (Nat.lt_succ_of_le few))
  · cases first with
    | token text => exact absurd several (Nat.lt_irrefl 1)
    | module branches =>
      have foremost := List.mem_singleton_self s
      obtain ⟨onward, root⟩ := framed.adj_opening_iff some canonical foremost
      obtain ⟨component, label, -⟩ := id labelled
      have inside : s < c.size := (Array.getElem?_eq_some_iff.mp label).1
      refine ⟨s, inside, root fun last => framed.disjoint foremost last, ?_⟩
      have drawn := drawn_items traced _ canonical (u := s) embedded named
        (.inr ⟨rfl, inside, onward⟩) leaves
      rwa [entryNode, traced.expands.behind_eq_of_split labelled] at drawn

end Traced

end Network

end LayerNet
