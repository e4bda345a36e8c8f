import LayerNet.Proofs.Component.Expansion
import LayerNet.Proofs.Component.Laying

/-!
# Embedding — items inside a graph

Items are part of a graph when the edges that join their components are their wires and the edges
from their exits to what stands behind them (`Embedded`). Then so is every part of the items, with
what is next to it there: so the neighbours of a component are read off the items.

With its open module closed and its roots joined, an assembled canonical architecture has all of its
items between the split in front and the concatenation behind, where there are such
(`ComponentGraph.exists_framed`).
-/

namespace LayerNet

namespace Item

/-- The edges of items that stand between others. -/
def Joined (before : List Nat) (items : List Item) (n : Nat) (after : List Nat) (u v : Nat) :
    Prop :=
  (u, v) ∈ wiresAll before items n ∨ (u ∈ exitsAll before items n ∧ v ∈ after)

/-- The edges of branches that stand between others. -/
def JoinedBranches (before : List Nat) (branches : List (List Item)) (n : Nat) (after : List Nat)
    (u v : Nat) : Prop :=
  (u ∈ before ∧ v ∈ heads branches n) ∨ (u, v) ∈ wiresBranches branches n
    ∨ (u ∈ exitsBranches branches n ∧ v ∈ after)

/-- Items from a number on, between the components that stand before them and those that stand
behind. -/
structure Embedded (adj : Nat → Nat → Prop) (before : List Nat) (items : List Item) (n : Nat)
    (after : List Nat) : Prop where
  before_outside : ∀ v ∈ before, ¬ InBlock n (widthAll items) v
  after_outside : ∀ v ∈ after, ¬ InBlock n (widthAll items) v
  adj_iff : ∀ u v, InBlock n (widthAll items) u ∨ InBlock n (widthAll items) v →
    (adj u v ↔ Joined before items n after u v)

/-- Branches from a number on, side by side between the same components. -/
structure EmbeddedBranches (adj : Nat → Nat → Prop) (before : List Nat)
    (branches : List (List Item)) (n : Nat) (after : List Nat) : Prop where
  before_outside : ∀ v ∈ before, ¬ InBlock n (widthBranches branches) v
  after_outside : ∀ v ∈ after, ¬ InBlock n (widthBranches branches) v
  adj_iff : ∀ u v, InBlock n (widthBranches branches) u ∨ InBlock n (widthBranches branches) v →
    (adj u v ↔ JoinedBranches before branches n after u v)

theorem Joined.ends {before after : List Nat} {items : List Item} {n u v : Nat} (some : items ≠ [])
    (canonical : CanonicalItems items) (edge : Joined before items n after u v) :
    (u ∈ before ∨ InBlock n (widthAll items) u) ∧ (v ∈ after ∨ InBlock n (widthAll items) v) := by
  rcases edge with wire | ⟨source, target⟩
  · exact (wiresAll_inBlock before items n canonical wire).imp_right .inr
  · exact ⟨.inr (exitsAll_inBlock_of_ne_nil some source), .inl target⟩

theorem JoinedBranches.ends {before after : List Nat} {branches : List (List Item)} {n u v : Nat}
    (canonical : CanonicalBranches branches) (edge : JoinedBranches before branches n after u v) :
    (u ∈ before ∨ InBlock n (widthBranches branches) u)
      ∧ (v ∈ after ∨ InBlock n (widthBranches branches) v) := by
  rcases edge with ⟨source, target⟩ | wire | ⟨source, target⟩
  · exact ⟨.inl source, .inr (heads_inBlock canonical target)⟩
  · exact (wiresBranches_inBlock branches n canonical wire).imp .inr .inr
  · exact ⟨.inr (exitsBranches_inBlock branches n source), .inl target⟩

/-- Edges lead to the entries of items from all that stands before them. -/
theorem joined_iff_nil (before : List Nat) {after : List Nat} {items : List Item} {n u v : Nat}
    (some : items ≠ []) : Joined before items n after u v ↔
      (u ∈ before ∧ v ∈ entriesAll items n []) ∨ Joined [] items n after u v := by
  cases items with
  | nil => exact absurd rfl some
  | cons item rest =>
    simp only [Joined, mem_wiresAll_cons, entriesAll, exitsAll, List.not_mem_nil, false_and,
      false_or, or_assoc]

/-- Side by side, the edges are those of the branches. -/
theorem joinedBranches_cons_iff {before after : List Nat} {branch : List Item}
    {rest : List (List Item)} {n u v : Nat} (begins : BeginsWithToken branch) :
    JoinedBranches before (branch :: rest) n after u v ↔ Joined before branch n after u v
      ∨ JoinedBranches before rest (n + widthAll branch) after u v := by
  have entry : entriesAll branch n [] = [n] := by
    obtain ⟨text, tail, rfl⟩ := begins.exists_token
    rfl
  rw [joined_iff_nil before begins.ne_nil, entry]
  simp only [JoinedBranches, Joined, heads, wiresBranches, exitsBranches, List.mem_append,
    List.mem_cons, List.not_mem_nil, or_false]
  tauto

namespace Embedded

variable {adj : Nat → Nat → Prop} {before after : List Nat} {item : Item} {rest : List Item}
  {n : Nat}

/-- Behind its first item, the others stand between its exits and what stood behind. -/
theorem tail (canonical : CanonicalItems (item :: rest))
    (embedded : Embedded adj before (item :: rest) n after) :
    Embedded adj (item.exits n) rest (n + item.width) after := by
  obtain ⟨outside, outside', edges⟩ := embedded
  rw [widthAll_cons] at outside outside' edges
  have later {v : Nat} (inside : InBlock (n + item.width) (widthAll rest) v) :
      InBlock n (item.width + widthAll rest) v ∧ ¬ InBlock n item.width v := by
    unfold InBlock at inside ⊢
    omega
  refine ⟨fun v member inside => (later inside).2 (exits_inBlock item n member),
    fun v member inside => outside' v member (later inside).1, fun u v inside => ?_⟩
  rw [edges u v (inside.imp (fun side => (later side).1) fun side => (later side).1),
    Joined, mem_wiresAll_cons, exitsAll]
  refine or_congr_left ((or_iff_right ?_).trans (or_iff_right ?_))
  · rintro ⟨source, target⟩
    rcases inside with inside | inside
    · exact outside u source (later inside).1
    · exact (later inside).2 (entries_inBlock canonical.1 target)
  · intro inner
    have ends := wires_inBlock item n canonical.1 inner
    exact inside.elim (fun side => (later side).2 ends.1) fun side => (later side).2 ends.2

/-- The edges that join the components of the first item. -/
theorem adj_head_iff (canonical : CanonicalItems (item :: rest))
    (embedded : Embedded adj before (item :: rest) n after) {u v : Nat}
    (inside : InBlock n item.width u ∨ InBlock n item.width v) :
    adj u v ↔ (u ∈ before ∧ v ∈ item.entries n) ∨ (u, v) ∈ item.wires n
      ∨ (u ∈ item.exits n ∧ v ∈ entriesAll rest (n + item.width) after) := by
  obtain ⟨-, outside', edges⟩ := embedded
  rw [widthAll_cons] at outside' edges
  have wider {v : Nat} (inside : InBlock n item.width v) :
      InBlock n (item.width + widthAll rest) v := by
    unfold InBlock at inside ⊢
    omega
  have apart {v : Nat} (inside : InBlock n item.width v) :
      ¬ InBlock (n + item.width) (widthAll rest) v := by
    unfold InBlock at inside ⊢
    omega
  rw [edges u v (inside.imp wider wider), Joined, mem_wiresAll_cons, or_assoc, or_assoc]
  refine or_congr_right (or_congr_right ?_)
  rw [exitsAll]
  cases rest with
  | nil => exact or_iff_right List.not_mem_nil
  | cons next rest =>
    have both {u v : Nat} (inside : InBlock n item.width u ∨ InBlock n item.width v)
        (source : InBlock (n + item.width) (widthAll (next :: rest)) u)
        (target : InBlock (n + item.width) (widthAll (next :: rest)) v) : False :=
      inside.elim (fun side => apart side source) fun side => apart side target
    refine (or_iff_left ?_).trans (mem_wiresAll_cons.trans (or_iff_left ?_))
    · rintro ⟨exit, target⟩
      have source := exitsAll_inBlock_of_ne_nil (List.cons_ne_nil next rest) exit
      exact inside.elim (fun side => apart side source) fun side => outside' v target (wider side)
    · rw [widthAll_cons] at both
      rintro (inner | later)
      · obtain ⟨⟨low, high⟩, low', high'⟩ := wires_inBlock next _ canonical.2.2.1 inner
        exact both inside ⟨low, by omega⟩ ⟨low', by omega⟩
      · obtain ⟨source, low', high'⟩ := wiresAll_inBlock _ rest _ canonical.2.2.2.2 later
        refine both inside ?_ ⟨by omega, by omega⟩
        rcases source with exit | ⟨low, high⟩
        · obtain ⟨low, high⟩ := exits_inBlock next _ exit
          exact ⟨low, by omega⟩
        · exact ⟨by omega, by omega⟩

/-- What stands before items is none of the first. -/
theorem before_outside_head (embedded : Embedded adj before (item :: rest) n after) {v : Nat}
    (member : v ∈ before) : ¬ InBlock n item.width v := by
  rintro ⟨low, high⟩
  refine embedded.before_outside v member ⟨low, ?_⟩
  rw [widthAll_cons]
  omega

/-- What is next to the first item is none of it. -/
theorem next_outside_head (canonical : CanonicalItems (item :: rest))
    (embedded : Embedded adj before (item :: rest) n after) {v : Nat}
    (member : v ∈ entriesAll rest (n + item.width) after) : ¬ InBlock n item.width v := by
  rintro ⟨low, high⟩
  cases rest with
  | nil =>
    refine embedded.after_outside v member ⟨low, ?_⟩
    rw [widthAll_cons]
    omega
  | cons next rest => exact absurd high (Nat.not_lt.mpr (entries_inBlock canonical.2.2.1 member).1)

/-- What a token that comes first is joined to. -/
theorem adj_token_iff {text : String} (canonical : CanonicalItems (.token text :: rest))
    (embedded : Embedded adj before (.token text :: rest) n after) :
    (∀ u, adj u n ↔ u ∈ before) ∧ ∀ v, adj n v ↔ v ∈ entriesAll rest (n + 1) after := by
  have inside : InBlock n (Item.token text).width n := ⟨Nat.le_refl n, Nat.lt_succ_self n⟩
  have notBefore : n ∉ before := fun member => embedded.before_outside_head member inside
  have notNext : n ∉ entriesAll rest (n + 1) after := fun member =>
    embedded.next_outside_head canonical member inside
  constructor
  · intro u
    rw [embedded.adj_head_iff canonical (.inr inside)]
    simp only [entries, wires, width_token, List.mem_singleton, List.not_mem_nil, notNext, and_true,
      and_false, or_false]
  · intro v
    rw [embedded.adj_head_iff canonical (.inl inside)]
    simp only [exits, wires, width_token, List.mem_singleton, List.not_mem_nil, notBefore,
      false_and, true_and, false_or]

/-- The branches of a module that comes first stand between what is before it and what is next. -/
theorem branches {branches : List (List Item)}
    (canonical : CanonicalItems (.module branches :: rest))
    (embedded : Embedded adj before (.module branches :: rest) n after) :
    EmbeddedBranches adj before branches n
      (entriesAll rest (n + widthBranches branches) after) where
  before_outside _ member := embedded.before_outside_head member
  after_outside _ member := embedded.next_outside_head canonical member
  adj_iff _ _ inside := embedded.adj_head_iff canonical inside

end Embedded

namespace EmbeddedBranches

variable {adj : Nat → Nat → Prop} {before after : List Nat} {branch : List Item}
  {rest : List (List Item)} {n : Nat}

/-- The first branch, and the others. -/
theorem cons (canonical : CanonicalBranches (branch :: rest))
    (embedded : EmbeddedBranches adj before (branch :: rest) n after) :
    Embedded adj before branch n after
      ∧ EmbeddedBranches adj before rest (n + widthAll branch) after := by
  obtain ⟨outside, outside', edges⟩ := embedded
  obtain ⟨begins, own, others⟩ := canonical
  rw [widthBranches_cons] at outside outside' edges
  have first {v : Nat} (inside : InBlock n (widthAll branch) v) :
      InBlock n (widthAll branch + widthBranches rest) v ∧
        ¬ InBlock (n + widthAll branch) (widthBranches rest) v := by
    unfold InBlock at inside ⊢
    omega
  have later {v : Nat} (inside : InBlock (n + widthAll branch) (widthBranches rest) v) :
      InBlock n (widthAll branch + widthBranches rest) v ∧ ¬ InBlock n (widthAll branch) v := by
    unfold InBlock at inside ⊢
    omega
  refine ⟨⟨fun v member inside => outside v member (first inside).1,
    fun v member inside => outside' v member (first inside).1, fun u v inside => ?_⟩,
    fun v member inside => outside v member (later inside).1,
    fun v member inside => outside' v member (later inside).1, fun u v inside => ?_⟩
  · rw [edges u v (inside.imp (fun side => (first side).1) fun side => (first side).1),
      joinedBranches_cons_iff begins]
    refine or_iff_left fun edge => ?_
    obtain ⟨source, target⟩ := edge.ends others
    rcases inside with inside | inside
    · exact source.elim (outside u · (first inside).1) (first inside).2
    · exact target.elim (outside' v · (first inside).1) (first inside).2
  · rw [edges u v (inside.imp (fun side => (later side).1) fun side => (later side).1),
      joinedBranches_cons_iff begins]
    refine or_iff_right fun edge => ?_
    obtain ⟨source, target⟩ := edge.ends begins.ne_nil own
    rcases inside with inside | inside
    · exact source.elim (outside u · (later inside).1) (later inside).2
    · exact target.elim (outside' v · (later inside).1) (later inside).2

/-- Edges enter the first component of a branch only from what stands before the branches. -/
theorem adj_head_iff {branches : List (List Item)} (canonical : CanonicalBranches branches)
    (embedded : EmbeddedBranches adj before branches n after) {v : Nat}
    (member : v ∈ heads branches n) (u : Nat) : adj u v ↔ u ∈ before := by
  have inside := heads_inBlock canonical member
  rw [embedded.adj_iff u v (.inr inside), JoinedBranches, and_iff_left member]
  refine or_iff_left ?_
  rintro (wire | ⟨-, behind⟩)
  · exact (exists_wire_iff_branches branches n canonical inside).1.mp ⟨u, wire⟩ member
  · exact embedded.after_outside v behind inside

end EmbeddedBranches

end Item

/-! ## Closing modules and joining roots -/

namespace ComponentGraph

open Item

/-- All that is in a graph are items, a split in front of them if they have several entries, and a
concatenation behind them if they have several exits. -/
structure Framed (c : ComponentGraph) (items : List Item) (opening closing : List Nat) : Prop where
  adj_iff : ∀ u v, c.graph.Adj u v ↔ Joined opening items 0 closing u v
  opens : (opening = [] ∧ (entriesAll items 0 []).length ≤ 1)
    ∨ ∃ s, opening = [s] ∧ widthAll items ≤ s ∧ c.IsLabelled s .split
      ∧ 1 < (entriesAll items 0 []).length
  closes : (closing = [] ∧ (exitsAll [] items 0).length ≤ 1)
    ∨ ∃ x, closing = [x] ∧ widthAll items ≤ x ∧ c.IsLabelled x .concat
      ∧ 1 < (exitsAll [] items 0).length

namespace Framed

variable {c : ComponentGraph} {items : List Item} {opening closing : List Nat}
  (framed : Framed c items opening closing)
include framed

/-- The split and the concatenation are behind the items. -/
theorem outside {v : Nat} (member : v ∈ opening ∨ v ∈ closing) :
    ¬ InBlock 0 (widthAll items) v := by
  rintro ⟨-, inside⟩
  rcases member with member | member
  · rcases framed.opens with ⟨rfl, -⟩ | ⟨s, rfl, late, -⟩
    · cases member
    · rw [List.mem_singleton.mp member] at inside
      omega
  · rcases framed.closes with ⟨rfl, -⟩ | ⟨x, rfl, late, -⟩
    · cases member
    · rw [List.mem_singleton.mp member] at inside
      omega

/-- No component is a split and a concatenation. -/
theorem disjoint {v : Nat} (first : v ∈ opening) (last : v ∈ closing) : False := by
  rcases framed.opens with ⟨rfl, -⟩ | ⟨s, rfl, -, ⟨component, label, split⟩, -⟩
  · cases first
  · rcases framed.closes with ⟨rfl, -⟩ | ⟨x, rfl, -, ⟨component', label', concat⟩, -⟩
    · cases last
    · obtain rfl := List.mem_singleton.mp first
      obtain rfl := List.mem_singleton.mp last
      obtain rfl := Option.some.inj (label.symm.trans label')
      cases split.symm.trans concat

theorem embedded : Embedded c.graph.Adj opening items 0 closing where
  before_outside _ member := framed.outside (.inl member)
  after_outside _ member := framed.outside (.inr member)
  adj_iff u v _ := framed.adj_iff u v

/-- The split has an edge to each entry, and no edge enters it. -/
theorem adj_opening_iff (some : items ≠ []) (canonical : CanonicalItems items) {s : Nat}
    (member : s ∈ opening) :
    (∀ v, c.graph.Adj s v ↔ v ∈ entriesAll items 0 [])
      ∧ (s ∉ closing → ∀ u, ¬ c.graph.Adj u s) := by
  have late := framed.outside (.inl member)
  refine ⟨fun v => ?_, fun other u edge => ?_⟩
  · rw [framed.adj_iff, joined_iff_nil _ some, and_iff_right member]
    refine or_iff_left fun edge => ?_
    exact (edge.ends some canonical).1.elim List.not_mem_nil late
  · exact (((framed.adj_iff u s).mp edge).ends some canonical).2.elim other late

/-- An edge enters the concatenation from each exit, and no edge leaves it. -/
theorem adj_closing_iff (some : items ≠ []) (canonical : CanonicalItems items) {x : Nat}
    (member : x ∈ closing) :
    (∀ u, c.graph.Adj u x ↔ u ∈ exitsAll opening items 0)
      ∧ (x ∉ opening → ∀ v, ¬ c.graph.Adj x v) := by
  have late := framed.outside (.inr member)
  refine ⟨fun u => ?_, fun other v edge => ?_⟩
  · rw [framed.adj_iff, Item.Joined, and_iff_left member]
    refine or_iff_right fun wire => ?_
    exact late (wiresAll_inBlock opening items 0 canonical wire).2
  · exact (((framed.adj_iff x v).mp edge).ends some canonical).1.elim other late

end Framed

/-- Modules with at most one open exit stay as they are. -/
theorem foldl_closeModule_of_few {c : ComponentGraph} {exits : List (List Nat)}
    (few : ∀ xs ∈ exits, (xs.filter fun v => c.graph.outDegree v = 0).length < 2) :
    exits.foldl closeModule c = c := by
  induction exits with
  | nil => rfl
  | cons xs exits ih =>
    obtain ⟨first, others⟩ := List.forall_mem_cons.mp few
    have same : c.closeModule xs = c := if_pos first
    rw [List.foldl_cons, same, ih others]

/-- A module whose exits are all open is closed by a concatenation that they have edges to. -/
theorem graph_closeModule {c : ComponentGraph} {exits : List Nat} (several : 1 < exits.length)
    (sinks : ∀ v ∈ exits, c.graph.outDegree v = 0) :
    (c.closeModule exits).graph = (c.graph.addVertex (c.fresh .concat)).addEdges
      (exits.map fun v => (v, c.size)) := by
  have all : exits.filter (fun v => c.graph.outDegree v = 0) = exits :=
    List.filter_eq_self.mpr fun v member => decide_eq_true (sinks v member)
  rw [closeModule]
  simp only [all, if_neg (Nat.not_lt.mpr several)]
  rfl

/-- The graph of items, with the exits that were remembered last if there are several. -/
structure Laid (c : ComponentGraph) (items : List Item) : Prop where
  dag : c.graph.IsDag
  exits : ∀ xs ∈ c.exits, xs.Nodup ∧ ∀ v ∈ xs, v < c.size
  size : c.size = widthAll items
  adj_iff : ∀ u v, c.graph.Adj u v ↔ (u, v) ∈ wiresAll [] items 0
  remembered : 1 < (exitsAll [] items 0).length → c.exits.head? = some (exitsAll [] items 0)

/-- The graph of items, and a concatenation that the exits have edges to if there are several. -/
structure Closed (c : ComponentGraph) (items : List Item) (closing : List Nat) : Prop where
  adj_iff : ∀ u v, c.graph.Adj u v ↔ Joined [] items 0 closing u v
  size : c.size = widthAll items + closing.length
  closes : (closing = [] ∧ (exitsAll [] items 0).length ≤ 1)
    ∨ (closing = [widthAll items] ∧ c.IsLabelled (widthAll items) .concat
      ∧ 1 < (exitsAll [] items 0).length)

namespace Laid

variable {c : ComponentGraph} {items : List Item} (laid : Laid c items)
  (canonical : CanonicalItems items)
include laid canonical

/-- No edge leaves the exits, and an edge leaves every other component. -/
theorem outDegree_eq_zero_iff {v : Nat} (inside : v < c.size) :
    c.graph.outDegree v = 0 ↔ v ∈ exitsAll [] items 0 := by
  rw [Digraph.outDegree_eq_zero_iff, ← not_exists, ← not_iff_not, not_not]
  simp only [laid.adj_iff]
  have block : InBlock 0 (widthAll items) v := by
    have := laid.size
    exact ⟨Nat.zero_le v, by omega⟩
  exact (exists_wire_iff_all [] items 0 canonical block List.not_mem_nil).2

/-- With one exit, no module is open. -/
theorem closeModules_of_few (few : (exitsAll [] items 0).length ≤ 1) :
    c.exits.foldl closeModule c = c := by
  refine foldl_closeModule_of_few fun xs member => ?_
  obtain ⟨nodup, inside⟩ := laid.exits xs member
  refine Nat.lt_succ_of_le (Nat.le_trans ?_ few)
  refine List.Subperm.length_le ((nodup.filter _).subperm fun v there => ?_)
  obtain ⟨old, sink⟩ := List.mem_filter.mp there
  exact (laid.outDegree_eq_zero_iff canonical (inside v old)).mp (of_decide_eq_true sink)

/-- With several exits, the module that ends the items is closed, and no other is open then. -/
theorem closeModules_of_several (several : 1 < (exitsAll [] items 0).length) :
    c.exits.foldl closeModule c = c.closeModule (exitsAll [] items 0)
      ∧ (c.closeModule (exitsAll [] items 0)).graph
        = (c.graph.addVertex (c.fresh .concat)).addEdges
          ((exitsAll [] items 0).map fun v => (v, c.size)) := by
  obtain ⟨others, remembered⟩ := List.head?_eq_some_iff.mp (laid.remembered several)
  obtain ⟨own, inside⟩ := List.forall_mem_cons.mp (remembered ▸ laid.exits)
  have graph := graph_closeModule several fun v member =>
    (laid.outDegree_eq_zero_iff canonical (own.2 v member)).mpr member
  refine ⟨?_, graph⟩
  rw [remembered, List.foldl_cons]
  refine foldl_closeModule_of_few fun xs member => ?_
  -- every component but the concatenation has an edge now
  have closed : xs.filter (fun v => (c.closeModule (exitsAll [] items 0)).graph.outDegree v = 0)
      = [] := by
    refine List.filter_eq_nil_iff.mpr fun v there sink => ?_
    have sink := (Digraph.outDegree_eq_zero_iff _ v).mp (of_decide_eq_true sink)
    rw [graph] at sink
    by_cases exit : v ∈ exitsAll [] items 0
    · exact sink c.size ((Digraph.adj_addEdges ..).mpr
        (.inl (List.mem_map.mpr ⟨v, exit, rfl⟩)))
    · refine exit ((laid.outDegree_eq_zero_iff canonical ((inside xs member).2 v there)).mp ?_)
      refine (Digraph.outDegree_eq_zero_iff _ v).mpr fun w edge => ?_
      exact sink w ((Digraph.adj_addEdges ..).mpr (.inr ((Digraph.adj_addVertex ..).mpr edge)))
  rw [closed]
  exact Nat.two_pos

/-- A concatenation closes the module that ends the items, if one does. -/
theorem closeModules : ∃ closing, Closed c.closeModules items closing := by
  by_cases several : 1 < (exitsAll [] items 0).length
  · obtain ⟨closes, graph⟩ := laid.closeModules_of_several canonical several
    have graph : c.closeModules.graph = (c.graph.addVertex (c.fresh .concat)).addEdges
        ((exitsAll [] items 0).map fun v => (v, c.size)) := by
      rw [← graph, ← closes]
      rfl
    have vertices : c.closeModules.graph.vertices = c.graph.vertices.push (c.fresh .concat) := by
      rw [graph, Digraph.vertices_addEdges]
      rfl
    refine ⟨[c.size], fun u v => ?_, ?_,
      .inr ⟨congrArg (fun n => [n]) laid.size, ⟨c.fresh .concat, ?_, rfl⟩, several⟩⟩
    · rw [graph, Digraph.adj_addEdges, or_comm, Digraph.adj_addVertex, laid.adj_iff, Item.Joined]
      simp only [List.mem_map, Prod.mk.injEq, List.mem_singleton]
      refine or_congr_right ⟨?_, ?_⟩
      · rintro ⟨w, member, rfl, rfl⟩
        exact ⟨member, rfl⟩
      · rintro ⟨member, rfl⟩
        exact ⟨u, member, rfl, rfl⟩
    · show c.closeModules.graph.vertices.size = _
      rw [vertices, Array.size_push, ← laid.size]
      rfl
    · rw [Digraph.label?, vertices, ← laid.size]
      exact Array.getElem?_push_size
  · have few := Nat.le_of_not_lt several
    have same := laid.closeModules_of_few canonical few
    refine ⟨[], fun u v => ?_, ?_, .inl ⟨rfl, few⟩⟩
    · show (c.exits.foldl closeModule c).graph.Adj u v ↔ _
      rw [same, laid.adj_iff]
      exact (or_iff_left fun last => List.not_mem_nil last.2).symm
    · show (c.exits.foldl closeModule c).size = _
      rw [same]
      exact laid.size

end Laid

namespace Closed

variable {c : ComponentGraph} {items : List Item} {closing : List Nat}
  (closed : Closed c items closing)
include closed

theorem mem_closing {v : Nat} (member : v ∈ closing) : v = widthAll items := by
  rcases closed.closes with ⟨rfl, -⟩ | ⟨rfl, -, -⟩
  · exact absurd member List.not_mem_nil
  · exact List.mem_singleton.mp member

theorem width_le : widthAll items ≤ c.size := closed.size ▸ Nat.le_add_right _ _

/-- All that is in the graph is in the items, or closes them. -/
theorem lt_width {v : Nat} (inside : v < c.size) (other : v ∉ closing) : v < widthAll items := by
  rw [closed.size] at inside
  rcases closed.closes with ⟨rfl, -⟩ | ⟨rfl, -, -⟩
  · exact inside
  · rw [List.mem_singleton] at other
    rw [List.length_singleton] at inside
    omega

variable (some : items ≠ []) (canonical : CanonicalItems items)
include some canonical

/-- The roots are the entries of the items. -/
theorem roots_eq : c.graph.roots = entriesAll items 0 [] := by
  obtain ⟨u, leaves⟩ : ∃ u, u ∈ exitsAll [] items 0 :=
    List.exists_mem_of_length_pos (exitsAll_pos [] items 0 canonical (.inl some))
  have sorted : c.graph.roots.Pairwise (· < ·) := List.pairwise_lt_range.filter _
  refine sorted.eq_of_mem_iff (pairwise_entriesAll some canonical) fun v => ?_
  have unentered (inside : v < widthAll items) :
      (∃ u, (u, v) ∈ wiresAll [] items 0) ↔ v ∉ entriesAll items 0 [] := by
    rw [(exists_wire_iff_all [] items 0 canonical ⟨Nat.zero_le v, by omega⟩ List.not_mem_nil).1]
    exact or_iff_right fun nonempty => nonempty rfl
  rw [Digraph.mem_roots_iff]
  simp only [closed.adj_iff]
  constructor
  · rintro ⟨inside, alone⟩
    have old := closed.lt_width inside fun member => alone u (.inr ⟨leaves, member⟩)
    by_contra other
    obtain ⟨w, wire⟩ := (unentered old).mpr other
    exact alone w (.inl wire)
  · intro entry
    have old : v < widthAll items := by
      have := (entriesAll_inBlock some canonical entry).2
      omega
    refine ⟨Nat.lt_of_lt_of_le old closed.width_le, fun u edge => ?_⟩
    rcases edge with wire | ⟨-, member⟩
    · exact (unentered old).mp ⟨u, wire⟩ entry
    · exact absurd (closed.mem_closing member) (Nat.ne_of_lt old)

/-- A split joins the entries of the items, if there are several. -/
theorem joinRoots {n : Nat} (larger : Extends n c c.joinRoots) :
    ∃ opening, Framed c.joinRoots items opening closing := by
  have roots := closed.roots_eq some canonical
  have closes : (closing = [] ∧ (exitsAll [] items 0).length ≤ 1) ∨ ∃ x, closing = [x]
      ∧ widthAll items ≤ x ∧ c.joinRoots.IsLabelled x .concat
      ∧ 1 < (exitsAll [] items 0).length := by
    refine closed.closes.imp_right ?_
    rintro ⟨rfl, labelled, several⟩
    refine ⟨_, rfl, Nat.le_refl _, larger.isLabelled ?_ labelled, several⟩
    rw [closed.size]
    exact Nat.lt_succ_self _
  by_cases several : 1 < (entriesAll items 0 []).length
  · have graph : c.joinRoots.graph = (c.graph.addVertex (c.fresh .split)).addEdges
        ((entriesAll items 0 []).map fun v => (c.size, v)) := by
      rw [ComponentGraph.joinRoots]
      simp only [roots, if_neg (Nat.not_lt.mpr several)]
      rfl
    refine ⟨[c.size], fun u v => ?_,
      .inr ⟨_, rfl, closed.width_le, ⟨c.fresh .split, ?_, rfl⟩, several⟩, closes⟩
    · rw [graph, Digraph.adj_addEdges, Digraph.adj_addVertex, closed.adj_iff,
        joined_iff_nil [c.size] some]
      simp only [List.mem_map, Prod.mk.injEq, List.mem_singleton]
      refine or_congr_left ⟨?_, ?_⟩
      · rintro ⟨w, member, rfl, rfl⟩
        exact ⟨rfl, member⟩
      · rintro ⟨rfl, member⟩
        exact ⟨v, member, rfl, rfl⟩
    · rw [Digraph.label?, graph, Digraph.vertices_addEdges]
      exact Array.getElem?_push_size
  · have same : c.joinRoots = c := by
      refine if_pos (Nat.lt_succ_of_le (Nat.le_of_not_lt ?_))
      rwa [roots]
    refine ⟨[], fun u v => ?_, .inl ⟨rfl, Nat.le_of_not_lt several⟩, closes⟩
    rw [same]
    exact closed.adj_iff u v

end Closed

/-- The components from a number on have the blueprints of tokens. -/
def Named (c : ComponentGraph) (tokens : List String) (first : Nat) : Prop :=
  ∀ i text, tokens[i]? = some text → ∃ component, c.graph.label? (first + i) = some component
    ∧ Blueprint.read? text = some component.blueprint

theorem Named.append {c : ComponentGraph} {tokens tokens' : List String} {first : Nat}
    (named : c.Named (tokens ++ tokens') first) :
    c.Named tokens first ∧ c.Named tokens' (first + tokens.length) := by
  refine ⟨fun i text there => named i text ?_, fun i text there => ?_⟩
  · rw [List.getElem?_append_left (List.getElem?_eq_some_iff.mp there).1]
    exact there
  · rw [Nat.add_assoc]
    refine named (tokens.length + i) text ?_
    rw [List.getElem?_append_right (Nat.le_add_right _ _), Nat.add_sub_cancel_left]
    exact there

/-- The normal form of a canonical architecture expands a graph in which its items are framed. -/
theorem exists_framed {items : List Item} (some : items ≠ []) (canonical : CanonicalItems items)
    {assembled : Assembled} (success : assemble (statements items) = .ok assembled)
    {normal : ComponentGraph} (normalized : assembled.components.normalize = .ok normal) :
    ∃ c opening closing behind front, Framed c items opening closing ∧ c.graph.IsDag
      ∧ widthAll items ≤ c.size ∧ c.Named (tokensAll items) 0 ∧ Expands c normal behind front := by
  obtain ⟨wf, -⟩ := assemble_wellFormed success
  obtain ⟨none, rfl⟩ := eq_of_normalize_eq_ok normalized
  have dag : assembled.components.graph.IsDag :=
    ⟨wf.graph, (Digraph.cycleVertex?_eq_none_iff wf.graph).mp none⟩
  obtain ⟨blueprints, adj, remembered⟩ := lays_of_assemble canonical success
  have size : assembled.components.size = widthAll items := by
    have lengths := congrArg List.length blueprints
    rw [List.length_map, List.length_map, Array.length_toList] at lengths
    exact lengths
  obtain ⟨closing, closed⟩ :=
    Laid.closeModules ⟨dag, wf.exits, size, adj, remembered some⟩ canonical
  have larger := extends_closeModules dag (Nat.zero_le _) wf.exits
  have joined := extends_joinRoots larger.dag (Nat.zero_le _)
  obtain ⟨opening, framed⟩ := closed.joinRoots some canonical joined
  have larger := larger.trans joined
  obtain ⟨behind, front, expands⟩ := exists_expands larger.dag
  refine ⟨_, opening, closing, behind, front, framed, larger.dag, size ▸ larger.size_le,
    fun i text there => ?_, expands⟩
  have inside : i < assembled.components.size := by
    rw [size]
    exact (List.getElem?_eq_some_iff.mp there).1
  have named : (assembled.components.graph.vertices.toList.map
      fun component => Option.some component.blueprint)[i]?
        = Option.some (Blueprint.read? text) := by
    rw [blueprints, List.getElem?_map, there]
    rfl
  rw [List.getElem?_map, Option.map_eq_some_iff] at named
  obtain ⟨component, label, read⟩ := named
  rw [Nat.zero_add, larger.label?_eq inside]
  exact ⟨component, Array.getElem?_toList.symm.trans label, read.symm⟩

end ComponentGraph

end LayerNet
