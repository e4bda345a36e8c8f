import LayerNet.Proofs.Architecture.Canonical
import LayerNet.Proofs.Component.Invariance
import Mathlib.Data.List.ProdSigma

/-!
# Layout — which components the items of a canonical architecture become

Tokens become components in the order in which they are written, so the items of a list take the
numbers from some number on (`tokens`). Items hand their first components to what stands before them
(`entries`) and their last ones to what stands behind (`exits`), and `wires` are the edges inside.

A component has an edge from inside exactly when it is no entry, and one to inside exactly when it
is no exit (`exists_wire_iff`): this is how a module's ends are found again.
-/

namespace LayerNet

namespace Item

/-! ## Tokens and ends -/

mutual

/-- The tokens of an item, in order. -/
def tokens : Item → List String
  | .token text => [text]
  | .module branches => tokensBranches branches

/-- The tokens of items, in order. -/
def tokensAll : List Item → List String
  | [] => []
  | item :: rest => item.tokens ++ tokensAll rest

/-- The tokens of branches, in order. -/
def tokensBranches : List (List Item) → List String
  | [] => []
  | branch :: rest => tokensAll branch ++ tokensBranches rest

end

/-- How many components an item becomes. -/
def width (item : Item) : Nat := item.tokens.length

/-- How many components items become. -/
def widthAll (items : List Item) : Nat := (tokensAll items).length

/-- How many components branches become. -/
def widthBranches (branches : List (List Item)) : Nat := (tokensBranches branches).length

/-- The first components of branches whose first one has the given number. -/
def heads : List (List Item) → Nat → List Nat
  | [], _ => []
  | branch :: rest, n => n :: heads rest (n + widthAll branch)

/-- The components of an item that edges lead to from before it. -/
def entries : Item → Nat → List Nat
  | .token _, n => [n]
  | .module branches, n => heads branches n

/-- The components that edges lead to from before items, or from before what follows if there are
none. -/
def entriesAll : List Item → Nat → List Nat → List Nat
  | [], _, after => after
  | item :: _, n, _ => item.entries n

mutual

/-- The components of an item that edges leave to what stands behind it. -/
def exits : Item → Nat → List Nat
  | .token _, n => [n]
  | .module branches, n => exitsBranches branches n

/-- The components that edges leave to what stands behind items, or behind what stands before if
there are none. -/
def exitsAll : List Nat → List Item → Nat → List Nat
  | before, [], _ => before
  | _, item :: rest, n => exitsAll (item.exits n) rest (n + item.width)

/-- The last components of branches. -/
def exitsBranches : List (List Item) → Nat → List Nat
  | [], _ => []
  | branch :: rest, n => exitsAll [] branch n ++ exitsBranches rest (n + widthAll branch)

end

mutual

/-- The edges inside an item. -/
def wires : Item → Nat → List Edge
  | .token _, _ => []
  | .module branches, n => wiresBranches branches n

/-- The edges inside items and into them. -/
def wiresAll : List Nat → List Item → Nat → List Edge
  | _, [], _ => []
  | before, item :: rest, n =>
    before ×ˢ item.entries n ++ (item.wires n ++ wiresAll (item.exits n) rest (n + item.width))

/-- The edges inside branches. -/
def wiresBranches : List (List Item) → Nat → List Edge
  | [], _ => []
  | branch :: rest, n => wiresAll [] branch n ++ wiresBranches rest (n + widthAll branch)

end

@[simp] theorem width_token (text : String) : (Item.token text).width = 1 := rfl

@[simp] theorem width_module (branches : List (List Item)) :
    (Item.module branches).width = widthBranches branches := rfl

@[simp] theorem widthAll_nil : widthAll [] = 0 := rfl

@[simp] theorem widthAll_cons (item : Item) (rest : List Item) :
    widthAll (item :: rest) = item.width + widthAll rest :=
  List.length_append

@[simp] theorem widthBranches_nil : widthBranches [] = 0 := rfl

@[simp] theorem widthBranches_cons (branch : List Item) (rest : List (List Item)) :
    widthBranches (branch :: rest) = widthAll branch + widthBranches rest :=
  List.length_append

/-! ## Where ends and edges are -/

/-- The numbers of a block of components. -/
def InBlock (n width v : Nat) : Prop := n ≤ v ∧ v < n + width

theorem BeginsWithToken.exists_token {items : List Item} (begins : BeginsWithToken items) :
    ∃ text rest, items = .token text :: rest := by
  match items with
  | .token text :: rest => exact ⟨text, rest, rfl⟩
  | .module _ :: _ => exact absurd trivial begins

theorem BeginsWithToken.widthAll_pos {items : List Item} (begins : BeginsWithToken items) :
    0 < widthAll items := by
  obtain ⟨text, rest, rfl⟩ := begins.exists_token
  rw [widthAll_cons, width_token]
  omega

theorem heads_inBlock {branches : List (List Item)} {n v : Nat}
    (canonical : CanonicalBranches branches) (member : v ∈ heads branches n) :
    InBlock n (widthBranches branches) v := by
  induction branches generalizing n with
  | nil => cases member
  | cons branch rest ih =>
    obtain ⟨begins, -, others⟩ := canonical
    have wide := begins.widthAll_pos
    rw [widthBranches_cons]
    rcases List.mem_cons.mp member with rfl | member
    · exact ⟨Nat.le_refl _, by omega⟩
    · obtain ⟨low, high⟩ := ih others member
      exact ⟨by omega, by omega⟩

theorem entries_inBlock {item : Item} {n v : Nat} (canonical : item.Canonical)
    (member : v ∈ item.entries n) : InBlock n item.width v := by
  cases item with
  | token text =>
    obtain rfl := List.mem_singleton.mp member
    exact ⟨Nat.le_refl _, Nat.lt_succ_self _⟩
  | module branches => exact heads_inBlock canonical.2 member

mutual

theorem exits_inBlock : ∀ (item : Item) (n : Nat) {v : Nat}, v ∈ item.exits n →
    InBlock n item.width v
  | .token _, n, v, member => by
    obtain rfl := List.mem_singleton.mp member
    exact ⟨Nat.le_refl _, Nat.lt_succ_self _⟩
  | .module branches, n, v, member => exitsBranches_inBlock branches n member

theorem exitsAll_inBlock : ∀ (before : List Nat) (items : List Item) (n : Nat) {v : Nat},
    v ∈ exitsAll before items n → v ∈ before ∨ InBlock n (widthAll items) v
  | before, [], n, v, member => .inl member
  | before, item :: rest, n, v, member => by
    rw [widthAll_cons]
    rcases exitsAll_inBlock (item.exits n) rest (n + item.width) member with member | ⟨low, high⟩
    · obtain ⟨low, high⟩ := exits_inBlock item n member
      exact .inr ⟨low, by omega⟩
    · exact .inr ⟨by omega, by omega⟩

theorem exitsBranches_inBlock : ∀ (branches : List (List Item)) (n : Nat) {v : Nat},
    v ∈ exitsBranches branches n → InBlock n (widthBranches branches) v
  | [], n, v, member => by cases member
  | branch :: rest, n, v, member => by
    rw [widthBranches_cons]
    rcases List.mem_append.mp member with member | member
    · rcases exitsAll_inBlock [] branch n member with member | ⟨low, high⟩
      · cases member
      · exact ⟨low, by omega⟩
    · obtain ⟨low, high⟩ := exitsBranches_inBlock rest (n + widthAll branch) member
      exact ⟨by omega, by omega⟩

end

mutual

theorem wires_inBlock : ∀ (item : Item) (n : Nat), item.Canonical → ∀ {u v : Nat},
    (u, v) ∈ item.wires n → InBlock n item.width u ∧ InBlock n item.width v
  | .token _, _, _, _, _, member => by cases member
  | .module branches, n, canonical, _, _, member =>
    wiresBranches_inBlock branches n canonical.2 member

theorem wiresAll_inBlock : ∀ (before : List Nat) (items : List Item) (n : Nat),
    CanonicalItems items → ∀ {u v : Nat}, (u, v) ∈ wiresAll before items n →
      (u ∈ before ∨ InBlock n (widthAll items) u) ∧ InBlock n (widthAll items) v
  | _, [], _, _, _, _, member => by cases member
  | before, item :: rest, n, ⟨own, _, others⟩, u, v, member => by
    rw [widthAll_cons]
    rw [wiresAll, List.mem_append, List.mem_append, List.mem_product] at member
    rcases member with ⟨source, target⟩ | inner | later
    · obtain ⟨low, high⟩ := entries_inBlock own target
      exact ⟨.inl source, low, by omega⟩
    · obtain ⟨⟨low, high⟩, low', high'⟩ := wires_inBlock item n own inner
      exact ⟨.inr ⟨low, by omega⟩, low', by omega⟩
    · obtain ⟨source, low', high'⟩ := wiresAll_inBlock _ rest _ others later
      refine ⟨.inr ?_, by omega, by omega⟩
      rcases source with source | ⟨low, high⟩
      · obtain ⟨low, high⟩ := exits_inBlock item n source
        exact ⟨low, by omega⟩
      · exact ⟨by omega, by omega⟩

theorem wiresBranches_inBlock : ∀ (branches : List (List Item)) (n : Nat),
    CanonicalBranches branches → ∀ {u v : Nat}, (u, v) ∈ wiresBranches branches n →
      InBlock n (widthBranches branches) u ∧ InBlock n (widthBranches branches) v
  | [], _, _, _, _, member => by cases member
  | branch :: rest, n, ⟨_, own, others⟩, u, v, member => by
    rw [widthBranches_cons]
    rcases List.mem_append.mp member with member | member
    · obtain ⟨source, low', high'⟩ := wiresAll_inBlock [] branch n own member
      obtain ⟨low, high⟩ := source.resolve_left List.not_mem_nil
      exact ⟨⟨low, by omega⟩, low', by omega⟩
    · obtain ⟨⟨low, high⟩, low', high'⟩ := wiresBranches_inBlock rest _ others member
      exact ⟨⟨by omega, by omega⟩, by omega, by omega⟩

end

/-! ## Ends are there, and in order -/

theorem heads_pos {branches : List (List Item)} {n : Nat} (some : 0 < branches.length) :
    0 < (heads branches n).length := by
  cases branches with
  | nil => cases some
  | cons branch rest => exact Nat.succ_pos _

theorem entries_pos {item : Item} {n : Nat} (canonical : item.Canonical) :
    0 < (item.entries n).length := by
  cases item with
  | token text => exact Nat.one_pos
  | module branches => exact heads_pos (Nat.lt_of_lt_of_le Nat.two_pos canonical.1)

mutual

theorem exits_pos : ∀ (item : Item) (n : Nat), item.Canonical → 0 < (item.exits n).length
  | .token _, _, _ => Nat.one_pos
  | .module branches, n, ⟨several, canonical⟩ =>
    Nat.lt_of_lt_of_le Nat.two_pos (several.trans (length_le_exitsBranches branches n canonical))

theorem exitsAll_pos : ∀ (before : List Nat) (items : List Item) (n : Nat), CanonicalItems items →
    items ≠ [] ∨ 0 < before.length → 0 < (exitsAll before items n).length
  | _, [], _, _, nonempty => nonempty.resolve_left (absurd rfl)
  | _, item :: rest, n, ⟨own, _, others⟩, _ =>
    exitsAll_pos _ rest _ others (.inr (exits_pos item n own))

/-- Every branch has an exit. -/
theorem length_le_exitsBranches : ∀ (branches : List (List Item)) (n : Nat),
    CanonicalBranches branches → branches.length ≤ (exitsBranches branches n).length
  | [], _, _ => Nat.le_refl _
  | branch :: rest, n, ⟨begins, own, others⟩ => by
    have first := exitsAll_pos [] branch n own (.inl begins.ne_nil)
    have tail := length_le_exitsBranches rest (n + widthAll branch) others
    rw [exitsBranches, List.length_append, List.length_cons]
    omega

end

/-- Behind items, if there are some, are exits of theirs. -/
theorem entriesAll_inBlock {items : List Item} {n v : Nat} {after : List Nat} (some : items ≠ [])
    (canonical : CanonicalItems items) (member : v ∈ entriesAll items n after) :
    InBlock n (widthAll items) v := by
  cases items with
  | nil => exact absurd rfl some
  | cons item rest =>
    obtain ⟨low, high⟩ := entries_inBlock canonical.1 member
    rw [widthAll_cons]
    exact ⟨low, by omega⟩

theorem exitsAll_inBlock_of_ne_nil {before : List Nat} {items : List Item} {n v : Nat}
    (some : items ≠ []) (member : v ∈ exitsAll before items n) :
    InBlock n (widthAll items) v := by
  cases items with
  | nil => exact absurd rfl some
  | cons item rest =>
    rw [widthAll_cons]
    rcases exitsAll_inBlock (item.exits n) rest (n + item.width) member with member | ⟨low, high⟩
    · obtain ⟨low, high⟩ := exits_inBlock item n member
      exact ⟨low, by omega⟩
    · exact ⟨by omega, by omega⟩

theorem pairwise_heads {branches : List (List Item)} {n : Nat}
    (canonical : CanonicalBranches branches) : (heads branches n).Pairwise (· < ·) := by
  induction branches generalizing n with
  | nil => exact .nil
  | cons branch rest ih =>
    obtain ⟨begins, -, others⟩ := canonical
    refine .cons (fun v member => ?_) (ih others)
    have wide := begins.widthAll_pos
    have := (heads_inBlock others member).1
    omega

theorem pairwise_entries {item : Item} {n : Nat} (canonical : item.Canonical) :
    (item.entries n).Pairwise (· < ·) := by
  cases item with
  | token text => exact List.pairwise_singleton _ _
  | module branches => exact pairwise_heads canonical.2

theorem pairwise_entriesAll {items : List Item} {n : Nat} {after : List Nat} (some : items ≠ [])
    (canonical : CanonicalItems items) : (entriesAll items n after).Pairwise (· < ·) := by
  cases items with
  | nil => exact absurd rfl some
  | cons item rest => exact pairwise_entries canonical.1

mutual

theorem pairwise_exits : ∀ (item : Item) (n : Nat), item.Canonical →
    (item.exits n).Pairwise (· < ·)
  | .token _, _, _ => List.pairwise_singleton _ _
  | .module branches, n, canonical => pairwise_exitsBranches branches n canonical.2

theorem pairwise_exitsAll : ∀ (before : List Nat) (items : List Item) (n : Nat),
    CanonicalItems items → before.Pairwise (· < ·) →
    (exitsAll before items n).Pairwise (· < ·)
  | _, [], _, _, sorted => sorted
  | _, item :: rest, n, ⟨own, _, others⟩, _ =>
    pairwise_exitsAll _ rest _ others (pairwise_exits item n own)

theorem pairwise_exitsBranches : ∀ (branches : List (List Item)) (n : Nat),
    CanonicalBranches branches → (exitsBranches branches n).Pairwise (· < ·)
  | [], _, _ => .nil
  | branch :: rest, n, ⟨begins, own, others⟩ => by
    refine List.pairwise_append.mpr ⟨pairwise_exitsAll [] branch n own .nil,
      pairwise_exitsBranches rest _ others, fun u first v later => ?_⟩
    have := (exitsAll_inBlock_of_ne_nil begins.ne_nil first).2
    have := (exitsBranches_inBlock rest _ later).1
    omega

end

/-! ## Which components have edges inside -/

theorem mem_wiresAll_cons {before : List Nat} {item : Item} {rest : List Item} {n u v : Nat} :
    (u, v) ∈ wiresAll before (item :: rest) n ↔ (u ∈ before ∧ v ∈ item.entries n)
      ∨ (u, v) ∈ item.wires n ∨ (u, v) ∈ wiresAll (item.exits n) rest (n + item.width) := by
  rw [wiresAll, List.mem_append, List.mem_append, List.mem_product]

section

variable {before : List Nat} {item : Item} {rest : List Item} {n v : Nat} (outside : v ∉ before)
include outside

/-- In the block of the first of some items, the edges are its own, those that enter it from before,
and those that leave it for the next. -/
theorem exists_wire_iff_head (others : CanonicalItems rest) (inside : InBlock n item.width v)
    (into : (∃ u, (u, v) ∈ item.wires n) ↔ v ∉ item.entries n)
    (out : (∃ w, (v, w) ∈ item.wires n) ↔ v ∉ item.exits n) :
    ((∃ u, (u, v) ∈ wiresAll before (item :: rest) n) ↔ before ≠ [] ∨ v ∉ item.entries n)
      ∧ ((∃ w, (v, w) ∈ wiresAll before (item :: rest) n)
        ↔ v ∉ exitsAll before (item :: rest) n) := by
  have first := inside.2
  simp only [mem_wiresAll_cons]
  constructor
  · constructor
    · rintro ⟨u, ⟨source, -⟩ | inner | later⟩
      · exact .inl (List.ne_nil_of_mem source)
      · exact .inr (into.mp ⟨u, inner⟩)
      · have := (wiresAll_inBlock _ rest _ others later).2.1
        omega
    · rintro (some | inner)
      · by_cases entry : v ∈ item.entries n
        · obtain ⟨u, source⟩ := List.exists_mem_of_ne_nil before some
          exact ⟨u, .inl ⟨source, entry⟩⟩
        · exact (into.mpr entry).imp fun u inner => .inr (.inl inner)
      · exact (into.mpr inner).imp fun u inner => .inr (.inl inner)
  · cases rest with
    | nil =>
      rw [exitsAll, exitsAll, ← out]
      refine exists_congr fun w => ⟨?_, fun inner => .inr (.inl inner)⟩
      rintro (⟨source, -⟩ | inner | later)
      · exact absurd source outside
      · exact inner
      · cases later
    | cons next rest =>
      refine ⟨fun _ exit => ?_, fun _ => ?_⟩
      · rw [exitsAll] at exit
        have := (exitsAll_inBlock_of_ne_nil (List.cons_ne_nil next rest) exit).1
        omega
      · by_cases exit : v ∈ item.exits n
        · obtain ⟨w, target⟩ :=
            List.exists_mem_of_length_pos (entries_pos (n := n + item.width) others.1)
          exact ⟨w, .inr (.inr (mem_wiresAll_cons.mpr (.inl ⟨exit, target⟩)))⟩
        · exact (out.mpr exit).imp fun w inner => .inr (.inl inner)

/-- In the block of the items behind the first, the edges are theirs. -/
theorem exists_wire_iff_rest (own : item.Canonical) (first : ¬ v < n + item.width)
    (into : (∃ u, (u, v) ∈ wiresAll (item.exits n) rest (n + item.width))
      ↔ item.exits n ≠ [] ∨ v ∉ entriesAll rest (n + item.width) [])
    (out : (∃ w, (v, w) ∈ wiresAll (item.exits n) rest (n + item.width))
      ↔ v ∉ exitsAll (item.exits n) rest (n + item.width)) :
    ((∃ u, (u, v) ∈ wiresAll before (item :: rest) n) ↔ before ≠ [] ∨ v ∉ item.entries n)
      ∧ ((∃ w, (v, w) ∈ wiresAll before (item :: rest) n)
        ↔ v ∉ exitsAll before (item :: rest) n) := by
  simp only [mem_wiresAll_cons]
  constructor
  · refine ⟨fun _ => .inr fun entry => first (entries_inBlock own entry).2, fun _ => ?_⟩
    have some := List.ne_nil_of_length_pos (exits_pos item n own)
    exact (into.mpr (.inl some)).imp fun u later => .inr (.inr later)
  · rw [exitsAll, ← out]
    refine exists_congr fun w => ⟨?_, fun later => .inr (.inr later)⟩
    rintro (⟨source, -⟩ | inner | later)
    · exact absurd source outside
    · exact absurd (wires_inBlock item n own inner).1.2 first
    · exact later

end

mutual

/-- In an item's block, an edge leads to every component that is no entry, and one leaves every
component that is no exit. -/
theorem exists_wire_iff : ∀ (item : Item) (n : Nat), item.Canonical → ∀ {v : Nat},
    InBlock n item.width v → ((∃ u, (u, v) ∈ item.wires n) ↔ v ∉ item.entries n)
      ∧ ((∃ w, (v, w) ∈ item.wires n) ↔ v ∉ item.exits n)
  | .token text, n, _, v, ⟨low, high⟩ => by
    obtain rfl : v = n := by
      rw [width_token] at high
      omega
    simp [wires, entries, exits]
  | .module branches, n, canonical, v, inside =>
    exists_wire_iff_branches branches n canonical.2 inside

theorem exists_wire_iff_all : ∀ (before : List Nat) (items : List Item) (n : Nat),
    CanonicalItems items → ∀ {v : Nat}, InBlock n (widthAll items) v → v ∉ before →
      ((∃ u, (u, v) ∈ wiresAll before items n) ↔ before ≠ [] ∨ v ∉ entriesAll items n [])
      ∧ ((∃ w, (v, w) ∈ wiresAll before items n) ↔ v ∉ exitsAll before items n)
  | _, [], n, _, v, ⟨low, high⟩, _ => by
    rw [widthAll_nil] at high
    omega
  | before, item :: rest, n, ⟨own, _, others⟩, v, ⟨low, high⟩, outside => by
    rw [widthAll_cons] at high
    by_cases first : v < n + item.width
    · obtain ⟨into, out⟩ := exists_wire_iff item n own ⟨low, first⟩
      exact exists_wire_iff_head outside others ⟨low, first⟩ into out
    · have high' : v < n + item.width + widthAll rest := by omega
      have later : v ∉ item.exits n := fun exit => first (exits_inBlock item n exit).2
      obtain ⟨into, out⟩ :=
        exists_wire_iff_all (item.exits n) rest _ others ⟨Nat.le_of_not_lt first, high'⟩ later
      exact exists_wire_iff_rest outside own first into out

theorem exists_wire_iff_branches : ∀ (branches : List (List Item)) (n : Nat),
    CanonicalBranches branches → ∀ {v : Nat}, InBlock n (widthBranches branches) v →
      ((∃ u, (u, v) ∈ wiresBranches branches n) ↔ v ∉ heads branches n)
      ∧ ((∃ w, (v, w) ∈ wiresBranches branches n) ↔ v ∉ exitsBranches branches n)
  | [], n, _, v, ⟨low, high⟩ => by
    rw [widthBranches_nil] at high
    omega
  | branch :: rest, n, ⟨begins, own, others⟩, v, ⟨low, high⟩ => by
    rw [widthBranches_cons] at high
    simp only [wiresBranches, List.mem_append, heads, exitsBranches, List.mem_cons, not_or]
    by_cases first : v < n + widthAll branch
    · obtain ⟨into, out⟩ := exists_wire_iff_all [] branch n own ⟨low, first⟩ List.not_mem_nil
      have head : entriesAll branch n [] = [n] := by
        obtain ⟨text, tail, rfl⟩ := begins.exists_token
        rfl
      rw [head, List.mem_singleton, or_iff_right (fun some => some rfl)] at into
      have notHead : v ∉ heads rest (n + widthAll branch) := fun member =>
        absurd (heads_inBlock others member).1 (Nat.not_le.mpr first)
      have notExit : v ∉ exitsBranches rest (n + widthAll branch) := fun member =>
        absurd (exitsBranches_inBlock rest _ member).1 (Nat.not_le.mpr first)
      rw [and_iff_left notHead, and_iff_left notExit, ← into, ← out]
      refine ⟨exists_congr fun u => or_iff_left fun later => ?_,
        exists_congr fun w => or_iff_left fun later => ?_⟩
      · exact absurd (wiresBranches_inBlock rest _ others later).2.1 (Nat.not_le.mpr first)
      · exact absurd (wiresBranches_inBlock rest _ others later).1.1 (Nat.not_le.mpr first)
    · obtain ⟨into, out⟩ := exists_wire_iff_branches rest (n + widthAll branch) others (v := v)
        ⟨Nat.le_of_not_lt first, by omega⟩
      have notFirst : v ≠ n := by
        have := begins.widthAll_pos
        omega
      have notExit : v ∉ exitsAll [] branch n := fun member =>
        first (exitsAll_inBlock_of_ne_nil begins.ne_nil member).2
      rw [and_iff_right notFirst, and_iff_right notExit, ← into, ← out]
      refine ⟨exists_congr fun u => or_iff_right fun inner => ?_,
        exists_congr fun w => or_iff_right fun inner => ?_⟩
      · exact first (wiresAll_inBlock [] branch n own inner).2.2
      · obtain ⟨source, -⟩ := wiresAll_inBlock [] branch n own inner
        exact first (source.resolve_left List.not_mem_nil).2

end

end Item

end LayerNet
