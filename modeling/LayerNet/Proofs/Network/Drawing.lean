import LayerNet.Network.Render
import LayerNet.Proofs.Component.Layout
import LayerNet.Proofs.Outcome

/-!
# Drawing — a network that has the shape of items is written as the items

What a network must look like for the rendering to find the items again is said item by item
(`Item.Drawn`): a token is a node, and a module is a split, its branches, and a concatenation that
all of them run into. If the edges of the module are all that enter the concatenation, then the
module is closed, and what is next stands behind it. If other edges enter it too, then the module is
left open, and ends the items.

The path from the first node goes down the items (`Item.pathFrom_items`). It takes a step for
a token and for a module, so the number of components bounds its steps.
-/

namespace LayerNet

namespace Network

variable (n : Network) (store : Store)

/-- The node is a split. -/
def Splits (v : Nat) : Prop := ∃ node, n.node? v = some node ∧ node.layer.kind = .split

/-- The node is a concatenation of several edges. -/
def Joins (v : Nat) : Prop :=
  (∃ node, n.node? v = some node ∧ node.layer.kind = .concat) ∧ 1 < n.graph.inDegree v

/-- The node is a layer with the token, and neither a split nor a concatenation. -/
def Writes (v : Nat) (text : String) : Prop :=
  ∃ node, n.node? v = some node ∧ node.layer.kind ≠ .split ∧ node.layer.kind ≠ .concat
    ∧ node.layer.token store = .ok text

end Network

namespace Item

section

variable (n : Network) (store : Store)

mutual

/-- An item whose first component has the given number is drawn from a node to a node. -/
def Drawn : Item → Nat → Nat → Nat → Prop
  | .token text, first, entry, last => entry = first ∧ last = first ∧ n.Writes store first text
  | .module branches, first, entry, last =>
    n.Splits entry ∧ n.graph.successorsInOrder entry = heads branches first ∧ n.Joins last
      ∧ DrawnBranches branches first last

/-- Items are drawn from a node, if there is one, to the concatenation that they run into, with the
number of edges by which they do. -/
def DrawnAll : List Item → Nat → Option Nat → Option (Nat × Nat) → Prop
  | [], _, entry, exit => exit = entry.map (·, 1) ∧ ∀ v ∈ entry, n.Joins v
  | item :: rest, first, entry, exit => ∃ v last, entry = some v ∧ item.Drawn first v last
    ∧ (((item.IsModule → n.graph.inDegree last = (item.exits first).length)
        ∧ ∃ next, n.graph.successorsInOrder last = next.toList
          ∧ DrawnAll rest (first + item.width) next exit)
      ∨ (item.IsModule ∧ rest = [] ∧ (item.exits first).length < n.graph.inDegree last
        ∧ exit = some (last, (item.exits first).length)))

/-- Branches are drawn from their heads to a concatenation. -/
def DrawnBranches : List (List Item) → Nat → Nat → Prop
  | [], _, _ => True
  | branch :: rest, first, concat =>
    DrawnAll branch first (some first) (some (concat, (exitsAll [] branch first).length))
      ∧ DrawnBranches rest (first + widthAll branch) concat

end

end

end Item

/-! ## One step of a path -/

namespace Network

variable {n : Network} {store : Store} {steps v : Nat}

/-- A path goes on from the next node, if there is one. -/
def Continues (n : Network) (store : Store) (steps : Nat) : Option Nat → Path → Prop
  | none, p => p = ⟨[], none⟩
  | some v, p => n.pathFrom store steps v = .ok p

theorem pathFrom_of_joins (joins : n.Joins v) :
    n.pathFrom store (steps + 1) v = .ok ⟨[], some (v, 1)⟩ := by
  obtain ⟨⟨node, there, kind⟩, several⟩ := joins
  rw [pathFrom, there]
  exact if_pos ⟨kind, several⟩

theorem pathFrom_of_writes {text : String} {next : Option Nat} {p : Path}
    (writes : n.Writes store v text) (onward : n.graph.successorsInOrder v = next.toList)
    (continues : n.Continues store steps next p) :
    n.pathFrom store (steps + 1) v = .ok (p.after [text]) := by
  obtain ⟨node, there, notSplit, notConcat, token⟩ := writes
  rw [pathFrom, there]
  refine (if_neg fun both => notConcat both.1).trans ?_
  rw [if_neg notSplit, token, onward]
  cases next with
  | none =>
    cases continues
    rfl
  | some next =>
    have continues : n.pathFrom store steps next = .ok p := continues
    show (do return (← n.pathFrom store steps next).after [text]) = _
    rw [continues]
    rfl

/-- A module is closed when its branches are all that its concatenation joins. Then what is next
stands behind it. Else it is left open. -/
theorem pathFrom_of_splits {branches : List Path} {concat arrivals : Nat} {p : Path}
    (splits : n.Splits v) (several : 1 < (n.graph.successorsInOrder v).length)
    (drawn : (n.graph.successorsInOrder v).mapM (n.pathFrom store steps) = .ok branches)
    (meets : Path.meeting? branches = some (concat, arrivals))
    (finish : (n.graph.inDegree concat = arrivals ∧ ∃ next q,
        n.graph.successorsInOrder concat = next.toList ∧ n.Continues store steps next q
          ∧ p = q.after [Path.module branches])
      ∨ (arrivals < n.graph.inDegree concat
        ∧ p = ⟨[Path.module branches], some (concat, arrivals)⟩)) :
    n.pathFrom store (steps + 1) v = .ok p := by
  obtain ⟨node, there, kind⟩ := splits
  obtain ⟨x, y, rest, successors⟩ : ∃ x y rest, n.graph.successorsInOrder v = x :: y :: rest := by
    match n.graph.successorsInOrder v, several with
    | x :: y :: rest, _ => exact ⟨x, y, rest, rfl⟩
  rw [pathFrom, there]
  have notConcat : node.layer.kind ≠ .concat := by
    rw [kind]
    decide
  refine (if_neg fun both => notConcat both.1).trans ?_
  rw [successors] at drawn
  rw [if_pos kind, successors]
  refine Outcome.bind_eq_ok_iff.mpr ⟨[], rfl, Outcome.bind_eq_ok_iff.mpr ⟨branches, drawn, ?_⟩⟩
  rw [meets]
  rcases finish with ⟨all, next, q, onward, continues, rfl⟩ | ⟨others, rfl⟩
  · refine (if_neg (not_not.mpr all.symm)).trans ?_
    rw [onward]
    cases next with
    | none =>
      cases continues
      rfl
    | some next => exact Outcome.bind_eq_ok_iff.mpr ⟨q, continues, rfl⟩
  · exact if_pos (Nat.ne_of_lt others)

end Network

/-! ## Paths of items -/

namespace Item

variable {n : Network} {store : Store}

/-- Paths that all run into a concatenation meet there, with all their edges. -/
theorem meeting?_cons {branch : Path} {rest : List Path} {concat arrivals : Nat}
    (first : branch.merge = some (concat, arrivals)) {others : Nat}
    (meets : rest = [] ∧ others = 0 ∨ Path.meeting? rest = some (concat, others)) :
    Path.meeting? (branch :: rest) = some (concat, arrivals + others) := by
  cases rest with
  | nil =>
    rcases meets with ⟨-, rfl⟩ | absurd
    · exact first
    · cases absurd
  | cons next rest =>
    have meets := meets.resolve_left fun ⟨absurd, _⟩ => nomatch absurd
    rw [Path.meeting?, first, meets]
    · exact if_pos rfl
    · exact fun absurd => nomatch absurd

theorem length_heads (branches : List (List Item)) (first : Nat) :
    (heads branches first).length = branches.length := by
  induction branches generalizing first with
  | nil => rfl
  | cons branch rest ih => exact congrArg (· + 1) (ih _)

theorem widthBranches_pos {branches : List (List Item)} (some : 0 < branches.length)
    (canonical : CanonicalBranches branches) : 0 < widthBranches branches := by
  cases branches with
  | nil => cases some
  | cons branch rest =>
    have wide := canonical.1.widthAll_pos
    rw [widthBranches_cons]
    omega

theorem width_pos {item : Item} (canonical : item.Canonical) : 0 < item.width := by
  cases item with
  | token text => exact Nat.one_pos
  | module branches =>
    exact widthBranches_pos (Nat.lt_of_lt_of_le Nat.two_pos canonical.1) canonical.2

/-- A branch of a module has fewer components than the module. -/
theorem widthAll_lt_of_mem {branches : List (List Item)} (several : 2 ≤ branches.length)
    (canonical : CanonicalBranches branches) {branch : List Item} (member : branch ∈ branches) :
    widthAll branch < widthBranches branches := by
  induction branches with
  | nil => cases member
  | cons first rest ih =>
    obtain ⟨begins, -, others⟩ := canonical
    have wide := begins.widthAll_pos
    rw [List.length_cons] at several
    rw [widthBranches_cons]
    rcases List.mem_cons.mp member with rfl | member
    · have := widthBranches_pos (by omega) others
      omega
    · by_cases more : 2 ≤ rest.length
      · have := ih more others member
        omega
      · obtain ⟨last, rfl⟩ := List.length_eq_one_iff.mp (by omega : rest.length = 1)
        obtain rfl := List.mem_singleton.mp member
        rw [widthBranches_cons, widthBranches_nil]
        omega

mutual

/-- The path from where an item is drawn has its text, and what comes behind it if it is closed. -/
theorem pathFrom_item : ∀ (item : Item), item.Canonical →
    ∀ {first entry last steps : Nat} {p : Path},
    item.Drawn n store first entry last → item.width ≤ steps →
    (((item.IsModule → n.graph.inDegree last = (item.exits first).length) ∧ ∃ next q,
        n.graph.successorsInOrder last = next.toList ∧ n.Continues store steps next q
          ∧ p = q.after [item.text])
      ∨ (item.IsModule ∧ (item.exits first).length < n.graph.inDegree last
        ∧ p = ⟨[item.text], some (last, (item.exits first).length)⟩)) →
    n.pathFrom store (steps + 1) entry = .ok p
  | .token text, _, first, entry, last, steps, p, drawn, _, finish => by
    obtain ⟨rfl, rfl, writes⟩ := drawn
    rcases finish with ⟨-, next, q, onward, continues, rfl⟩ | ⟨absurd, -⟩
    · exact Network.pathFrom_of_writes writes onward continues
    · cases absurd
  | .module branches, ⟨several, canonical⟩, first, entry, last, steps, p, drawn, enough,
      finish => by
    obtain ⟨splits, successors, joins, drawn⟩ := drawn
    have room : ∀ branch ∈ branches, widthAll branch < steps := fun branch member =>
      Nat.lt_of_lt_of_le (widthAll_lt_of_mem several canonical member) enough
    obtain ⟨paths, mapped, texts, meets⟩ := pathFrom_branches branches canonical drawn room
    have some : branches ≠ [] := List.ne_nil_of_length_pos (Nat.lt_of_lt_of_le Nat.two_pos several)
    have written : Path.module paths = (Item.module branches).text := by
      rw [Path.module, texts]
      rfl
    rw [← successors] at mapped
    refine Network.pathFrom_of_splits splits ?_ mapped (meets.resolve_left some) ?_
    · rw [successors, length_heads]
      exact several
    · rw [written]
      refine finish.imp (fun ⟨closed, onward⟩ => ⟨closed trivial, onward⟩) And.right

/-- The path from where items are drawn has their texts. -/
theorem pathFrom_items : ∀ (items : List Item), CanonicalItems items →
    ∀ {first entry steps : Nat} {exit : Option (Nat × Nat)},
    DrawnAll n store items first (some entry) exit → widthAll items < steps →
    n.pathFrom store steps entry = .ok ⟨texts items, exit⟩
  | [], _, first, entry, 0, exit, drawn, enough => absurd enough (Nat.not_lt_zero _)
  | [], _, first, entry, steps + 1, exit, ⟨ran, joins⟩, enough => by
    rw [ran]
    exact Network.pathFrom_of_joins (joins entry rfl)
  | item :: rest, _, first, entry, 0, exit, drawn, enough => absurd enough (Nat.not_lt_zero _)
  | item :: rest, ⟨own, _, others⟩, first, entry, steps + 1, exit, ⟨v, last, same, drawn, leaves⟩,
      enough => by
    cases same
    rw [widthAll_cons] at enough
    have wide := width_pos own
    refine pathFrom_item item own drawn (by omega) ?_
    rcases leaves with ⟨closed, next, onward, tail⟩ | ⟨isModule, rfl, fewer, rfl⟩
    · refine .inl ⟨closed, next, ⟨texts rest, exit⟩, onward, ?_, rfl⟩
      cases next with
      | none =>
        cases rest with
        | nil =>
          obtain ⟨rfl, -⟩ := tail
          rfl
        | cons next rest =>
          obtain ⟨v, last, absurd, -⟩ := tail
          cases absurd
      | some next => exact pathFrom_items rest others tail (by omega)
    · exact .inr ⟨isModule, fewer, rfl⟩

theorem pathFrom_branches : ∀ (branches : List (List Item)), CanonicalBranches branches →
    ∀ {first concat steps : Nat}, DrawnBranches n store branches first concat →
    (∀ branch ∈ branches, widthAll branch < steps) →
    ∃ paths, (heads branches first).mapM (n.pathFrom store steps) = .ok paths
      ∧ paths.map (fun p => "~".intercalate p.tokens) = branchTexts branches
      ∧ (branches = [] ∨ Path.meeting? paths = some (concat, (exitsBranches branches first).length))
  | [], _, first, concat, steps, drawn, enough => ⟨[], rfl, rfl, .inl rfl⟩
  | branch :: rest, ⟨begins, own, others⟩, first, concat, steps, ⟨head, tail⟩, enough => by
    obtain ⟨room, enough⟩ := List.forall_mem_cons.mp enough
    have path := pathFrom_items branch own head room
    obtain ⟨paths, mapped, written, meets⟩ := pathFrom_branches rest others tail enough
    refine ⟨⟨texts branch, some (concat, (exitsAll [] branch first).length)⟩ :: paths, ?_, ?_, ?_⟩
    · rw [heads, List.mapM_cons]
      exact Outcome.bind_eq_ok_iff.mpr ⟨_, path, Outcome.bind_eq_ok_iff.mpr ⟨paths, mapped, rfl⟩⟩
    · rw [List.map_cons, written]
      rfl
    · rw [exitsBranches, List.length_append]
      refine .inr (meeting?_cons rfl (meets.imp_left ?_))
      rintro rfl
      cases mapped
      exact ⟨rfl, rfl⟩

end

end Item

end LayerNet
