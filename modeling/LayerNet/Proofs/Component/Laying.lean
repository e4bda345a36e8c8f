import LayerNet.Proofs.Component.Layout
import Mathlib.Data.List.Sort

/-!
# Laying — assembling a canonical architecture lays its items out

Where no name is bound, instantiating an item adds its tokens as components, in order, and its wires
as edges, and gives its entries and its exits (`run_segment`); so does a chain of items behind what
comes before it (`run_items`). No two modules are next to each other, so a link is between several
components and one, and then each is linked to each.

The exits that were remembered last are those of the module that ends the items, if a module does.
-/

namespace LayerNet

namespace Assembling

open Item

/-! ## What is laid -/

/-- The blueprints of the components, in order. -/
def blueprints (s : Assembly) : List (Option Blueprint) :=
  s.components.graph.vertices.toList.map fun component => some component.blueprint

theorem length_blueprints (s : Assembly) : (blueprints s).length = s.components.size := by
  rw [blueprints, List.length_map, Array.length_toList]
  rfl

/-- No name is bound, and edges join components. -/
structure Plain (s : Assembly) : Prop where
  unnamed : ∀ f ∈ s.frames, f = []
  inside : ∀ u v, s.components.graph.Adj u v → u < s.components.size ∧ v < s.components.size

/-- Components of the blueprints of tokens have been added, and edges. -/
structure Lays (tokens : List String) (edges : List Edge) (s s' : Assembly) : Prop where
  frames : s'.frames = s.frames
  blueprints : blueprints s' = blueprints s ++ tokens.map Blueprint.read?
  adj : ∀ u v, s'.components.graph.Adj u v ↔ s.components.graph.Adj u v ∨ (u, v) ∈ edges

namespace Lays

variable {tokens tokens' : List String} {edges edges' : List Edge} {s s₁ s' : Assembly}

theorem refl (s : Assembly) : Lays [] [] s s where
  frames := rfl
  blueprints := (List.append_nil _).symm
  adj _ _ := (or_iff_left List.not_mem_nil).symm

theorem trans (first : Lays tokens edges s s₁) (second : Lays tokens' edges' s₁ s') :
    Lays (tokens ++ tokens') (edges ++ edges') s s' where
  frames := second.frames.trans first.frames
  blueprints := by
    rw [second.blueprints, first.blueprints, List.map_append, List.append_assoc]
  adj u v := by rw [second.adj, first.adj, List.mem_append, or_assoc]

theorem congr (lays : Lays tokens edges s s') (same : ∀ e, e ∈ edges ↔ e ∈ edges') :
    Lays tokens edges' s s' where
  frames := lays.frames
  blueprints := lays.blueprints
  adj u v := by rw [lays.adj, same]

theorem size (lays : Lays tokens edges s s') :
    s'.components.size = s.components.size + tokens.length := by
  rw [← length_blueprints, lays.blueprints, List.length_append, length_blueprints,
    List.length_map]

theorem plain (lays : Lays tokens edges s s') (plain : Plain s)
    (inside : ∀ u v, (u, v) ∈ edges → u < s'.components.size ∧ v < s'.components.size) :
    Plain s' where
  unnamed f member := plain.unnamed f (lays.frames ▸ member)
  inside u v edge := by
    rcases (lays.adj u v).mp edge with old | new
    · have := plain.inside u v old
      have := lays.size
      omega
    · exact inside u v new

end Lays

/-! ## Leaves and links -/

theorem resolve?_of_unnamed {frames : List Frame} (unnamed : ∀ f ∈ frames, f = [])
    (name : String) : resolve? name frames = none := by
  induction frames with
  | nil => rfl
  | cons f rest ih =>
    obtain ⟨rfl, others⟩ := List.forall_mem_cons.mp unnamed
    rw [resolve?, Frame.find?, List.lookup_nil]
    dsimp only
    rw [ih others]
    rfl

/-- A leaf lays its token. -/
theorem run_leaf {token : String} {s s' : Assembly} {ends : Ends}
    (run : (leaf token none).run s = .ok (ends, s')) :
    Lays [token] [] s s' ∧ ends = ⟨[s.components.size], [s.components.size]⟩ := by
  unfold leaf at run
  split at run
  next => cases run
  next blueprint read =>
    obtain ⟨_, _, looked, run⟩ := Outcome.run_bind_eq_ok.mp run
    cases looked
    obtain ⟨_, s₁, added, run⟩ := Outcome.run_bind_eq_ok.mp run
    cases run
    obtain ⟨_, _, looked, added⟩ := Outcome.run_bind_eq_ok.mp added
    cases looked
    cases added
    refine ⟨⟨rfl, ?_, fun u v => (or_iff_left List.not_mem_nil).symm⟩, rfl⟩
    simp [blueprints, ComponentGraph.add, Digraph.addVertex, read]

/-- A link adds its edge. -/
theorem run_link {source target : Nat} {s s' : Assembly} {a : Unit}
    (run : (modifyGraph fun c => c.link source target).run s = .ok (a, s')) :
    Lays [] [(source, target)] s s' ∧ s'.components.exits = s.components.exits := by
  obtain ⟨_, _, looked, linked⟩ := Outcome.run_bind_eq_ok.mp run
  cases looked
  dsimp only at linked
  split at linked
  next components changed =>
    cases linked
    unfold ComponentGraph.link at changed
    split at changed
    next => cases changed
    next =>
      cases changed
      refine ⟨⟨rfl, (List.append_nil _).symm, fun u v => ?_⟩, rfl⟩
      rw [List.mem_singleton, Prod.mk.injEq, or_comm]
      exact Digraph.adj_addEdge _ _ _ _ _
  next => cases linked

theorem run_links {edges : List Edge} {s s' : Assembly} {a : Unit}
    (run : (edges.forM fun (source, target) =>
      modifyGraph fun c => c.link source target).run s = .ok (a, s')) :
    Lays [] edges s s' ∧ s'.components.exits = s.components.exits := by
  induction edges generalizing s with
  | nil =>
    cases run
    exact ⟨.refl _, rfl⟩
  | cons e edges ih =>
    obtain ⟨_, s₁, first, rest⟩ := Outcome.run_bind_eq_ok.mp run
    obtain ⟨lays, exits⟩ := run_link first
    obtain ⟨lays', exits'⟩ := ih rest
    exact ⟨lays.trans lays', exits'.trans exits⟩

/-- Between several components and one, each is linked to each. -/
theorem run_connect {a b : Ends} (narrow : a.sinks.length ≤ 1 ∨ b.sources.length ≤ 1)
    {s s' : Assembly} {u : Unit} (run : (connect a b).run s = .ok (u, s')) :
    Lays [] (a.sinks ×ˢ b.sources) s s' ∧ s'.components.exits = s.components.exits := by
  have links : linksBetween a b = a.sinks ×ˢ b.sources := by
    refine if_neg ?_
    rintro ⟨several, same⟩
    omega
  rw [← links]
  exact run_links run

/-! ## Modules -/

/-- The components of a module are those that were added since it was opened. -/
theorem mem_members_iff {c : ComponentGraph} {first : Nat} {chains : List Ends}
    (within : ∀ e ∈ chains, (∀ v ∈ e.sources, first ≤ v) ∧ ∀ v ∈ e.sinks, first ≤ v) {v : Nat} :
    v ∈ members c first chains ↔ first ≤ v ∧ v < c.size := by
  rw [members, List.mem_filter, List.mem_range, and_comm]
  refine and_congr_left fun _ => ?_
  rw [Bool.or_eq_true, decide_eq_true_eq, List.any_eq_true]
  refine or_iff_left_of_imp ?_
  rintro ⟨e, member, ends⟩
  obtain ⟨sources, sinks⟩ := within e member
  rcases (Bool.or_eq_true _ _).mp ends with source | sink
  · exact sources v (List.contains_iff_mem.mp source)
  · exact sinks v (List.contains_iff_mem.mp sink)

/-- The ends of a module are found to be the entries and the exits of its branches. -/
theorem moduleEnds_eq {branches : List (List Item)} (canonical : CanonicalBranches branches)
    {s s' : Assembly} (plain : Plain s)
    (lays : Lays (tokensBranches branches) (wiresBranches branches s.components.size) s s')
    {chains : List Ends} (within : ∀ e ∈ chains, (∀ v ∈ e.sources, s.components.size ≤ v)
      ∧ ∀ v ∈ e.sinks, s.components.size ≤ v) :
    moduleEnds s'.components (members s'.components s.components.size chains)
      = ⟨heads branches s.components.size, exitsBranches branches s.components.size⟩ := by
  obtain ⟨n, size⟩ : ∃ n, n = s.components.size := ⟨_, rfl⟩
  rw [← size] at lays within ⊢
  have member (v : Nat) : v ∈ members s'.components n chains ↔
      InBlock n (widthBranches branches) v := by
    rw [mem_members_iff within, lays.size, ← size]
    rfl
  -- edges that were there join components before the module
  have inner (u v : Nat) (block : n ≤ u ∨ n ≤ v) :
      s'.components.graph.Adj u v ↔ (u, v) ∈ wiresBranches branches n := by
    refine (lays.adj u v).trans (or_iff_right fun old => ?_)
    have := plain.inside u v old
    omega
  have sorted (p : Nat → Bool) :
      ((members s'.components n chains).filter p).Pairwise (· < ·) :=
    (List.pairwise_lt_range.filter _).filter p
  rw [moduleEnds, Ends.mk.injEq]
  constructor
  · refine (sorted _).eq_of_mem_iff (pairwise_heads canonical) fun v => ?_
    rw [List.mem_filter, member]
    refine (and_congr_right fun block => ?_).trans
      (and_iff_right_of_imp fun entry => heads_inBlock canonical entry)
    rw [← not_iff_not, ← (exists_wire_iff_branches branches n canonical block).1,
      Bool.not_eq_true', Bool.not_eq_false, List.any_eq_true]
    simp only [Digraph.mem_predecessors, List.contains_iff_mem, member]
    refine exists_congr fun u => ?_
    constructor
    · exact fun both => (inner u v (.inr block.1)).mp both.1
    · exact fun wire => ⟨(inner u v (.inr block.1)).mpr wire,
        (wiresBranches_inBlock branches n canonical wire).1⟩
  · refine (sorted _).eq_of_mem_iff (pairwise_exitsBranches branches n canonical) fun v => ?_
    rw [List.mem_filter, member]
    refine (and_congr_right fun block => ?_).trans
      (and_iff_right_of_imp fun exit => exitsBranches_inBlock branches n exit)
    rw [← not_iff_not, ← (exists_wire_iff_branches branches n canonical block).2,
      Bool.not_eq_true', Bool.not_eq_false, List.any_eq_true]
    simp only [Digraph.mem_successors, List.contains_iff_mem, member]
    refine exists_congr fun w => ?_
    constructor
    · exact fun both => (inner v w (.inl block.1)).mp both.1
    · exact fun wire => ⟨(inner v w (.inl block.1)).mpr wire,
        (wiresBranches_inBlock branches n canonical wire).2⟩

/-- Closing a module gives the ends that are found, and remembers the exits if there are several. -/
theorem run_closeModule {first : Nat} {chains : List Ends} {s s' : Assembly} {ends : Ends}
    (run : (closeModule first chains).run s = .ok (ends, s')) :
    ends = moduleEnds s.components (members s.components first chains) ∧ Lays [] [] s s'
      ∧ (1 < ends.sinks.length → s'.components.exits.head? = some ends.sinks) := by
  obtain ⟨_, _, looked, run⟩ := Outcome.run_bind_eq_ok.mp run
  cases looked
  dsimp only at run
  split at run
  next several =>
    obtain ⟨_, s₁, noted, run⟩ := Outcome.run_bind_eq_ok.mp run
    cases run
    obtain ⟨_, _, looked, noted⟩ := Outcome.run_bind_eq_ok.mp noted
    cases looked
    cases noted
    exact ⟨rfl, ⟨rfl, (List.append_nil _).symm, fun u v => (or_iff_left List.not_mem_nil).symm⟩,
      fun _ => rfl⟩
  next few =>
    cases run
    exact ⟨rfl, .refl s, fun several => absurd several few⟩

theorem definitions_branchChains (branches : List (List Item)) :
    definitions (branchChains branches) = [] := by
  induction branches with
  | nil => rfl
  | cons branch rest ih => exact ih

theorem chains_branchChains (branches : List (List Item)) :
    chains (branchChains branches) = branches.map segments := by
  induction branches with
  | nil => rfl
  | cons branch rest ih => exact congrArg (segments branch :: ·) ih

/-- Where no name is bound, the branches of a module are laid out and the module is closed. -/
theorem run_moduleWith {segment : Segment → Assembling Ends} {branches : List (List Item)}
    {s s' : Assembly} {ends : Ends} (plain : Plain s)
    (run : (moduleWith segment (branchChains branches)).run s = .ok (ends, s')) :
    ∃ chainEnds s₀ s₁ s₂, Plain s₀ ∧ s₀.components = s.components
      ∧ ((branches.map segments).mapM fun segments => chainWith segment segments none).run s₀
        = .ok (chainEnds, s₁)
      ∧ (∀ {tokens edges}, Lays tokens edges s₀ s₁ → Lays tokens edges s s₂)
      ∧ (closeModule s.components.size chainEnds).run s₂ = .ok (ends, s') := by
  obtain ⟨f, s₀, framed, opened⟩ := Outcome.run_bind_eq_ok.mp run
  obtain ⟨rfl, rfl⟩ : f = [] ∧ s₀ = s := by
    rw [frameOf, definitions_branchChains] at framed
    cases framed
    exact ⟨rfl, rfl⟩
  obtain ⟨_, _, looked, opened⟩ := Outcome.run_bind_eq_ok.mp opened
  cases looked
  dsimp only at opened
  split at opened
  next => cases opened
  next =>
    obtain ⟨chainEnds, s₂, inner, closed⟩ := Outcome.run_bind_eq_ok.mp opened
    obtain ⟨s₁, mapped, components, frames⟩ := run_inFrame inner
    rw [chains_branchChains] at mapped
    refine ⟨chainEnds, { s₀ with frames := [] :: s₀.frames }, s₁, s₂, ⟨?_, plain.inside⟩, rfl,
      mapped, fun lays => ⟨?_, ?_, ?_⟩, closed⟩
    · exact List.forall_mem_cons.mpr ⟨rfl, plain.unnamed⟩
    · rw [frames, lays.frames]
      rfl
    · rw [blueprints, components]
      exact lays.blueprints
    · rw [components]
      exact lays.adj

/-! ## Items -/

/-- Instantiates the next segment of a chain and links it to what stands before. -/
def linkNext (segment : Segment → Assembling Ends) (ends : Option Ends × Option Ends)
    (next : Segment) : Assembling (Option Ends × Option Ends) := do
  let (head, last) := ends
  let ends ← segment next
  match last with
  | some last => connect last ends
  | none => pure ()
  return (head.orElse fun _ => some ends, some ends)

/-- The components that edges leave. -/
def sinksOf (ends : Option Ends) : List Nat := (ends.map Ends.sinks).getD []

/-- A segment between several components and one is linked to what stands before it, each to
each. -/
theorem run_linkNext {segment : Segment → Assembling Ends} {next : Segment}
    {head last head' last' : Option Ends} {s s' : Assembly}
    (run : (linkNext segment (head, last) next).run s = .ok ((head', last'), s')) :
    ∃ ends s₁, (segment next).run s = .ok (ends, s₁)
      ∧ head' = head.orElse (fun _ => some ends) ∧ last' = some ends
      ∧ ((sinksOf last).length ≤ 1 ∨ ends.sources.length ≤ 1 →
        Lays [] (sinksOf last ×ˢ ends.sources) s₁ s'
          ∧ s'.components.exits = s₁.components.exits) := by
  obtain ⟨ends, s₁, made, linked⟩ := Outcome.run_bind_eq_ok.mp run
  cases last with
  | none =>
    cases linked
    exact ⟨ends, _, made, rfl, rfl, fun _ => ⟨.refl _, rfl⟩⟩
  | some last =>
    obtain ⟨_, s₂, connected, done⟩ := Outcome.run_bind_eq_ok.mp linked
    cases done
    exact ⟨ends, s₁, made, rfl, rfl, fun narrow => run_connect narrow connected⟩

/-- The ends of a chain are the first entries and the last exits. -/
theorem run_chainWith {segment : Segment → Assembling Ends} {segments : List Segment}
    {previous : Option Ends} {s s' : Assembly} {ends : Ends}
    (run : (chainWith segment segments previous).run s = .ok (ends, s')) :
    ∃ head last, (segments.foldlM (linkNext segment) (none, previous)).run s
        = .ok ((some head, some last), s') ∧ ends = ⟨head.sources, last.sinks⟩ := by
  obtain ⟨⟨head, last⟩, s₁, folded, run⟩ := Outcome.run_bind_eq_ok.mp run
  cases head with
  | none => cases run
  | some head =>
    cases last with
    | none => cases run
    | some last =>
      cases run
      exact ⟨head, last, folded, rfl⟩

/-- The exits that were remembered last, where there are several to remember. -/
def Remembers (exits : List Nat) (s : Assembly) : Prop :=
  1 < exits.length → s.components.exits.head? = some exits

theorem inside_of_wiresAll {before : List Nat} {items : List Item}
    (canonical : CanonicalItems items) {n : Nat} (old : ∀ v ∈ before, v < n) {u v : Nat}
    (wire : (u, v) ∈ wiresAll before items n) :
    u < n + widthAll items ∧ v < n + widthAll items := by
  obtain ⟨source, target⟩ := wiresAll_inBlock before items n canonical wire
  refine ⟨?_, target.2⟩
  rcases source with source | source
  · exact Nat.lt_of_lt_of_le (old u source) (Nat.le_add_right _ _)
  · exact source.2

theorem length_entries_le {item : Item} {rest : List Item} {n : Nat}
    (begins : BeginsWithToken (item :: rest)) : (item.entries n).length ≤ 1 := by
  cases item with
  | token text => exact Nat.le_refl 1
  | module branches => exact absurd trivial begins

/-- Several components are left by a module only, and no other follows it. -/
theorem narrow_exits {item : Item} {rest : List Item} {n : Nat}
    (apart : item.IsModule → rest = [] ∨ BeginsWithToken rest) :
    (item.exits n).length ≤ 1 ∨ rest = [] ∨ BeginsWithToken rest := by
  cases item with
  | token text => exact .inl (Nat.le_refl 1)
  | module branches => exact .inr (apart trivial)

/-- Items are laid when the first is laid and linked, and the others are laid behind it. -/
theorem Lays.cons {before : List Nat} {item : Item} {rest : List Item} {edges : List Edge}
    {s s₁ s' : Assembly}
    (first : Lays item.tokens edges s s₁)
    (linked : ∀ e, e ∈ edges ↔ e ∈ item.wires s.components.size
      ∨ e ∈ before ×ˢ item.entries s.components.size)
    (others : Lays (tokensAll rest)
      (wiresAll (item.exits s.components.size) rest s₁.components.size) s₁ s') :
    Lays (tokensAll (item :: rest)) (wiresAll before (item :: rest) s.components.size) s s' := by
  have size : s₁.components.size = s.components.size + item.width := first.size
  refine (first.trans others).congr fun e => ?_
  rw [size, wiresAll, List.mem_append, List.mem_append, List.mem_append, linked, or_assoc,
    or_left_comm]

mutual

/-- An item is laid: its tokens and its wires are added, and its ends are given. -/
theorem run_segment : ∀ (item : Item), item.Canonical → ∀ {depth : Nat} {s s' : Assembly}
    {ends : Ends}, Plain s → (segment depth item.segment).run s = .ok (ends, s') →
      Lays item.tokens (item.wires s.components.size) s s'
        ∧ ends = ⟨item.entries s.components.size, item.exits s.components.size⟩
        ∧ Remembers ends.sinks s'
  | _, _, 0, _, _, _, _, run => by cases run
  | .token text, _, depth + 1, s, s', ends, plain, run => by
    obtain ⟨_, _, looked, run⟩ := Outcome.run_bind_eq_ok.mp run
    cases looked
    rw [resolve?_of_unnamed plain.unnamed] at run
    obtain ⟨lays, rfl⟩ := run_leaf run
    exact ⟨lays, rfl, fun several => absurd several (Nat.lt_irrefl 1)⟩
  | .module branches, canonical, depth + 1, s, s', ends, plain, run => by
    obtain ⟨chainEnds, s₀, s₁, s₂, plain₀, same, mapped, outside, closed⟩ :=
      run_moduleWith plain run
    obtain ⟨lays, within⟩ := run_branches branches canonical.2 plain₀ mapped
    rw [same] at lays within
    obtain ⟨rfl, kept, remembers⟩ := run_closeModule closed
    have all := (outside lays).trans kept
    rw [List.append_nil, List.append_nil] at all
    exact ⟨all, moduleEnds_eq canonical.2 plain (outside lays) within, remembers⟩

/-- Items are laid behind what stands before them. -/
theorem run_items : ∀ (items : List Item), CanonicalItems items → ∀ {depth : Nat}
    {head last head' last' : Option Ends} {s s' : Assembly}, Plain s →
    (∀ v ∈ sinksOf last, v < s.components.size) →
    (sinksOf last).length ≤ 1 ∨ items = [] ∨ BeginsWithToken items →
    ((segments items).foldlM (linkNext (segment depth)) (head, last)).run s
      = .ok ((head', last'), s') →
    Lays (tokensAll items) (wiresAll (sinksOf last) items s.components.size) s s'
      ∧ sinksOf last' = exitsAll (sinksOf last) items s.components.size
      ∧ (∀ ends, head = some ends → head' = some ends)
      ∧ (head = none → items ≠ [] → ∀ ends, head' = some ends →
        ends.sources = entriesAll items s.components.size [])
      ∧ (items ≠ [] → Remembers (sinksOf last') s')
  | [], _, depth, head, last, head', last', s, s', plain, _, _, run => by
    cases run
    exact ⟨.refl s, rfl, fun _ same => same, fun _ some => absurd rfl some,
      fun some => absurd rfl some⟩
  | item :: rest, ⟨own, apart, others⟩, depth, head, last, head', last', s, s', plain, old,
      narrow, run => by
    have run : (linkNext (segment depth) (head, last) item.segment >>=
        (segments rest).foldlM (linkNext (segment depth))).run s = .ok ((head', last'), s') := run
    obtain ⟨⟨head₁, last₁⟩, s₂, first, later⟩ := Outcome.run_bind_eq_ok.mp run
    obtain ⟨ends, s₁, made, rfl, rfl, linked⟩ := run_linkNext first
    obtain ⟨lays, rfl, remembers⟩ := run_segment item own plain made
    have single : (sinksOf last).length ≤ 1 ∨ (item.entries s.components.size).length ≤ 1 :=
      narrow.imp_right fun begins => length_entries_le (begins.resolve_left (List.cons_ne_nil _ _))
    obtain ⟨lays₂, exits⟩ := linked single
    have linkedItem := lays.trans lays₂
    rw [List.append_nil] at linkedItem
    have size : s₂.components.size = s.components.size + item.width := linkedItem.size
    have plain₂ : Plain s₂ := by
      refine linkedItem.plain plain fun u v wire => ?_
      rw [size]
      rcases List.mem_append.mp wire with inner | entering
      · have inside := wires_inBlock item _ own inner
        exact ⟨inside.1.2, inside.2.2⟩
      · obtain ⟨source, target⟩ := List.mem_product.mp entering
        have := old u source
        have := (entries_inBlock own target).2
        omega
    have below : ∀ v ∈ sinksOf (some ⟨item.entries s.components.size,
        item.exits s.components.size⟩), v < s₂.components.size := fun v member =>
      size ▸ (exits_inBlock item _ member).2
    obtain ⟨lays', exits', keeps, -, remembers'⟩ := run_items rest others plain₂ below
      (narrow_exits apart) later
    refine ⟨?_, ?_, ?_, ?_, fun _ => ?_⟩
    · exact linkedItem.cons (fun e => List.mem_append) lays'
    · rw [exits', size]
      rfl
    · rintro ends rfl
      exact keeps ends rfl
    · rintro rfl - ends there
      obtain rfl := Option.some.inj ((keeps _ rfl).symm.trans there)
      rfl
    · by_cases empty : rest = []
      · subst empty
        cases later
        intro several
        rw [exits]
        exact remembers several
      · exact remembers' empty

/-- Branches are laid one after the other. -/
theorem run_branches : ∀ (branches : List (List Item)), CanonicalBranches branches →
    ∀ {depth : Nat} {s s' : Assembly} {ends : List Ends}, Plain s →
    ((branches.map segments).mapM fun segments =>
      chainWith (segment depth) segments none).run s = .ok (ends, s') →
    Lays (tokensBranches branches) (wiresBranches branches s.components.size) s s'
      ∧ ∀ e ∈ ends, (∀ v ∈ e.sources, s.components.size ≤ v)
        ∧ ∀ v ∈ e.sinks, s.components.size ≤ v
  | [], _, depth, s, s', ends, plain, run => by
    rw [List.map_nil, List.mapM_nil] at run
    cases run
    exact ⟨.refl s, fun e member => nomatch member⟩
  | branch :: rest, ⟨begins, own, others⟩, depth, s, s', ends, plain, run => by
    rw [List.map_cons, List.mapM_cons] at run
    obtain ⟨e, s₁, chained, rest'⟩ := Outcome.run_bind_eq_ok.mp run
    obtain ⟨es, s₂, mapped, done⟩ := Outcome.run_bind_eq_ok.mp rest'
    cases done
    obtain ⟨head, last, folded, rfl⟩ := run_chainWith chained
    have nothing : ∀ v ∈ sinksOf none, v < s.components.size := fun v member =>
      absurd member List.not_mem_nil
    obtain ⟨lays, exits, -, entries, -⟩ :=
      run_items branch own plain nothing (.inl (Nat.zero_le 1)) folded
    have size : s₁.components.size = s.components.size + widthAll branch := lays.size
    have plain₁ : Plain s₁ := lays.plain plain fun u v wire => by
      rw [size]
      exact inside_of_wiresAll own (fun v member => absurd member List.not_mem_nil) wire
    obtain ⟨lays', within⟩ := run_branches rest others plain₁ mapped
    refine ⟨?_, List.forall_mem_cons.mpr ⟨⟨?_, ?_⟩, fun e member => ?_⟩⟩
    · rw [size] at lays'
      exact lays.trans lays'
    · intro v member
      obtain ⟨text, tail, rfl⟩ := begins.exists_token
      rw [entries rfl begins.ne_nil head rfl] at member
      exact Nat.le_of_eq (List.mem_singleton.mp member).symm
    · intro v member
      have there : v ∈ sinksOf (some last) := member
      rw [exits] at there
      exact (exitsAll_inBlock_of_ne_nil begins.ne_nil there).1
    · obtain ⟨sources, sinks⟩ := within e member
      have le : s.components.size ≤ s₁.components.size := size ▸ Nat.le_add_right _ _
      exact ⟨fun v source => Nat.le_trans le (sources v source),
        fun v sink => Nat.le_trans le (sinks v sink)⟩

end

/-! ## Architectures -/

/-- Instantiates the next statement of the top level. -/
def nextTop (depth : Nat) (tail : Option Ends) (segments : List Segment) :
    Assembling (Option Ends) := do
  let previous := if ← beginsBound segments then none else tail
  return some (← chainWith (segment depth) segments previous)

/-- Where no name is bound, a chain of the top level continues the one before. -/
theorem run_nextTop {depth : Nat} {tail tail' : Option Ends} {segments : List Segment}
    {s s' : Assembly} (plain : Plain s)
    (run : (nextTop depth tail segments).run s = .ok (tail', s')) :
    ∃ ends, tail' = some ends
      ∧ (chainWith (segment depth) segments tail).run s = .ok (ends, s') := by
  obtain ⟨bound, s₁, asked, chained⟩ := Outcome.run_bind_eq_ok.mp run
  obtain ⟨rfl, rfl⟩ : bound = false ∧ s₁ = s := by
    unfold beginsBound at asked
    split at asked
    next text rest =>
      obtain ⟨_, _, looked, answer⟩ := Outcome.run_bind_eq_ok.mp asked
      cases looked
      rw [resolve?_of_unnamed plain.unnamed] at answer
      cases answer
      exact ⟨rfl, rfl⟩
    next =>
      cases asked
      exact ⟨rfl, rfl⟩
  obtain ⟨ends, s₂, chained, done⟩ := Outcome.run_bind_eq_ok.mp chained
  cases done
  exact ⟨ends, rfl, chained⟩

/-- The statements of the top level are laid like the items of one chain. -/
theorem run_tops {items : List Item} (canonical : CanonicalItems items) {depth : Nat}
    {tail tail' : Option Ends} {s s' : Assembly} (plain : Plain s)
    (old : ∀ v ∈ sinksOf tail, v < s.components.size)
    (narrow : (sinksOf tail).length ≤ 1 ∨ items = [] ∨ BeginsWithToken items)
    (run : (((segments items).map fun s => [s]).foldlM (nextTop depth) tail).run s
      = .ok (tail', s')) :
    Lays (tokensAll items) (wiresAll (sinksOf tail) items s.components.size) s s'
      ∧ (items ≠ [] → Remembers (exitsAll (sinksOf tail) items s.components.size) s') := by
  induction items generalizing tail s with
  | nil =>
    cases run
    exact ⟨.refl _, fun some => absurd rfl some⟩
  | cons item rest ih =>
    obtain ⟨own, apart, others⟩ := canonical
    have run : (nextTop depth tail [item.segment] >>= ((segments rest).map fun s => [s]).foldlM
        (nextTop depth)).run s = .ok (tail', s') := run
    obtain ⟨tail₁, s₁, first, later⟩ := Outcome.run_bind_eq_ok.mp run
    obtain ⟨ends, rfl, chained⟩ := run_nextTop plain first
    obtain ⟨head, last, folded, rfl⟩ := run_chainWith chained
    have alone : CanonicalItems [item] := ⟨own, fun _ => .inl rfl, trivial⟩
    obtain ⟨lays, exits, -, -, remembers⟩ := run_items [item] alone plain old
      (narrow.imp_right fun begins => .inr (begins.resolve_left (by simp))) folded
    have exits : last.sinks = item.exits s.components.size := exits
    have size : s₁.components.size = s.components.size + item.width := by
      rw [lays.size]
      simp [tokensAll, width]
    have plain₁ : Plain s₁ := lays.plain plain fun u v wire => by
      have inside := inside_of_wiresAll alone old wire
      rw [widthAll_cons, widthAll_nil, Nat.add_zero, ← size] at inside
      exact inside
    have below : ∀ v ∈ sinksOf (some ⟨head.sources, last.sinks⟩), v < s₁.components.size :=
      fun v member => size ▸ (exits_inBlock item _ (exits ▸ member)).2
    have narrow' : (sinksOf (some ⟨head.sources, last.sinks⟩)).length ≤ 1
        ∨ rest = [] ∨ BeginsWithToken rest := by
      have single := narrow_exits (n := s.components.size) apart
      rwa [← exits] at single
    obtain ⟨lays', remembers'⟩ := ih others plain₁ below narrow' later
    have behind : sinksOf (some ⟨head.sources, last.sinks⟩) = item.exits s.components.size := exits
    rw [behind] at lays' remembers'
    rw [show tokensAll [item] = item.tokens from List.append_nil _] at lays
    refine ⟨lays.cons (fun e => ?_) lays', fun _ => ?_⟩
    · rw [wiresAll, wiresAll, List.append_nil, List.mem_append, or_comm]
    · by_cases empty : rest = []
      · subst empty
        cases later
        have remembers := remembers (List.cons_ne_nil _ _)
        rw [show sinksOf (some last) = item.exits s.components.size from exits] at remembers
        exact remembers
      · have remembers' := remembers' empty
        rw [size] at remembers'
        exact remembers'

theorem definitions_statements (items : List Item) : definitions (statements items) = [] := by
  unfold statements
  induction segments items with
  | nil => rfl
  | cons segment rest ih => exact ih

theorem chains_statements (items : List Item) :
    chains (statements items) = (segments items).map fun s => [s] := by
  unfold statements
  induction segments items with
  | nil => rfl
  | cons segment rest ih => exact congrArg ([segment] :: ·) ih

end Assembling

open Item Assembling in
/-- An assembled canonical architecture has its tokens as components and its wires as edges, and
remembers the exits of the module that ends it, if one does. -/
theorem ComponentGraph.lays_of_assemble {items : List Item} (canonical : CanonicalItems items)
    {assembled : Assembled} (success : assemble (statements items) = .ok assembled) :
    assembled.components.graph.vertices.toList.map (fun component => some component.blueprint)
        = (tokensAll items).map Blueprint.read?
      ∧ (∀ u v, assembled.components.graph.Adj u v ↔ (u, v) ∈ wiresAll [] items 0)
      ∧ (items ≠ [] → 1 < (exitsAll [] items 0).length →
        assembled.components.exits.head? = some (exitsAll [] items 0)) := by
  unfold assemble at success
  obtain ⟨⟨⟨⟩, s⟩, run, finished⟩ := Outcome.bind_eq_ok_iff.mp success
  obtain ⟨f, s₀, framed, opened⟩ := Outcome.run_bind_eq_ok.mp run
  obtain ⟨rfl, rfl⟩ : f = [] ∧ s₀ = ⟨.empty, [], []⟩ := by
    rw [frameOf, definitions_statements] at framed
    cases framed
    exact ⟨rfl, rfl⟩
  obtain ⟨s₁, inner, components, -⟩ := run_inFrame opened
  obtain ⟨tail, s₂, laid, done⟩ := Outcome.run_bind_eq_ok.mp inner
  cases done
  rw [chains_statements] at laid
  have plain : Plain ⟨.empty, [[]], []⟩ :=
    ⟨fun f member => List.mem_singleton.mp member, fun u v edge => absurd edge List.not_mem_nil⟩
  have nothing : ∀ v ∈ sinksOf none, v < ComponentGraph.empty.size := fun v member =>
    absurd member List.not_mem_nil
  obtain ⟨lays, remembers⟩ := run_tops canonical plain nothing (.inl (Nat.zero_le 1)) laid
  dsimp only at finished
  split at finished
  next => cases finished
  next =>
    cases finished
    dsimp only
    rw [components]
    refine ⟨lays.blueprints, fun u v => ?_, fun some => ?_⟩
    · exact (lays.adj u v).trans (or_iff_right List.not_mem_nil)
    · exact remembers some

end LayerNet
