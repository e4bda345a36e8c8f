import LayerNet.Proofs.Digraph.Degree
import LayerNet.Proofs.Digraph.Neighbours

/-!
# Origins — where an edge came from before vertices were inserted into it

A graph starts with the vertices before a number `k`, and vertices are inserted into its edges. Some
of the inserted vertices only hand on what enters them: they *relay*. Walking back from a vertex
through relays ends at a vertex that was there from the start, its origin (`Origin`).

An insertion behind a vertex leaves all origins as they were, when the new vertex relays or nothing
followed the vertex (`origin_insertAfter`). So does the insertion of a vertex that does not relay in
front of one where edges merge, as long as edges merge at no relay (`origin_insertBefore`). Both keep
that, and keep that whatever enters a vertex where edges merge has an origin (`Traceable`).
-/

namespace LayerNet

namespace Digraph

variable {α : Type}

/-- The vertex carries a label that hands on. -/
def Relays (g : Digraph α) (relay : α → Bool) (v : Nat) : Prop := (g.label? v).any relay = true

/-- The vertex before `k` that walking back through relays from a vertex ends at. -/
inductive Origin (g : Digraph α) (relay : α → Bool) (k : Nat) : Nat → Nat → Prop where
  | here {v : Nat} (old : v < k) : Origin g relay k v v
  | through {u v o : Nat} (late : k ≤ v) (relays : g.Relays relay v) (edge : g.Adj u v)
      (rest : Origin g relay k u o) : Origin g relay k v o

/-- Edges do not merge at relays, and whatever enters a vertex where edges merge has an origin. -/
structure Traceable (g : Digraph α) (relay : α → Bool) (k : Nat) : Prop where
  narrow : ∀ v, k ≤ v → g.Relays relay v → ∀ x y, g.Adj x v → g.Adj y v → x = y
  feeds : ∀ u v, g.Adj u v → (∃ o, g.Origin relay k u o) ∨ ∀ x, g.Adj x v → x = u

/-- The relays before `n` were inserted in the order of their origins. -/
def InOrderUpTo (g : Digraph α) (relay : α → Bool) (k n : Nat) : Prop :=
  ∀ u v o p, k ≤ u → u < v → v < n → g.Origin relay k u o → g.Origin relay k v p → o < p

namespace Origin

variable {β : Type} {g : Digraph α} {h : Digraph β} {relay : α → Bool} {relay' : β → Bool} {k : Nat}
  {v o : Nat}

theorem lt (origin : g.Origin relay k v o) : o < k := by
  induction origin with
  | here old => exact old
  | through _ _ _ _ ih => exact ih

/-- A vertex that was there from the start is its own origin. -/
theorem eq_of_lt (origin : g.Origin relay k v o) (old : v < k) : o = v := by
  cases origin with
  | here _ => rfl
  | through late _ _ _ => exact absurd old (Nat.not_lt.mpr late)

/-- A vertex that was not there has an origin only if it relays. -/
theorem relays (origin : g.Origin relay k v o) (late : k ≤ v) : g.Relays relay v := by
  cases origin with
  | here old => exact absurd old (Nat.not_lt.mpr late)
  | through _ relays _ _ => exact relays

/-- More edges and more relays leave an origin as it was. -/
theorem mono (origin : g.Origin relay k v o) (edges : ∀ x y, g.Adj x y → h.Adj x y)
    (more : ∀ w, k ≤ w → g.Relays relay w → h.Relays relay' w) : h.Origin relay' k v o := by
  induction origin with
  | here old => exact .here old
  | through late relays edge _ ih => exact .through late (more _ late relays) (edges _ _ edge) ih

/-- The same edges and relays give the same origins. -/
theorem congr (edges : ∀ x y, h.Adj x y ↔ g.Adj x y)
    (relays : ∀ w, k ≤ w → (h.Relays relay' w ↔ g.Relays relay w)) :
    h.Origin relay' k v o ↔ g.Origin relay k v o := by
  constructor
  · intro origin
    exact origin.mono (fun x y => (edges x y).mp) fun w late => (relays w late).mp
  · intro origin
    exact origin.mono (fun x y => (edges x y).mpr) fun w late => (relays w late).mpr

theorem traceable_congr (edges : ∀ x y, h.Adj x y ↔ g.Adj x y)
    (relays : ∀ w, k ≤ w → (h.Relays relay' w ↔ g.Relays relay w))
    (traceable : g.Traceable relay k) : h.Traceable relay' k where
  narrow v late hands x y first second := traceable.narrow v late ((relays v late).mp hands) x y
    ((edges x v).mp first) ((edges y v).mp second)
  feeds u v edge := by
    refine (traceable.feeds u v ((edges u v).mp edge)).imp ?_ fun alone x edge' => ?_
    · rintro ⟨o, origin⟩
      exact ⟨o, (congr edges relays).mpr origin⟩
    · exact alone x ((edges x v).mp edge')

/-- Where edges do not merge at relays, a vertex has one origin. -/
theorem unique (traceable : g.Traceable relay k) (origin : g.Origin relay k v o) {o' : Nat}
    (origin' : g.Origin relay k v o') : o = o' := by
  induction origin with
  | here old => exact (origin'.eq_of_lt old).symm
  | through late relays edge _ ih =>
    cases origin' with
    | here old => exact absurd old (Nat.not_lt.mpr late)
    | through _ _ edge' rest' =>
      obtain rfl := traceable.narrow _ late relays _ _ edge edge'
      exact ih rest'

end Origin

/-! ## One vertex more -/

section Push

variable {g h : Digraph α} {a : α} {relay : α → Bool}

theorem Relays.lt {v : Nat} (relays : g.Relays relay v) : v < g.size := by
  obtain ⟨label, there, -⟩ := (Option.any_eq_true _ _).mp relays
  obtain ⟨inside, -⟩ := Array.getElem?_eq_some_iff.mp there
  exact inside

variable (pushed : h.vertices = g.vertices.push a)
include pushed

theorem relays_push_of_lt {v : Nat} (old : v < g.size) : h.Relays relay v ↔ g.Relays relay v := by
  have before : v ≠ g.vertices.size := Nat.ne_of_lt old
  rw [Relays, label?, pushed, Array.getElem?_push, if_neg before]
  rfl

theorem relays_push_new : h.Relays relay g.size ↔ relay a = true := by
  rw [Relays, label?, pushed, Array.getElem?_push]
  exact iff_of_eq (congrArg (fun label : Option α => label.any relay = true) (if_pos rfl))

theorem size_push : h.size = g.size + 1 := by
  rw [Digraph.size, pushed, Array.size_push]
  rfl

theorem le_size_push : g.size ≤ h.size := by
  rw [size_push pushed]
  exact Nat.le_succ _

/-- A vertex that relays is the new one or relayed before. -/
theorem Relays.of_push {v : Nat} (relays : h.Relays relay v) :
    (v = g.size ∧ relay a = true) ∨ g.Relays relay v := by
  by_cases new : v = g.size
  · subst new
    exact .inl ⟨rfl, (relays_push_new pushed).mp relays⟩
  · have below := relays.lt
    rw [size_push pushed] at below
    exact .inr ((relays_push_of_lt pushed (by omega)).mp relays)

end Push

/-! ## Behind a vertex -/

section InsertAfter

variable {g : Digraph α} (wf : g.WellFormed) {v : Nat} (inside : v < g.size) {a : α}
  {relay : α → Bool} {k : Nat} (late : k ≤ g.size)
include wf inside

/-- The new vertex stands for the one that it was inserted behind. -/
theorem Origin.of_insertAfter {w o : Nat} (late : k ≤ g.size)
    (origin : (g.insertAfter v a).Origin relay k w o) :
    g.Origin relay k (if w = g.size then v else w) o := by
  have pushed := vertices_insertAfter g v a
  induction origin with
  | here old =>
    rw [if_neg (by omega)]
    exact .here old
  | through after relays edge _ ih =>
    rcases (adj_insertAfter wf inside a _ _).mp edge with ⟨rfl, rfl⟩ | ⟨rfl, old⟩ | ⟨-, old⟩
    · rw [if_neg (Nat.ne_of_lt inside)] at ih
      rw [if_pos rfl]
      exact ih
    · have small := (wf.inside _ _ old).2
      rw [if_pos rfl] at ih
      rw [if_neg (Nat.ne_of_lt small)]
      exact .through after ((relays_push_of_lt pushed small).mp relays) old ih
    · obtain ⟨small, small'⟩ := wf.inside _ _ old
      rw [if_neg (Nat.ne_of_lt small)] at ih
      rw [if_neg (Nat.ne_of_lt small')]
      exact .through after ((relays_push_of_lt pushed small').mp relays) old ih

variable (hands : relay a = true ∨ ∀ w, ¬ g.Adj v w)
include late hands

/-- Behind the new vertex everything has the origin that it had. -/
theorem origin_insertAfter {w o : Nat} (old : w < g.size) :
    (g.insertAfter v a).Origin relay k w o ↔ g.Origin relay k w o := by
  have edges := adj_insertAfter wf inside a
  have pushed := vertices_insertAfter g v a
  constructor
  · intro origin
    have before := origin.of_insertAfter wf inside late
    rwa [if_neg (Nat.ne_of_lt old)] at before
  · intro origin
    induction origin with
    | here first => exact .here first
    | @through u w o after relays edge _ ih =>
      have relays := (relays_push_of_lt pushed old).mpr relays
      have rest := ih (wf.inside u w edge).1
      by_cases same : u = v
      · subst same
        have hands := hands.resolve_right fun sink => sink w edge
        refine .through after relays ((edges _ _).mpr (.inr (.inl ⟨rfl, edge⟩))) ?_
        exact .through late ((relays_push_new pushed).mpr hands) ((edges _ _).mpr (.inl ⟨rfl, rfl⟩))
          rest
      · exact .through after relays ((edges _ _).mpr (.inr (.inr ⟨same, edge⟩))) rest

theorem Traceable.insertAfter (traceable : g.Traceable relay k) :
    (g.insertAfter v a).Traceable relay k := by
  have edges := adj_insertAfter wf inside a
  have pushed := vertices_insertAfter g v a
  have only {x : Nat} (edge : (g.insertAfter v a).Adj x g.size) : x = v := by
    rcases (edges _ _).mp edge with ⟨rfl, -⟩ | ⟨-, edge⟩ | ⟨-, edge⟩
    · rfl
    · exact absurd (wf.inside _ _ edge).2 (Nat.lt_irrefl _)
    · exact absurd (wf.inside _ _ edge).2 (Nat.lt_irrefl _)
  -- an edge that enters an old vertex comes from what stands for the vertex that it came from
  have came {x w : Nat} (old : w ≠ g.size) (edge : (g.insertAfter v a).Adj x w) :
      ∃ u, g.Adj u w ∧ ((u = v ∧ x = g.size) ∨ (u ≠ v ∧ x = u)) := by
    rcases (edges _ _).mp edge with ⟨-, new⟩ | ⟨rfl, before⟩ | ⟨other, before⟩
    · exact absurd new old
    · exact ⟨v, before, .inl ⟨rfl, rfl⟩⟩
    · exact ⟨x, before, .inr ⟨other, rfl⟩⟩
  constructor
  · intro w after relays x y first second
    by_cases new : w = g.size
    · subst new
      rw [only first, only second]
    · obtain ⟨x', old, from_⟩ := came new first
      obtain ⟨y', old', from_'⟩ := came new second
      have relays := (relays_push_of_lt pushed (wf.inside _ _ old).2).mp relays
      have same := traceable.narrow w after relays x' y' old old'
      omega
  · intro x w edge
    by_cases new : w = g.size
    · subst new
      exact .inr fun y edge' => (only edge').trans (only edge).symm
    · obtain ⟨u, old, from_⟩ := came new edge
      have small := (wf.inside u w old).1
      refine (traceable.feeds u w old).imp ?_ fun alone y edge' => ?_
      · rintro ⟨o, origin⟩
        have origin := (origin_insertAfter wf inside late hands small).mpr origin
        rcases from_ with ⟨rfl, rfl⟩ | ⟨-, rfl⟩
        · have hands := hands.resolve_right fun sink => sink w old
          exact ⟨o, .through late ((relays_push_new pushed).mpr hands)
            ((edges _ _).mpr (.inl ⟨rfl, rfl⟩)) origin⟩
        · exact ⟨o, origin⟩
      · obtain ⟨u', old', from_'⟩ := came new edge'
        have := alone u' old'
        omega

end InsertAfter

/-! ## In front of a vertex -/

section InsertBefore

variable {g : Digraph α} (wf : g.WellFormed) {v : Nat} (inside : v < g.size) {a : α}
  {relay : α → Bool} {k : Nat}
include wf inside

variable (traceable : g.Traceable relay k) (plain : relay a = false) (late : k ≤ g.size)
  (merges : g.Merges v)
include traceable plain late merges

/-- The new vertex has no origin, and all others the one that they had. -/
theorem origin_insertBefore {w o : Nat} : (g.insertBefore v a).Origin relay k w o ↔
    w < g.size ∧ g.Origin relay k w o := by
  have edges := adj_insertBefore wf inside a
  have pushed := vertices_insertBefore g v a
  constructor
  · intro origin
    induction origin with
    | here old => exact ⟨by omega, .here old⟩
    | @through u w o after relays edge _ ih =>
      obtain ⟨small, rest⟩ := ih
      rcases (edges u w).mp edge with ⟨-, rfl⟩ | ⟨rfl, -⟩ | ⟨-, edge⟩
      · exact absurd small (Nat.lt_irrefl _)
      · have hands := (relays_push_new pushed).mp relays
        rw [plain] at hands
        cases hands
      · have small' := (wf.inside u w edge).2
        exact ⟨small', .through after ((relays_push_of_lt pushed small').mp relays) edge rest⟩
  · rintro ⟨small, origin⟩
    induction origin with
    | here old => exact .here old
    | @through u w o after relays edge _ ih =>
      have other : w ≠ v := by
        rintro rfl
        obtain ⟨x, y, different, first, second⟩ := merges
        exact different (traceable.narrow w after relays x y first second)
      exact .through after ((relays_push_of_lt pushed small).mpr relays)
        ((edges u w).mpr (.inr (.inr ⟨other, edge⟩))) (ih (wf.inside u w edge).1)

theorem Traceable.insertBefore : (g.insertBefore v a).Traceable relay k := by
  have edges := adj_insertBefore wf inside a
  have pushed := vertices_insertBefore g v a
  have origin (w o : Nat) :=
    origin_insertBefore (w := w) (o := o) wf inside traceable plain late merges
  have entersNew {x : Nat} (edge : (g.insertBefore v a).Adj x v) : x = g.size := by
    rcases (edges x v).mp edge with ⟨-, new⟩ | ⟨same, -⟩ | ⟨other, -⟩
    · exact new
    · exact absurd same (Nat.ne_of_lt inside)
    · exact absurd rfl other
  have intoNew {x : Nat} (edge : (g.insertBefore v a).Adj x g.size) : g.Adj x v := by
    rcases (edges x _).mp edge with ⟨same, -⟩ | ⟨-, edge⟩ | ⟨-, edge⟩
    · exact absurd same.symm (Nat.ne_of_lt inside)
    · exact edge
    · exact absurd (wf.inside _ _ edge).2 (Nat.lt_irrefl _)
  have elsewhere {x w : Nat} (other : w ≠ v) (old : w ≠ g.size)
      (edge : (g.insertBefore v a).Adj x w) : g.Adj x w := by
    rcases (edges x w).mp edge with ⟨same, -⟩ | ⟨same, -⟩ | ⟨-, edge⟩
    · exact absurd same other
    · exact absurd same old
    · exact edge
  constructor
  · intro w after relays x y first second
    by_cases new : w = g.size
    · subst new
      have hands := (relays_push_new pushed).mp relays
      rw [plain] at hands
      cases hands
    · by_cases same : w = v
      · subst same
        rw [entersNew first, entersNew second]
      · have first := elsewhere same new first
        have relays := (relays_push_of_lt pushed (wf.inside _ _ first).2).mp relays
        exact traceable.narrow w after relays x y first (elsewhere same new second)
  · intro u w edge
    by_cases new : w = g.size
    · subst new
      have old := intoNew edge
      rcases traceable.feeds u v old with ⟨o, origin'⟩ | alone
      · exact .inl ⟨o, (origin u o).mpr ⟨(wf.inside u v old).1, origin'⟩⟩
      · obtain ⟨x, y, different, first, second⟩ := merges
        exact absurd ((alone x first).trans (alone y second).symm) different
    · by_cases same : w = v
      · subst same
        exact .inr fun x edge' => (entersNew edge').trans (entersNew edge).symm
      · have old := elsewhere same new edge
        refine (traceable.feeds u w old).imp ?_ fun alone x edge' => ?_
        · rintro ⟨o, origin'⟩
          exact ⟨o, (origin u o).mpr ⟨(wf.inside u w old).1, origin'⟩⟩
        · exact alone x (elsewhere same new edge')

end InsertBefore

end Digraph

end LayerNet
