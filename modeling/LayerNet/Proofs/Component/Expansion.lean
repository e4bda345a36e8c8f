import LayerNet.Proofs.Component.NormalForm
import LayerNet.Proofs.Digraph.Neighbours

/-!
# Expansion — where the two insertion passes put splits and concatenations

The first pass gives every vertex that fans out a split behind it, the second every vertex that fans
in a concatenation in front. Afterwards an edge leaves what stands behind its source and enters what
stands in front of its target, and a vertex is joined to what was inserted for it (`Expands`).

The two passes are one argument, read along the edges and against them. A step inserts a vertex on
one side of another (`InsertsFor`); where the edges of the vertices settled so far have been put is
a function that a step changes in one place (`Moved`).
-/

namespace LayerNet

namespace ComponentGraph

/-! ## One pass, in either direction -/

/-- The edges, in the direction in which a pass reads them. -/
abbrev Direction := ComponentGraph → Nat → Nat → Prop

/-- Several edges lead from a vertex, and it is not exempt. -/
def Fans (rel : Direction) (exempt : Blueprint → Bool) (c : ComponentGraph) (v : Nat) : Prop :=
  c.blueprintIs exempt v = false ∧ ∃ x y, x ≠ y ∧ rel c v x ∧ rel c v y

/-- The component has the blueprint. -/
def IsLabelled (c : ComponentGraph) (v : Nat) (blueprint : Blueprint) : Prop :=
  ∃ component, c.graph.label? v = some component ∧ component.blueprint = blueprint

/-- A step inserts a component of a blueprint for a vertex that fans in the direction. -/
structure InsertsFor (rel : Direction) (exempt : Blueprint → Bool) (blueprint : Blueprint)
    (step : ComponentGraph → Nat → ComponentGraph) : Prop where
  larger : ∀ b v, b.graph.IsDag → v < b.size → Extends 0 b (step b v)
  idle : ∀ b v, b.graph.IsDag → ¬ Fans rel exempt b v → step b v = b
  made : ∀ b v, b.graph.IsDag → v < b.size → Fans rel exempt b v →
    b.size < (step b v).size ∧ (step b v).IsLabelled b.size blueprint
      ∧ ∀ x y, rel (step b v) x y ↔
        (x = v ∧ y = b.size) ∨ (x = b.size ∧ rel b v y) ∨ (x ≠ v ∧ rel b x y)
  inside : ∀ b x y, b.graph.IsDag → rel b x y → x < b.size ∧ y < b.size

/-- The edges of the settled vertices that fan have been moved to where they were put. -/
structure Moved (rel : Direction) (exempt : Blueprint → Bool) (blueprint : Blueprint)
    (c b : ComponentGraph) (settled : List Nat) (place : Nat → Nat) : Prop where
  larger : Extends 0 c b
  rel_iff : ∀ x y, rel b x y ↔
    (∃ v, rel c v y ∧ x = place v) ∨ (place x ≠ x ∧ x < c.size ∧ y = place x)
  stays : ∀ v, v ∉ settled ∨ ¬ Fans rel exempt c v → place v = v
  moves : ∀ v ∈ settled, Fans rel exempt c v →
    c.size ≤ place v ∧ place v < b.size ∧ b.IsLabelled (place v) blueprint
  injective : ∀ u v, u < c.size → v < c.size → place u = place v → u = v

/-- A test that one blueprint satisfies asks for that blueprint. -/
theorem blueprintIs_iff {c : ComponentGraph} {test : Blueprint → Bool} {blueprint : Blueprint}
    (only : ∀ b, test b = true ↔ b = blueprint) {v : Nat} :
    c.blueprintIs test v = true ↔ c.IsLabelled v blueprint := by
  refine (Option.any_eq_true _ _).trans (exists_congr fun component => ?_)
  exact and_congr_right fun _ => only component.blueprint

theorem isSplit_iff (b : Blueprint) : b.isSplit = true ↔ b = .split := by
  cases b <;> simp [Blueprint.isSplit]

theorem isConcat_iff (b : Blueprint) : b.isConcat = true ↔ b = .concat := by
  cases b <;> simp [Blueprint.isConcat]

theorem Extends.isLabelled {n : Nat} {a b : ComponentGraph} (larger : Extends n a b) {v : Nat}
    (old : v < a.size) {blueprint : Blueprint} (labelled : a.IsLabelled v blueprint) :
    b.IsLabelled v blueprint := by
  rw [IsLabelled, larger.label?_eq old]
  exact labelled

namespace Moved

variable {rel : Direction} {exempt : Blueprint → Bool} {blueprint : Blueprint}
  {step : ComponentGraph → Nat → ComponentGraph} {c b : ComponentGraph} {settled : List Nat}
  {place : Nat → Nat}

theorem refl (dag : c.graph.IsDag) : Moved rel exempt blueprint c c [] id where
  larger := .refl dag
  rel_iff x y := by simp
  stays _ _ := rfl
  moves _ member := absurd member List.not_mem_nil
  injective _ _ _ _ same := same

section

variable (moved : Moved rel exempt blueprint c b settled place)
include moved

/-- Where a vertex has been put: where it was, or among the vertices that were added. -/
theorem place_cases (v : Nat) : place v = v ∨ (c.size ≤ place v ∧ place v < b.size) := by
  by_cases fans : v ∈ settled ∧ Fans rel exempt c v
  · obtain ⟨low, high, -⟩ := moved.moves v fans.1 fans.2
    exact .inr ⟨low, high⟩
  · exact .inl (moved.stays v (by tauto))

theorem place_lt {v : Nat} (inside : v < c.size) : place v < b.size := by
  have := moved.larger.size_le
  have := moved.place_cases v
  omega

variable (inserts : InsertsFor rel exempt blueprint step) (dag : c.graph.IsDag)
include inserts dag

/-- A vertex that was not moved has the edges that it had. -/
theorem rel_of_stays {v : Nat} (inside : v < c.size) (here : place v = v) (y : Nat) :
    rel b v y ↔ rel c v y := by
  rw [moved.rel_iff]
  constructor
  · rintro (⟨u, edge, same⟩ | ⟨other, -, -⟩)
    · obtain rfl := moved.injective v u inside (inserts.inside c u y dag edge).1 (here.trans same)
      exact edge
    · exact absurd here other
  · exact fun edge => .inl ⟨v, edge, here.symm⟩

/-- The edges after a vertex has been put behind the graph. -/
theorem rel_iff_update {v : Nat} (inside : v < c.size) (here : place v = v) {x y : Nat} :
    ((x = v ∧ y = b.size) ∨ (x = b.size ∧ rel b v y) ∨ (x ≠ v ∧ rel b x y)) ↔
      (∃ u, rel c u y ∧ x = Function.update place v b.size u)
        ∨ (Function.update place v b.size x ≠ x ∧ x < c.size
          ∧ y = Function.update place v b.size x) := by
  have later := moved.larger.size_le
  have old {u : Nat} (edge : rel c u y) : u < c.size := (inserts.inside c u y dag edge).1
  rw [moved.rel_of_stays inserts dag inside here, moved.rel_iff]
  constructor
  · rintro (⟨rfl, rfl⟩ | ⟨rfl, edge⟩ | ⟨other, ⟨u, edge, rfl⟩ | ⟨away, small, rfl⟩⟩)
    · refine .inr ?_
      rw [Function.update_self]
      exact ⟨by omega, inside, rfl⟩
    · exact .inl ⟨v, edge, (Function.update_self v b.size place).symm⟩
    · have differs : u ≠ v := by
        rintro rfl
        exact other here
      exact .inl ⟨u, edge, (Function.update_of_ne differs _ _).symm⟩
    · refine .inr ?_
      rw [Function.update_of_ne other]
      exact ⟨away, small, rfl⟩
  · rintro (⟨u, edge, rfl⟩ | ⟨away, small, rfl⟩)
    · by_cases same : u = v
      · subst same
        rw [Function.update_self]
        exact .inr (.inl ⟨rfl, edge⟩)
      · rw [Function.update_of_ne same]
        refine .inr (.inr ⟨fun moved' => same ?_, .inl ⟨u, edge, rfl⟩⟩)
        exact moved.injective u v (old edge) inside (moved'.trans here.symm)
    · by_cases same : x = v
      · subst same
        rw [Function.update_self]
        exact .inl ⟨rfl, rfl⟩
      · rw [Function.update_of_ne same] at away ⊢
        exact .inr (.inr ⟨same, .inr ⟨away, small, rfl⟩⟩)

/-- One vertex more is settled. -/
theorem cons {v : Nat} (new : v ∉ settled) (inside : v < c.size) :
    ∃ place', Moved rel exempt blueprint c (step b v) (v :: settled) place' := by
  have later := moved.larger.size_le
  have inside' : v < b.size := Nat.lt_of_lt_of_le inside later
  have here := moved.stays v (.inl new)
  have edges := moved.rel_of_stays inserts dag inside here
  have fans_iff : Fans rel exempt b v ↔ Fans rel exempt c v := by
    simp only [Fans, moved.larger.blueprintIs_eq exempt inside, edges]
  have step_larger := inserts.larger b v moved.larger.dag inside'
  have larger := moved.larger.trans step_larger
  by_cases fans : Fans rel exempt c v
  · obtain ⟨grows, label, rerouted⟩ := inserts.made b v moved.larger.dag inside' (fans_iff.mpr fans)
    have other {u : Nat} (differs : u ≠ v) : Function.update place v b.size u = place u :=
      Function.update_of_ne differs _ _
    refine ⟨Function.update place v b.size, larger, fun x y => ?_, fun w free => ?_,
      fun w member fans' => ?_, fun u w small small' same => ?_⟩
    · rw [rerouted]
      exact moved.rel_iff_update inserts dag inside here
    · rw [List.mem_cons, not_or] at free
      have differs : w ≠ v := by
        rintro rfl
        exact free.elim (fun left => left.1 rfl) (absurd fans)
      rw [other differs]
      exact moved.stays w (free.imp_left And.right)
    · by_cases first : w = v
      · subst first
        rw [Function.update_self]
        exact ⟨later, grows, label⟩
      · obtain ⟨low, high, labelled⟩ :=
          moved.moves w ((List.mem_cons.mp member).resolve_left first) fans'
        rw [other first]
        exact ⟨low, Nat.lt_trans high grows, step_larger.isLabelled high labelled⟩
    · have differs {u : Nat} (small : u < c.size) : place u ≠ b.size :=
        Nat.ne_of_lt (moved.place_lt small)
      by_cases first : u = v
      · by_cases second : w = v
        · rw [first, second]
        · rw [first, Function.update_self, other second] at same
          exact absurd same.symm (differs small')
      · by_cases second : w = v
        · rw [second, Function.update_self, other first] at same
          exact absurd same (differs small)
        · rw [other first, other second] at same
          exact moved.injective u w small small' same
  · refine ⟨place, ?_⟩
    rw [inserts.idle b v moved.larger.dag (mt fans_iff.mp fans)]
    refine ⟨moved.larger, moved.rel_iff, fun w free => moved.stays w ?_, fun w member fans' => ?_,
      moved.injective⟩
    · rw [List.mem_cons, not_or] at free
      exact free.imp_left And.right
    · rcases List.mem_cons.mp member with rfl | member
      · exact absurd fans' fans
      · exact moved.moves w member fans'

end

/-- A pass settles the vertices that it goes through. -/
theorem foldl (inserts : InsertsFor rel exempt blueprint step) (dag : c.graph.IsDag)
    (moved : Moved rel exempt blueprint c b settled place) {xs : List Nat} (nodup : xs.Nodup)
    (new : ∀ v ∈ xs, v ∉ settled) (inside : ∀ v ∈ xs, v < c.size) :
    ∃ place', Moved rel exempt blueprint c (xs.foldl step b) (xs.reverse ++ settled) place' := by
  induction xs generalizing b settled place with
  | nil => exact ⟨place, moved⟩
  | cons v xs ih =>
    obtain ⟨first, nodup⟩ := List.nodup_cons.mp nodup
    obtain ⟨new', others⟩ := List.forall_mem_cons.mp new
    obtain ⟨small, inside⟩ := List.forall_mem_cons.mp inside
    obtain ⟨place', moved'⟩ := moved.cons inserts dag new' small
    rw [List.reverse_cons, List.append_assoc]
    refine ih moved' nodup (fun w member seen => ?_) inside
    rcases List.mem_cons.mp seen with rfl | seen
    · exact first member
    · exact others w member seen

end Moved

/-! ## The two passes -/

/-- The first pass reads edges forwards. -/
abbrev forwards : Direction := fun c x y => c.graph.Adj x y

/-- The second pass reads edges backwards. -/
abbrev backwards : Direction := fun c x y => c.graph.Adj y x

theorem insertsFor_splitFanOut : InsertsFor forwards Blueprint.isSplit .split splitFanOut where
  larger b v dag inside := extends_splitFanOut dag (Nat.zero_le _) inside
  idle b v dag few := if_neg (mt (needsSplit_iff dag v).mp few)
  made b v dag inside fans := by
    have wf := dag.wellFormed
    have rewired : b.splitFanOut v = { b with graph := b.graph.insertAfter v (b.fresh .split) } :=
      if_pos ((needsSplit_iff dag v).mpr fans)
    rw [rewired]
    refine ⟨?_, ⟨b.fresh .split, Digraph.label?_insertAfter _ _ _, rfl⟩,
      Digraph.adj_insertAfter wf inside _⟩
    exact Nat.lt_of_lt_of_eq (Nat.lt_succ_self _) (Digraph.size_insertAfter _ _ _).symm
  inside b x y dag edge := dag.wellFormed.inside x y edge

theorem insertsFor_joinFanIn : InsertsFor backwards Blueprint.isConcat .concat joinFanIn where
  larger b v dag inside := extends_joinFanIn dag (Nat.zero_le _) inside
  idle b v dag few := if_neg (mt (needsConcat_iff dag v).mp few)
  made b v dag inside fans := by
    have wf := dag.wellFormed
    have rewired : b.joinFanIn v = { b with graph := b.graph.insertBefore v (b.fresh .concat) } :=
      if_pos ((needsConcat_iff dag v).mpr fans)
    rw [rewired]
    have vertices := Digraph.vertices_insertBefore b.graph v (b.fresh .concat)
    refine ⟨?_, ⟨b.fresh .concat, ?_, rfl⟩, fun x y => Digraph.adj_insertBefore wf inside _ y x⟩
    · show b.graph.vertices.size < (b.graph.insertBefore v (b.fresh .concat)).vertices.size
      rw [vertices, Array.size_push]
      exact Nat.lt_succ_self _
    · rw [Digraph.label?, vertices]
      exact Array.getElem?_push_size
  inside b x y dag edge := (dag.wellFormed.inside y x edge).symm

/-- A graph in which every vertex that fans out has a split behind it, and every vertex that fans in
a concatenation in front. -/
structure Expands (c b : ComponentGraph) (behind front : Nat → Nat) : Prop where
  larger : Extends 0 c b
  behind_eq : ∀ v, ¬ c.FansOut v → behind v = v
  front_eq : ∀ v, ¬ c.FansIn v → front v = v
  split : ∀ v < c.size, c.FansOut v → b.IsLabelled (behind v) .split
  concat : ∀ v < c.size, c.FansIn v → b.IsLabelled (front v) .concat
  /-- Edges leave what stands behind their source, to what stands in front of their target. -/
  leaves : ∀ u < c.size, ∀ y, b.graph.Adj (behind u) y ↔ ∃ w, c.graph.Adj u w ∧ y = front w
  enters : ∀ w < c.size, ∀ x, b.graph.Adj x (front w) ↔ ∃ v, c.graph.Adj v w ∧ x = behind v
  /-- A vertex that fans out has an edge only to its split. -/
  toSplit : ∀ u < c.size, c.FansOut u → ∀ y, b.graph.Adj u y ↔ y = behind u
  /-- A concatenation has an edge only to the vertex that it is for. -/
  fromConcat : ∀ w < c.size, c.FansIn w → ∀ y, b.graph.Adj (front w) y ↔ y = w
  behind_injective : ∀ u v, u < c.size → v < c.size → behind u = behind v → u = v
  front_injective : ∀ u v, u < c.size → v < c.size → front u = front v → u = v

namespace Expands

variable {c b : ComponentGraph} {behind front : Nat → Nat} (expands : Expands c b behind front)
include expands

/-- No split is behind a component that one edge leaves. -/
theorem behind_eq_of_single {u v : Nat} (single : ∀ w, c.graph.Adj u w → w = v) :
    behind u = u := by
  refine expands.behind_eq u ?_
  rintro ⟨-, x, y, differ, edge, edge'⟩
  exact differ ((single x edge).trans (single y edge').symm)

/-- No concatenation is in front of a component that one edge enters. -/
theorem front_eq_of_single {u v : Nat} (single : ∀ w, c.graph.Adj w v → w = u) :
    front v = v := by
  refine expands.front_eq v ?_
  rintro ⟨-, x, y, differ, edge, edge'⟩
  exact differ ((single x edge).trans (single y edge').symm)

/-- A split is what stands behind it. -/
theorem behind_eq_of_split {v : Nat} (labelled : c.IsLabelled v .split) : behind v = v := by
  refine expands.behind_eq v fun fans => ?_
  have isSplit := (blueprintIs_iff isSplit_iff).mpr labelled
  rw [fans.1] at isSplit
  cases isSplit

/-- A concatenation is what stands in front of it. -/
theorem front_eq_of_concat {v : Nat} (labelled : c.IsLabelled v .concat) : front v = v := by
  refine expands.front_eq v fun fans => ?_
  have isConcat := (blueprintIs_iff isConcat_iff).mpr labelled
  rw [fans.1] at isConcat
  cases isConcat

/-- Behind a component that several edges leave is a split. -/
theorem isLabelled_behind {v : Nat} (inside : v < c.size) (several : c.graph.Branches v) :
    b.IsLabelled (behind v) .split := by
  cases isSplit : c.blueprintIs Blueprint.isSplit v with
  | false => exact expands.split v inside ⟨isSplit, several⟩
  | true =>
    have labelled := (blueprintIs_iff isSplit_iff).mp isSplit
    rw [expands.behind_eq_of_split labelled]
    exact expands.larger.isLabelled inside labelled

/-- In front of a component that several edges enter is a concatenation. -/
theorem isLabelled_front {v : Nat} (inside : v < c.size) (several : c.graph.Merges v) :
    b.IsLabelled (front v) .concat := by
  cases isConcat : c.blueprintIs Blueprint.isConcat v with
  | false => exact expands.concat v inside ⟨isConcat, several⟩
  | true =>
    have labelled := (blueprintIs_iff isConcat_iff).mp isConcat
    rw [expands.front_eq_of_concat labelled]
    exact expands.larger.isLabelled inside labelled

end Expands

/-! ## Both passes -/

/-- A pass along the edges from one graph to another, and from that a pass against the edges, for
the vertices of the first graph. -/
structure InTwoPasses (c m b : ComponentGraph) (behind front : Nat → Nat) : Prop where
  dag : c.graph.IsDag
  out : Moved forwards Blueprint.isSplit .split c m (List.range c.size).reverse behind
  into : Moved backwards Blueprint.isConcat .concat m b (List.range c.size).reverse front

/-- A pass over a graph settles the vertices of the graph. -/
theorem mem_settled {n v : Nat} : v ∈ (List.range n).reverse ↔ v < n :=
  List.mem_reverse.trans List.mem_range

namespace InTwoPasses

variable {c m b : ComponentGraph} {behind front : Nat → Nat}
  (passes : InTwoPasses c m b behind front)
include passes

theorem middle_lt {v : Nat} (inside : v < c.size) : v < m.size :=
  Nat.lt_of_lt_of_le inside passes.out.larger.size_le

theorem front_cases (v : Nat) : front v = v ∨ m.size ≤ front v :=
  (passes.into.place_cases v).imp_right And.left

/-- The first pass lets as many edges enter a vertex as did before. -/
theorem entered {w : Nat} (inside : w < c.size) (x : Nat) :
    m.graph.Adj x w ↔ ∃ v, c.graph.Adj v w ∧ x = behind v := by
  refine (passes.out.rel_iff x w).trans (or_iff_left ?_)
  rintro ⟨away, -, rfl⟩
  have := passes.out.place_cases x
  omega

/-- What stands behind a vertex after the first pass has the edges that the vertex had. -/
theorem left {u : Nat} (inside : u < c.size) (v : Nat) :
    m.graph.Adj (behind u) v ↔ c.graph.Adj u v := by
  refine (passes.out.rel_iff (behind u) v).trans ⟨?_, fun edge => .inl ⟨u, edge, rfl⟩⟩
  rintro (⟨u', edge, same⟩ | ⟨away, small, -⟩)
  · obtain rfl :=
      passes.out.injective u u' inside (passes.dag.wellFormed.inside u' v edge).1 same
    exact edge
  · have here := passes.out.place_cases u
    have here : behind u = u := by omega
    exact absurd (congrArg behind here) away

theorem fansIn_iff {w : Nat} (inside : w < c.size) :
    Fans backwards Blueprint.isConcat m w ↔ c.FansIn w := by
  rw [Fans, FansIn, passes.out.larger.blueprintIs_eq _ inside]
  refine and_congr_right fun _ => ?_
  simp only [backwards, passes.entered inside]
  constructor
  · rintro ⟨-, -, differ, ⟨u, edge, rfl⟩, ⟨v, edge', rfl⟩⟩
    exact ⟨u, v, fun same => differ (congrArg behind same), edge, edge'⟩
  · rintro ⟨u, v, differ, edge, edge'⟩
    refine ⟨behind u, behind v, fun same => differ ?_, ⟨u, edge, rfl⟩, ⟨v, edge', rfl⟩⟩
    exact passes.out.injective u v (passes.dag.wellFormed.inside u w edge).1
      (passes.dag.wellFormed.inside v w edge').1 same

theorem leaves {u : Nat} (inside : u < c.size) (y : Nat) :
    b.graph.Adj (behind u) y ↔ ∃ w, c.graph.Adj u w ∧ y = front w := by
  refine (passes.into.rel_iff y (behind u)).trans ((or_iff_left ?_).trans ?_)
  · rintro ⟨away, -, same⟩
    have := passes.out.place_lt inside
    have := passes.front_cases y
    omega
  · exact exists_congr fun w => and_congr_left fun _ => passes.left inside w

theorem enters {w : Nat} (inside : w < c.size) (x : Nat) :
    b.graph.Adj x (front w) ↔ ∃ v, c.graph.Adj v w ∧ x = behind v := by
  refine (passes.into.rel_iff (front w) x).trans ((or_iff_left ?_).trans ?_)
  · rintro ⟨away, small, -⟩
    have here := (passes.front_cases w).resolve_right (Nat.not_le.mpr small)
    exact away (congrArg front here)
  · rw [← passes.entered inside]
    refine ⟨fun ⟨v, edge, same⟩ => ?_, fun edge => ⟨w, edge, rfl⟩⟩
    have old := (passes.out.larger.dag.wellFormed.inside x v edge).2
    obtain rfl := passes.into.injective w v (passes.middle_lt inside) old same
    exact edge

theorem toSplit {u : Nat} (inside : u < c.size) (fans : c.FansOut u) (y : Nat) :
    b.graph.Adj u y ↔ y = behind u := by
  obtain ⟨low, -, -⟩ := passes.out.moves u (mem_settled.mpr inside) fans
  have only (v : Nat) : m.graph.Adj u v ↔ v = behind u := by
    refine (passes.out.rel_iff u v).trans ⟨?_, fun same => .inr ⟨by omega, inside, same⟩⟩
    rintro (⟨u', edge, same⟩ | ⟨-, -, same⟩)
    · have here := passes.out.place_cases u'
      obtain rfl : u = u' := by omega
      omega
    · exact same
  have fixed : front (behind u) = behind u :=
    passes.into.stays _ (.inl fun member => Nat.not_lt.mpr low (mem_settled.mp member))
  refine (passes.into.rel_iff y u).trans ((or_iff_left ?_).trans ?_)
  · rintro ⟨away, -, same⟩
    have := passes.front_cases y
    have := passes.middle_lt inside
    omega
  · simp only [backwards, only, exists_eq_left, fixed]

theorem fromConcat {w : Nat} (inside : w < c.size) (fans : c.FansIn w) (y : Nat) :
    b.graph.Adj (front w) y ↔ y = w := by
  have later := passes.middle_lt inside
  obtain ⟨low, -, -⟩ :=
    passes.into.moves w (mem_settled.mpr inside) ((passes.fansIn_iff inside).mpr fans)
  refine (passes.into.rel_iff y (front w)).trans ((or_iff_right ?_).trans ?_)
  · rintro ⟨v, edge, -⟩
    have := (passes.out.larger.dag.wellFormed.inside _ _ edge).1
    exact absurd low (Nat.not_le.mpr this)
  · constructor
    · rintro ⟨-, small, same⟩
      exact passes.into.injective y w small later same.symm
    · rintro rfl
      exact ⟨by omega, later, rfl⟩

theorem expands : Expands c b behind front where
  larger := passes.out.larger.trans passes.into.larger
  behind_eq v few := passes.out.stays v (.inr few)
  front_eq v few := passes.into.stays v <| by
    by_cases inside : v < c.size
    · exact .inr (mt (passes.fansIn_iff inside).mp few)
    · exact .inl fun member => inside (mem_settled.mp member)
  split v inside fans := by
    obtain ⟨-, high, labelled⟩ := passes.out.moves v (mem_settled.mpr inside) fans
    exact passes.into.larger.isLabelled high labelled
  concat v inside fans :=
    (passes.into.moves v (mem_settled.mpr inside) ((passes.fansIn_iff inside).mpr fans)).2.2
  leaves _ := passes.leaves
  enters _ := passes.enters
  toSplit _ := passes.toSplit
  fromConcat _ := passes.fromConcat
  behind_injective := passes.out.injective
  front_injective u v inside inside' same :=
    passes.into.injective u v (passes.middle_lt inside) (passes.middle_lt inside') same

end InTwoPasses

/-- The two passes expand a graph without cycles. -/
theorem exists_expands {c : ComponentGraph} (dag : c.graph.IsDag) :
    ∃ behind front, Expands c
      ((List.range c.size).foldl joinFanIn ((List.range c.size).foldl splitFanOut c))
      behind front := by
  have all : ∀ v ∈ List.range c.size, v < c.size := fun v member => List.mem_range.mp member
  obtain ⟨behind, out⟩ := (Moved.refl dag).foldl insertsFor_splitFanOut dag List.nodup_range
    (fun v _ => List.not_mem_nil) all
  have dag' := out.larger.dag
  obtain ⟨front, into⟩ := (Moved.refl dag').foldl insertsFor_joinFanIn dag' List.nodup_range
    (fun v _ => List.not_mem_nil) fun v member =>
      Nat.lt_of_lt_of_le (all v member) out.larger.size_le
  rw [List.append_nil] at out into
  exact ⟨behind, front, InTwoPasses.expands ⟨dag, out, into⟩⟩

end ComponentGraph

end LayerNet
