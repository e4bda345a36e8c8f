import LayerNet.Shape
import LayerNet.Proofs.Outcome
import Mathlib.Algebra.BigOperators.Group.List.Basic

/-!
# Addressing — what sizes and positions come to as natural numbers

A checked size is a natural number that fits the word, so where a computation of sizes succeeds it
is the computation on natural numbers (`Size.product_eq_ok`, `Size.sum_eq_ok`), and it never gives
an error (`Size.product_ensures`, `Size.sum_ensures`). The blocks around an
axis multiply up to the elements of the shape (`Shape.blocks_spec`), and indices that lie on their
axes lead to a position inside the shape (`Shape.position_lt`), by induction along the axes: what
the inner axes contribute stays below one stride of the outer one (`mul_add_lt`). So indices and
positions determine each other (`Shape.coordinates_injective`, `Shape.position_injective`).
-/

namespace LayerNet

/-- A digit below `m` and one below `n` make a number below `m * n`. -/
theorem mul_add_lt {a b m n : Nat} (high : a < m) (low : b < n) : a * n + b < m * n := by
  calc a * n + b < a * n + n := Nat.add_lt_add_left low _
    _ = (a + 1) * n := by rw [Nat.add_mul, Nat.one_mul]
    _ ≤ m * n := Nat.mul_le_mul_right n high

namespace Size

variable {ε : Type}

theorem check_eq_ok {n m : Nat} (fits : (check n : Outcome ε Nat) = .ok m) : m = n := by
  unfold check at fits
  split at fits
  · exact (Except.ok.inj fits).symm
  · cases fits

theorem foldlM_add_eq_ok {ns : List Nat} {start n : Nat}
    (fits : (ns.foldlM add start : Outcome ε Nat) = .ok n) : n = start + total ns := by
  induction ns generalizing start with
  | nil => exact (Except.ok.inj fits).symm
  | cons k ns ih =>
    rw [List.foldlM_cons, Outcome.bind_eq_ok_iff] at fits
    obtain ⟨next, first, rest⟩ := fits
    rw [ih rest, check_eq_ok first, total, Nat.add_assoc]

theorem foldlM_mul_eq_ok {ns : List Nat} {start n : Nat}
    (fits : (ns.foldlM mul start : Outcome ε Nat) = .ok n) : n = start * ns.prod := by
  induction ns generalizing start with
  | nil =>
    rw [List.prod_nil, Nat.mul_one]
    exact (Except.ok.inj fits).symm
  | cons k ns ih =>
    rw [List.foldlM_cons, Outcome.bind_eq_ok_iff] at fits
    obtain ⟨next, first, rest⟩ := fits
    rw [ih rest, check_eq_ok first, List.prod_cons, Nat.mul_assoc]

theorem sum_eq_ok {ns : List Nat} {n : Nat} (fits : (sum ns : Outcome ε Nat) = .ok n) :
    n = total ns := by
  rw [foldlM_add_eq_ok fits, Nat.zero_add]

theorem le_total_of_mem {n : Nat} {ns : List Nat} (member : n ∈ ns) : n ≤ total ns := by
  induction ns with
  | nil => cases member
  | cons m ns ih =>
    rw [total]
    rcases List.mem_cons.mp member with rfl | member
    · exact Nat.le_add_right _ _
    · exact Nat.le_trans (ih member) (Nat.le_add_left _ _)

theorem total_replicate (n length : Nat) : total (List.replicate n length) = n * length := by
  induction n with
  | zero => exact (Nat.zero_mul length).symm
  | succ n ih => rw [List.replicate_succ, total, ih, Nat.succ_mul, Nat.add_comm]

/-- What comes before a number and the number are a part of the sum. -/
theorem total_take_add_le {ns : List Nat} {i n : Nat} (there : ns[i]? = some n) :
    total (ns.take i) + n ≤ total ns := by
  induction ns generalizing i with
  | nil => cases there
  | cons first rest ih =>
    cases i with
    | zero =>
      cases there
      rw [List.take_zero, total, total]
      omega
    | succ i =>
      have := ih there
      rw [List.take_succ_cons, total, total]
      omega

theorem total_perm {ns ms : List Nat} (same : ns.Perm ms) : total ns = total ms := by
  induction same with
  | nil => rfl
  | cons n _ ih => rw [total, total, ih]
  | swap n m ns => exact Nat.add_left_comm m n (total ns)
  | trans _ _ first second => exact first.trans second

theorem product_eq_ok {ns : List Nat} {n : Nat} (fits : (product ns : Outcome ε Nat) = .ok n) :
    n = ns.prod := by
  rw [foldlM_mul_eq_ok fits, Nat.one_mul]

/-! ## Sizes without errors -/

theorem check_ensures (n : Nat) : (check n : Outcome ε Nat).Ensures fun m => m = n := by
  unfold check
  split
  · exact .of_ok rfl
  · exact .of_overflow

theorem product_ensures (ns : List Nat) :
    (product ns : Outcome ε Nat).Ensures fun n => n = ns.prod := by
  have runs : (product ns : Outcome ε Nat).Ensures fun _ => True :=
    .foldlM ns (fun a b _ _ => (check_ensures (a * b)).mono fun _ _ _ => trivial) trivial
  exact runs.mono fun n success _ => product_eq_ok success

theorem sum_ensures (ns : List Nat) :
    (sum ns : Outcome ε Nat).Ensures fun n => n = total ns := by
  have runs : (sum ns : Outcome ε Nat).Ensures fun _ => True :=
    .foldlM ns (fun a b _ _ => (check_ensures (a + b)).mono fun _ _ _ => trivial) trivial
  exact runs.mono fun n success _ => sum_eq_ok success

end Size

namespace Shape

theorem strides_ensures (shape : Shape) : shape.strides.Ensures fun _ => True := by
  induction shape with
  | nil => exact .of_ok trivial
  | cons length rest ih =>
    cases rest with
    | nil => exact .of_ok trivial
    | cons next rest =>
      exact ih.bind fun inner _ => (Size.check_ensures _).bind fun _ _ => .of_ok trivial

theorem axis_eq_ok {axis bound : Nat} (inside : axis < bound) (operation : String) :
    Shape.axis axis bound operation = .ok axis := by
  unfold Shape.axis
  rw [if_neg (by omega), if_neg (by omega), Int.toNat_natCast]

/-! ## Blocks -/

/-- The blocks around an axis are the products of the lengths before and after it. -/
theorem blocks_spec {shape : Shape} {axis : Nat} {b : Blocks}
    (success : shape.blocks axis = .ok b) : shape[axis]? = some b.length
      ∧ b.outer = (shape.take axis).prod ∧ b.inner = (shape.drop (axis + 1)).prod := by
  unfold blocks at success
  obtain ⟨length, found, success⟩ := Outcome.bind_eq_ok_iff.mp success
  obtain ⟨outer, before, success⟩ := Outcome.bind_eq_ok_iff.mp success
  obtain ⟨inner, after, success⟩ := Outcome.bind_eq_ok_iff.mp success
  cases success
  exact ⟨Outcome.get_eq_ok_iff.mp found, Size.product_eq_ok before, Size.product_eq_ok after⟩

theorem blocks_ensures {shape : Shape} {axis length : Nat} (found : shape[axis]? = some length) :
    (shape.blocks axis).Ensures fun b => b.length = length := by
  unfold blocks
  rw [found]
  refine (Size.product_ensures _).bind fun outer _ => ?_
  exact (Size.product_ensures _).bind fun inner _ => .of_ok rfl

/-- A shape with another length of an axis has as many elements as the blocks around it. -/
theorem prod_set {shape : Shape} {axis : Nat} {b : Blocks} (success : shape.blocks axis = .ok b)
    (length : Nat) : (shape.set axis length).prod = b.outer * length * b.inner := by
  obtain ⟨found, outer, inner⟩ := blocks_spec success
  obtain ⟨inside, -⟩ := List.getElem?_eq_some_iff.mp found
  rw [List.set_eq_take_append_cons_drop, if_pos inside, List.prod_append, List.prod_cons, outer,
    inner, Nat.mul_assoc]

/-- The blocks around an axis take up the whole shape. -/
theorem prod_eq {shape : Shape} {axis : Nat} {b : Blocks} (success : shape.blocks axis = .ok b) :
    shape.prod = b.outer * b.length * b.inner := by
  obtain ⟨found, -, -⟩ := blocks_spec success
  obtain ⟨inside, length⟩ := List.getElem?_eq_some_iff.mp found
  rw [← prod_set success, ← length, List.set_getElem_self]

/-! ## Positions -/

/-- The stride of the first axis is the number of elements behind it. -/
theorem strides_cons {length : Nat} {rest strides : List Nat}
    (success : Shape.strides (length :: rest) = .ok strides) :
    ∃ inner, strides = rest.prod :: inner ∧ (rest ≠ [] → Shape.strides rest = .ok inner) := by
  induction rest generalizing length strides with
  | nil =>
    cases success
    exact ⟨[], rfl, fun absurd => (absurd rfl).elim⟩
  | cons next rest ih =>
    obtain ⟨inner, inside, success⟩ := Outcome.bind_eq_ok_iff.mp success
    obtain ⟨stride, product, success⟩ := Outcome.bind_eq_ok_iff.mp success
    cases success
    obtain ⟨deeper, rfl, -⟩ := ih inside
    refine ⟨_, ?_, fun _ => inside⟩
    rw [Size.check_eq_ok product, List.prod_cons, List.headD_cons, Nat.mul_comm]

/-- Indices that lie on their axes lead to a position inside the shape. -/
theorem position_lt {shape : Shape} {strides indices : List Nat}
    (success : Shape.strides shape = .ok strides) (onAxes : List.Forall₂ (· < ·) indices shape) :
    Size.total (List.zipWith (· * ·) indices strides) < shape.prod := by
  induction onAxes generalizing strides with
  | nil => exact Nat.one_pos
  | @cons index length indices rest below onAxes ih =>
    obtain ⟨inner, rfl, behind⟩ := strides_cons success
    rw [List.zipWith_cons_cons, Size.total, List.prod_cons]
    refine mul_add_lt below ?_
    by_cases last : rest = []
    · subst last
      cases onAxes
      exact Nat.one_pos
    · exact ih (behind last)

/-- In a shape without an empty axis, the coordinates of a position lie on their axes. -/
theorem coordinates_spec (position : Nat) {shape : Shape} (inhabited : 0 ∉ shape) :
    ∃ indices, shape.coordinates position = .ok indices
      ∧ List.Forall₂ (· < ·) indices shape := by
  have unfolds : ∃ indices remaining, shape.unfold position = .ok (indices, remaining)
      ∧ List.Forall₂ (· < ·) indices shape := by
    induction shape with
    | nil => exact ⟨[], position, rfl, .nil⟩
    | cons length rest ih =>
      rw [List.mem_cons, not_or] at inhabited
      obtain ⟨indices, remaining, run, onAxes⟩ := ih inhabited.2
      refine ⟨remaining % length :: indices, remaining / length, ?_, .cons ?_ onAxes⟩
      · simp only [Shape.unfold, run, bind, Except.bind, if_neg (Ne.symm inhabited.1), pure,
          Except.pure]
      · exact Nat.mod_lt _ (Nat.pos_of_ne_zero (Ne.symm inhabited.1))
  obtain ⟨indices, remaining, run, onAxes⟩ := unfolds
  refine ⟨indices, ?_, onAxes⟩
  rw [coordinates, run]
  rfl

/-- Coordinates take up a position of the shape, and the number of whole shapes before it is
left. -/
theorem unfold_eq_ok {position remaining : Nat} {shape : Shape} {indices : List Nat}
    (run : shape.unfold position = .ok (indices, remaining)) :
    remaining = position / shape.prod
      ∧ ∀ other, shape.unfold other = .ok (indices, remaining) → other = position := by
  induction shape generalizing indices remaining with
  | nil =>
    cases run
    refine ⟨(Nat.div_one position).symm, fun other run => ?_⟩
    cases run
    rfl
  | cons length rest ih =>
    obtain ⟨⟨inner, left⟩, behind, run⟩ := Outcome.bind_eq_ok_iff.mp run
    dsimp only at run
    split at run
    · cases run
    next positive =>
      cases run
      obtain ⟨whole, same⟩ := ih behind
      refine ⟨?_, fun other run => ?_⟩
      · rw [whole, List.prod_cons, Nat.mul_comm, Nat.div_div_eq_div_mul]
      · obtain ⟨⟨inner', left'⟩, behind', run⟩ := Outcome.bind_eq_ok_iff.mp run
        dsimp only at run
        rw [if_neg positive] at run
        obtain ⟨⟨digit, rfl⟩, row⟩ : (left' % length = left % length ∧ inner' = inner)
            ∧ left' / length = left / length := by simpa [pure, Except.pure] using run
        have : left' = left := by
          rw [← Nat.div_add_mod left' length, ← Nat.div_add_mod left length, digit, row]
        exact same other (this ▸ behind')

/-- Positions of a shape with the same coordinates are the same. -/
theorem coordinates_injective {shape : Shape} {i j : Nat} (small : i < shape.prod)
    (small' : j < shape.prod) {indices : List Nat} (run : shape.coordinates i = .ok indices)
    (run' : shape.coordinates j = .ok indices) : i = j := by
  obtain ⟨⟨_, left⟩, first, same⟩ := Outcome.bind_eq_ok_iff.mp run
  obtain ⟨⟨_, left'⟩, second, same'⟩ := Outcome.bind_eq_ok_iff.mp run'
  cases same
  cases same'
  obtain ⟨whole, only⟩ := unfold_eq_ok first
  obtain ⟨whole', -⟩ := unfold_eq_ok second
  rw [Nat.div_eq_of_lt small] at whole
  rw [Nat.div_eq_of_lt small'] at whole'
  rw [whole] at only
  exact (only j (whole' ▸ second)).symm

/-- Indices on the same axes that lead to the same position are the same. -/
theorem position_injective {shape : Shape} {strides indices indices' : List Nat}
    (success : Shape.strides shape = .ok strides) (onAxes : List.Forall₂ (· < ·) indices shape)
    (onAxes' : List.Forall₂ (· < ·) indices' shape)
    (same : Size.total (List.zipWith (· * ·) indices strides)
      = Size.total (List.zipWith (· * ·) indices' strides)) : indices = indices' := by
  induction shape generalizing strides indices indices' with
  | nil =>
    cases onAxes
    cases onAxes'
    rfl
  | cons length rest ih =>
    cases onAxes with
    | @cons digit _ others _ below onAxes =>
      cases onAxes' with
      | @cons digit' _ others' _ below' onAxes' =>
        obtain ⟨inner, rfl, behind⟩ := strides_cons success
        rw [List.zipWith_cons_cons, List.zipWith_cons_cons, Size.total, Size.total] at same
        by_cases last : rest = []
        · subst last
          cases onAxes
          cases onAxes'
          simp only [List.prod_nil, Nat.mul_one, List.zipWith_nil_left, Size.total] at same
          rw [Nat.add_right_cancel same]
        · have small := position_lt (behind last) onAxes
          have small' := position_lt (behind last) onAxes'
          have high := congrArg (· / List.prod rest) same
          have low := congrArg (· % List.prod rest) same
          simp only [Nat.mul_comm _ (List.prod rest),
            Nat.mul_add_div (Nat.zero_lt_of_lt small), Nat.div_eq_of_lt small,
            Nat.div_eq_of_lt small', Nat.add_zero] at high
          simp only [Nat.mul_add_mod', Nat.mod_eq_of_lt small, Nat.mod_eq_of_lt small'] at low
          rw [high, ih (behind last) onAxes onAxes' low]

end Shape

end LayerNet
