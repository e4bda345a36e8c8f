import LayerNet.Operation.Box
import LayerNet.Proofs.Addressing
import Mathlib.Tactic.Ring

/-!
# Coordinates — the digits of a position, and the position of indices

The coordinates of a position are its digits, each axis counting the elements behind it
(`Shape.digits`). Multiplied by the strides they add up to the position again
(`Shape.total_digits`).

Around one axis a position has three parts: the block before the axis, the place on it and the place
in the run behind it. Two positions in shapes that differ on that axis alone, with the same block
and the same place in the run, have the same coordinates on all other axes (`Shape.digits_set`). And
coordinates of the one shape, multiplied by the strides of the other, lead to the same block and as
far into it (`Shape.total_digits_set`), while an offset on the axis leads over whole runs
(`Shape.total_offset`). All of this is by recursion along the shape, as the coordinates are.

A list of indices, one for each axis, leads to a row-major position (`Shape.index`). For indices on
their axes it is a position inside the shape, its digits are the indices again
(`Shape.digits_index`), and every position of the shape is reached so (`Shape.index_digits`). Both
directions are by recursion along the shape: an index weighs as much as there are elements behind
its axis.
-/

namespace LayerNet

theorem Size.total_add {as bs : List Nat} (strides : List Nat) (same : as.length = bs.length) :
    total (List.zipWith (· * ·) (List.zipWith (· + ·) as bs) strides)
      = total (List.zipWith (· * ·) as strides) + total (List.zipWith (· * ·) bs strides) := by
  induction as generalizing bs strides with
  | nil =>
    obtain rfl := List.eq_nil_of_length_eq_zero same.symm
    simp [total]
  | cons a as ih =>
    obtain ⟨b, bs, rfl⟩ := List.exists_cons_of_length_eq_add_one same.symm
    cases strides with
    | nil => rfl
    | cons stride strides =>
      simp only [List.zipWith_cons_cons, total, ih strides (Nat.succ.inj same), Nat.add_mul]
      omega

theorem Size.total_zeros (count : Nat) (strides : List Nat) :
    total (List.zipWith (· * ·) (List.replicate count 0) strides) = 0 := by
  induction count generalizing strides with
  | zero => rfl
  | succ count ih =>
    cases strides with
    | nil => rfl
    | cons stride strides =>
      rw [List.replicate_succ, List.zipWith_cons_cons, total, Nat.zero_mul, ih]

namespace Shape

/-- The digits of a position: of each axis, how far along it is. -/
def digits (position : Nat) : Shape → List Nat
  | [] => []
  | length :: rest => position / rest.prod % length :: digits position rest

theorem length_digits (position : Nat) (shape : Shape) :
    (shape.digits position).length = shape.length := by
  induction shape with
  | nil => rfl
  | cons length rest ih => rw [digits, List.length_cons, List.length_cons, ih]

/-- In a shape without an empty axis, the coordinates of a position are its digits. -/
theorem coordinates_eq_digits (position : Nat) {shape : Shape} (inhabited : 0 ∉ shape) :
    shape.coordinates position = .ok (shape.digits position) := by
  have unfolds : shape.unfold position = .ok (shape.digits position, position / shape.prod) := by
    induction shape with
    | nil => rw [unfold, digits, List.prod_nil, Nat.div_one]
    | cons length rest ih =>
      rw [List.mem_cons, not_or] at inhabited
      simp only [unfold, ih inhabited.2, bind, Except.bind, if_neg (Ne.symm inhabited.1), pure,
        Except.pure, digits, List.prod_cons, Nat.div_div_eq_div_mul, Nat.mul_comm length]
  rw [coordinates, unfolds]
  rfl

/-- The digits depend on nothing before the shape. -/
theorem digits_congr {shape : Shape} {i j : Nat} (same : i % shape.prod = j % shape.prod) :
    shape.digits i = shape.digits j := by
  induction shape with
  | nil => rfl
  | cons length rest ih =>
    rw [List.prod_cons] at same
    have digit : i / rest.prod % length = j / rest.prod % length := by
      rw [← Nat.mod_mul_left_div_self, same, Nat.mod_mul_left_div_self]
    have behind : i % rest.prod = j % rest.prod := by
      rw [← Nat.mod_mul_left_mod i length, same, Nat.mod_mul_left_mod]
    rw [digits, digits, digit, ih behind]

/-- Multiplied by the strides, the digits add up to the position. -/
theorem total_digits {shape : Shape} {strides : List Nat}
    (stepped : shape ≠ [] → shape.strides = .ok strides) (position : Nat) :
    Size.total (List.zipWith (· * ·) (shape.digits position) strides)
      = position % shape.prod := by
  induction shape generalizing strides with
  | nil =>
    rw [List.prod_nil, Nat.mod_one]
    rfl
  | cons length rest ih =>
    obtain ⟨inner, rfl, behind⟩ := strides_cons (stepped (List.cons_ne_nil _ _))
    rw [digits, List.zipWith_cons_cons, Size.total, ih behind, List.prod_cons,
      Nat.mul_comm length, Nat.mod_mul, Nat.add_comm, Nat.mul_comm rest.prod]

section Axis

variable {shape : Shape} {axis length : Nat} (found : shape[axis]? = some length)
include found

/-- The elements of a shape with another length of an axis: the axis, what is behind it and what is
before it. -/
theorem prod_set_of_getElem? (length' : Nat) : (shape.set axis length').prod
    = length' * (shape.drop (axis + 1)).prod * (shape.take axis).prod := by
  obtain ⟨inside, -⟩ := List.getElem?_eq_some_iff.mp found
  rw [List.set_eq_take_append_cons_drop, if_pos inside, List.prod_append, List.prod_cons,
    Nat.mul_comm]

theorem prod_of_getElem? : shape.prod
    = length * (shape.drop (axis + 1)).prod * (shape.take axis).prod := by
  obtain ⟨inside, rfl⟩ := List.getElem?_eq_some_iff.mp found
  rw [← prod_set_of_getElem? found, List.set_getElem_self]

/-- The coordinate on the axis. -/
theorem getElem?_digits (position : Nat) : (shape.digits position)[axis]?
    = some (position / (shape.drop (axis + 1)).prod % length) := by
  induction shape generalizing axis with
  | nil => cases found
  | cons first rest ih =>
    cases axis with
    | zero =>
      cases found
      simp [digits]
    | succ axis =>
      rw [List.getElem?_cons_succ] at found
      rw [digits, List.getElem?_cons_succ, ih found, List.drop_succ_cons]

/-- Positions with the same block before an axis and the same place behind it have the same
coordinates but for the axis, where shapes may differ. -/
theorem digits_set (length' : Nat) {i j : Nat}
    (blocks : i / (length * (shape.drop (axis + 1)).prod)
      = j / (length' * (shape.drop (axis + 1)).prod))
    (offsets : i % (shape.drop (axis + 1)).prod = j % (shape.drop (axis + 1)).prod) :
    shape.digits i = (Shape.digits j (shape.set axis length')).set axis
      (i / (shape.drop (axis + 1)).prod % length) := by
  induction shape generalizing axis with
  | nil => cases found
  | cons first rest ih =>
    cases axis with
    | zero =>
      cases found
      rw [List.set_cons_zero, digits, digits, List.set_cons_zero]
      exact congrArg _ (digits_congr offsets)
    | succ axis =>
      rw [List.getElem?_cons_succ] at found
      rw [List.drop_succ_cons] at blocks offsets ⊢
      have block : i / rest.prod = j / (rest.set axis length').prod := by
        rw [prod_of_getElem? found, prod_set_of_getElem? found, ← Nat.div_div_eq_div_mul, blocks,
          Nat.div_div_eq_div_mul]
      rw [List.set_cons_succ, digits, digits, List.set_cons_succ, block, ih found blocks offsets]

/-- In a shape, the coordinates of a position of another that differs on one axis lead to the same
block and as far into it. -/
theorem total_digits_set {strides : List Nat} (success : shape.strides = .ok strides)
    (length' position : Nat) :
    Size.total (List.zipWith (· * ·) (Shape.digits position (shape.set axis length')) strides)
      = position / (length' * (shape.drop (axis + 1)).prod) % (shape.take axis).prod
          * (length * (shape.drop (axis + 1)).prod)
        + position % (length' * (shape.drop (axis + 1)).prod) := by
  induction shape generalizing axis strides with
  | nil => cases found
  | cons first rest ih =>
    obtain ⟨inner, rfl, behind⟩ := strides_cons success
    cases axis with
    | zero =>
      cases found
      rw [List.set_cons_zero, digits, List.zipWith_cons_cons, Size.total, total_digits behind,
        List.take_zero, List.prod_nil, Nat.mod_one, Nat.zero_mul, Nat.zero_add, List.drop_one,
        List.tail_cons, Nat.mul_comm length', Nat.mod_mul, Nat.add_comm, Nat.mul_comm rest.prod]
    | succ axis =>
      rw [List.getElem?_cons_succ] at found
      have some : rest ≠ [] := List.ne_nil_of_length_pos
        (Nat.zero_lt_of_lt (List.getElem?_eq_some_iff.mp found).1)
      rw [List.set_cons_succ, digits, List.zipWith_cons_cons, Size.total,
        ih found (behind some), List.drop_succ_cons, List.take_succ_cons, List.prod_cons,
        prod_set_of_getElem? found, prod_of_getElem? found, ← Nat.div_div_eq_div_mul,
        ← Nat.add_assoc, Nat.mul_comm first, Nat.mod_mul (a := (rest.take axis).prod)]
      ring

/-- Along one axis, an offset leads over as many runs of what is behind the axis. -/
theorem total_offset {strides : List Nat} (success : shape.strides = .ok strides) (offset : Nat) :
    Size.total (List.zipWith (· * ·) ((List.replicate shape.length 0).set axis offset) strides)
      = offset * (shape.drop (axis + 1)).prod := by
  induction shape generalizing axis strides with
  | nil => cases found
  | cons first rest ih =>
    obtain ⟨inner, rfl, behind⟩ := strides_cons success
    rw [List.length_cons, List.replicate_succ]
    cases axis with
    | zero =>
      rw [List.set_cons_zero, List.zipWith_cons_cons, Size.total, Size.total_zeros, Nat.add_zero,
        List.drop_one, List.tail_cons]
    | succ axis =>
      rw [List.getElem?_cons_succ] at found
      have some : rest ≠ [] := List.ne_nil_of_length_pos
        (Nat.zero_lt_of_lt (List.getElem?_eq_some_iff.mp found).1)
      rw [List.set_cons_succ, List.zipWith_cons_cons, Size.total, Nat.zero_mul, Nat.zero_add,
        ih found (behind some), List.drop_succ_cons]

end Axis

end Shape

/-! ## Indices -/

/-- The upper digit of a number of two. -/
theorem mul_add_div {n a b : Nat} (low : b < n) : (a * n + b) / n = a := by
  rw [Nat.mul_comm, Nat.mul_add_div (Nat.zero_lt_of_lt low), Nat.div_eq_of_lt low, Nat.add_zero]

/-- The lower digit of a number of two. -/
theorem mul_add_mod {n a b : Nat} (low : b < n) : (a * n + b) % n = b := by
  rw [Nat.mul_add_mod', Nat.mod_eq_of_lt low]

/-- Numbers of two digits are equal when both digits are. -/
theorem mul_add_inj {n a a' b b' : Nat} (low : b < n) (low' : b' < n) :
    a * n + b = a' * n + b' ↔ a = a' ∧ b = b' := by
  constructor
  · intro same
    have high := congrArg (· / n) same
    have rest := congrArg (· % n) same
    simp only [mul_add_div low, mul_add_div low'] at high
    simp only [mul_add_mod low, mul_add_mod low'] at rest
    exact ⟨high, rest⟩
  · rintro ⟨rfl, rfl⟩
    rfl

/-- Numbers of two digits, in order. -/
theorem range_mul (m n : Nat) :
    List.range (m * n) = (List.range m).flatMap fun i => (List.range n).map fun j => i * n + j := by
  induction m with
  | zero => rw [Nat.zero_mul, List.range_zero, List.flatMap_nil]
  | succ m ih =>
    rw [Nat.add_mul, Nat.one_mul, List.range_add, ih, List.range_succ, List.flatMap_append,
      List.flatMap_singleton]

namespace Shape

/-- The row-major position of indices. -/
def index : Shape → List Nat → Nat
  | _ :: rest, i :: indices => i * rest.prod + index rest indices
  | _, _ => 0

variable {shape : Shape} {indices indices' : List Nat}

/-- On four axes: each index counts the elements behind its axis. -/
theorem index_four (a b c d i j k l : Nat) :
    index [a, b, c, d] [i, j, k, l] = ((i * b + j) * c + k) * d + l := by
  simp only [index, List.prod_cons, List.prod_nil]
  ring

/-- Indices on their axes lead into the shape. -/
theorem index_lt (onAxes : List.Forall₂ (· < ·) indices shape) : shape.index indices < shape.prod := by
  induction onAxes with
  | nil => exact Nat.one_pos
  | cons below _ ih =>
    rw [index, List.prod_cons]
    exact mul_add_lt below ih

/-- Indices on their axes are the digits of the position that they lead to. -/
theorem digits_index (onAxes : List.Forall₂ (· < ·) indices shape) :
    shape.digits (shape.index indices) = indices := by
  induction onAxes with
  | nil => rfl
  | @cons i length indices rest below onAxes ih =>
    have small := index_lt onAxes
    have digit : (i * rest.prod + index rest indices) / rest.prod % length = i := by
      rw [mul_add_div small, Nat.mod_eq_of_lt below]
    have behind : digits (i * rest.prod + index rest indices) rest = indices := by
      rw [digits_congr (Nat.mul_add_mod' i rest.prod _), ih]
    rw [index, digits, digit, behind]

/-- The digits of a position lead to it. -/
theorem index_digits {position : Nat} (small : position < shape.prod) :
    shape.index (shape.digits position) = position := by
  have rests : shape.index (shape.digits position) = position % shape.prod := by
    clear small
    induction shape with
    | nil =>
      rw [List.prod_nil, Nat.mod_one]
      rfl
    | cons length rest ih =>
      rw [digits, index, ih, List.prod_cons, Nat.mul_comm length, Nat.mod_mul, Nat.add_comm,
        Nat.mul_comm rest.prod]
  rw [rests, Nat.mod_eq_of_lt small]

/-- In a shape with elements, the digits of any position are on their axes. -/
theorem digits_lt (position : Nat) (some : 0 < shape.prod) :
    List.Forall₂ (· < ·) (shape.digits position) shape := by
  induction shape with
  | nil => exact .nil
  | cons length rest ih =>
    rw [List.prod_cons] at some
    exact .cons (Nat.mod_lt _ (Nat.pos_of_mul_pos_right some)) (ih (Nat.pos_of_mul_pos_left some))

/-- Indices on the same axes lead to one position only if they are the same. -/
theorem index_inj (onAxes : List.Forall₂ (· < ·) indices shape)
    (onAxes' : List.Forall₂ (· < ·) indices' shape) :
    shape.index indices = shape.index indices' ↔ indices = indices' := by
  constructor
  · intro same
    rw [← digits_index onAxes, same, digits_index onAxes']
  · rintro rfl
    rfl

end Shape

end LayerNet
