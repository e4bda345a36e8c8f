import LayerNet.TensorError

/-!
# Shapes — axis lengths and row-major addressing

A shape lists the axis lengths; a valid one has at least one axis and none of length zero. Elements
stand in row-major order: the last axis moves fastest, and the stride of an axis is the product of
the lengths after it.

Around an axis a row-major buffer falls into `outer` blocks of `length` runs of `inner` elements
(`Shape.blocks`), which is how every operation along an axis addresses it.
-/

namespace LayerNet

/-- The axis lengths, outermost first. -/
abbrev Shape := List Nat

namespace Shape

/-- At least one axis, and none of length zero. -/
def IsValid (shape : Shape) : Prop := shape ≠ [] ∧ 0 ∉ shape

instance (shape : Shape) : Decidable shape.IsValid := inferInstanceAs (Decidable (_ ∧ _))

/-- Refuses a shape that is not valid. -/
def validate (shape : Shape) : Checked Unit :=
  if shape.IsValid then .ok () else Outcome.fail (.invalidShape shape)

/-- A shape passes exactly when it is valid. -/
theorem validate_eq_ok_iff (shape : Shape) : shape.validate = .ok () ↔ shape.IsValid := by
  unfold validate
  split <;> simp_all [Outcome.fail]

/-- The number of elements. -/
def elements (shape : Shape) : Checked Nat := Size.product shape

/-- The stride of every axis. -/
def strides : Shape → Checked (List Nat)
  | [] => .ok []
  | [_] => .ok [1]
  | _ :: next :: rest => do
    let inner ← strides (next :: rest)
    let stride ← Size.mul (inner.headD 1) next
    return stride :: inner

/-- The coordinates of a row-major position, and what the axes could not take up. -/
def unfold (position : Nat) : Shape → Checked (List Nat × Nat)
  | [] => .ok ([], position)
  | length :: rest => do
    let (coordinates, remaining) ← unfold position rest
    if length = 0 then Outcome.fatal
    else return (remaining % length :: coordinates, remaining / length)

/-- The coordinates of a row-major position. -/
def coordinates (position : Nat) (shape : Shape) : Checked (List Nat) := do
  return (← unfold position shape).1

/-- What an axis splits a buffer into. -/
structure Blocks where
  outer : Nat
  length : Nat
  inner : Nat
  deriving Repr, DecidableEq

/-- The blocks around an axis, which has to be there. -/
def blocks (shape : Shape) (axis : Nat) : Checked Blocks := do
  let length ← Outcome.get shape[axis]?
  let outer ← Size.product (shape.take axis)
  let inner ← Size.product (shape.drop (axis + 1))
  return ⟨outer, length, inner⟩

/-- An axis number below a bound: the rank for an axis that is there, one more for an axis that is
to be inserted. -/
def axis (number : Int) (bound : Nat) (operation : String) : Checked Nat :=
  if number < 0 then Outcome.fail (.negativeAxis number operation)
  else if bound ≤ number.toNat then Outcome.fail (.axisOutOfRange number.toNat bound operation)
  else .ok number.toNat

/-- The number of axes. -/
def rank (shape : Shape) : Nat := shape.length

/-- The length of an axis, zero where there is none. -/
def extent (shape : Shape) (axis : Nat) : Nat := shape.getD axis 0

/-- The length of the last axis. -/
def width (shape : Shape) : Nat := shape.getLastD 0

end Shape

end LayerNet
