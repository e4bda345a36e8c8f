import LayerNet.Buffer
import LayerNet.Shape

/-!
# Tensors — shaped buffers with a gradient

The content of a tensor is a valid shape, its strides and a buffer with one element for each
position (`Content`). `Content.make` builds contents: the shape is checked first, then the number of
elements, and last that all of them are finite, which is not an error but the end of the run.

A tensor adds what can change while others refer to it: a name, the identity of its buffer, which
views share until the values are written, and a gradient, which is allocated when it is first
needed. Gradients are only ever added to (`Tensor.accumulate`, `Tensor.scatter`).
-/

namespace LayerNet

/-- A shape, its strides and its elements in row-major order. -/
structure Content where
  shape : Shape
  strides : List Nat
  values : Buffer

namespace Content

/-- The content of a new tensor. -/
def make (values : Buffer) (shape : Shape) : Checked Content := do
  shape.validate
  let count ← Shape.elements shape
  if values.size ≠ count then Outcome.fail (.shapeMismatch shape [values.size] "TensorData::new")
  else if values.nonFinite?.isSome then Outcome.stop .nonFinite
  else return ⟨shape, ← shape.strides, values⟩

/-- A new content has the shape and the values that it was made of, one for each position. -/
theorem of_make_eq_ok {values : Buffer} {shape : Shape} {c : Content}
    (h : make values shape = .ok c) :
    c.shape = shape ∧ c.values = values ∧ shape.IsValid ∧ shape.elements = .ok values.size
      ∧ values.nonFinite? = none := by
  simp only [make, Outcome.bind_eq_ok_iff] at h
  obtain ⟨_, valid, count, elements, built⟩ := h
  rw [Shape.validate_eq_ok_iff] at valid
  split at built
  · simp [Outcome.fail] at built
  next sizes =>
    split at built
    · simp [Outcome.stop] at built
    next finite =>
      obtain ⟨strides, -, made⟩ := Outcome.bind_eq_ok_iff.1 built
      cases made
      simp_all

/-- The number of elements. -/
def count (c : Content) : Nat := c.values.size

/-- The offset with one more axis taken in, whose index has to be below its length. -/
def advance (refusal : TensorError) (offset : Nat) : Int × Nat × Nat → Checked Nat
  | (index, length, stride) =>
    if index < 0 ∨ length ≤ index.toNat then Outcome.fail refusal
    else do Size.add offset (← Size.mul index.toNat stride)

/-- The row-major position of an index list, which has one index for each axis. -/
def position (c : Content) (indices : List Int) : Checked Nat :=
  let refusal := TensorError.outOfRange indices c.shape "position"
  if indices.length ≠ c.shape.length then Outcome.fail refusal
  else (indices.zip (c.shape.zip c.strides)).foldlM (advance refusal) 0

/-- The element at an index list. -/
def get (c : Content) (indices : List Int) : Checked Float32 := do
  Outcome.get c.values[← c.position indices]?

/-- The same elements under another shape of the same count. -/
def reshape (c : Content) (shape : Shape) : Checked Content := do
  shape.validate
  let count ← Shape.elements shape
  if count ≠ c.count then Outcome.fail (.shapeMismatch c.shape shape "reshape")
  else return { c with shape, strides := ← shape.strides }

end Content

/-- The identity of a buffer: two tensors with the same share their values. -/
structure BufferId where
  index : Nat
  deriving Repr, DecidableEq

/-- A content with a name, the identity of its buffer and a gradient. -/
structure Tensor extends Content where
  name : Option String
  buffer : BufferId
  gradient : Option Buffer

namespace Tensor

/-- The gradient, all zeros where none is allocated. -/
def gradientOrZeros (t : Tensor) : Buffer := t.gradient.getD (Buffer.zeros t.count)

/-- The tensor with its gradient allocated. -/
def allocate (t : Tensor) : Tensor := { t with gradient := some t.gradientOrZeros }

/-- Adds a buffer of the tensor's size to its gradient. -/
def accumulate (t : Tensor) (delta : Buffer) : Checked Tensor :=
  if delta.size ≠ t.count then Outcome.fail (.shapeMismatch t.shape [delta.size] "accumulate_grad")
  else .ok { t with gradient := some (Buffer.combine (· + ·) t.gradientOrZeros delta) }

/-- Adds at single positions of the gradient, all of which have to be there. -/
def scatter (t : Tensor) (additions : List (Nat × Float32)) : Checked Tensor :=
  if additions.all fun (position, _) => position < t.count then
    .ok { t with gradient := some (t.gradientOrZeros.addAll additions) }
  else Outcome.fatal

/-- Refuses a tensor with an element that is infinite or no number. -/
def checkFinite (t : Tensor) : Checked Unit :=
  match t.values.nonFinite? with
  | some position => Outcome.fail (.nonFiniteValue t.name position (t.values.element position))
  | none => .ok ()

/-- Whether shapes and values agree; names and gradients do not count. -/
def agrees (a b : Tensor) : Bool :=
  a.shape == b.shape && a.values.size == b.values.size
    && (Array.zipWith (· == ·) a.values b.values).all id

/-- How many elements `describe` shows. -/
def previewLength : Nat := 8

/-- The tensor in one line: name, shape, first elements, and whether it has a gradient. -/
def describe (t : Tensor) : String :=
  let preview := (t.values.toList.take previewLength).map Decimal.pointed
  "Tensor(name=" ++ Text.orNone (t.name.map Text.quoted)
    ++ ", shape=" ++ Text.numbers t.shape
    ++ ", values=" ++ Text.listed preview ++ (if previewLength < t.count then "..." else "")
    ++ ", has_grad=" ++ toString t.gradient.isSome ++ ")"

end Tensor

end LayerNet
