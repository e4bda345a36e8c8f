import LayerNet.Session

/-!
# Access — what the holder of a tensor does to it in place

A tensor can be read and changed without an operation, and no session records that. Its shape is
replaced by another of the same count (`Access.reshape`), amounts are added to its gradient
(`Access.accumulate`), and its values and its gradient are edited where they are
(`Access.editValues`, `Access.editGradient`). Only the first two can be refused, and then nothing
happens (`Access.amend`).

An edit is handed the elements and leaves as many (`Edit`).
-/

namespace LayerNet

/-- A change of elements in place: however many there are, there are as many afterwards. -/
structure Edit where
  function : Buffer → Buffer
  size : ∀ b, (function b).size = b.size

namespace Edit

/-- Every element changed in the same way. -/
def each (f : Float32 → Float32) : Edit := ⟨(·.map f), fun _ => Array.size_map⟩

/-- Every element replaced by one value. -/
def fill (value : Float32) : Edit :=
  ⟨fun b => Buffer.filled b.size value, fun _ => Array.size_replicate⟩

/-- The first elements replaced by the given ones, as far as there are elements. -/
def overwrite (values : Buffer) : Edit where
  function b := values.take b.size ++ b.drop values.size
  size b := by
    simp only [Array.size_append, Array.take_eq_extract, Array.drop_eq_extract, Array.size_extract]
    omega

/-- Every element replaced by what a function gives for its position. -/
def tabulate (f : Nat → Float32) : Edit :=
  ⟨fun b => Buffer.tabulate b.size f, fun _ => by simp [Buffer.tabulate]⟩

end Edit

namespace Access

/-- Replaces a tensor by what a computation makes of it. Where that fails, nothing happens. -/
def amend (id : TensorId) (f : Tensor → Checked Tensor) : Step TensorError Unit := do
  let tensor ← Step.tensor id
  let amended ← Step.lift (f tensor)
  Step.modifyStore fun s => s.put id amended

/-- Gives a tensor another shape of the same count. Its values stay where they are. -/
def reshape (id : TensorId) (shape : Shape) : Step TensorError Unit :=
  amend id fun t => do return { t with toContent := ← t.toContent.reshape shape }

/-- Adds amounts to the gradient of a tensor, one for each element. -/
def accumulate (id : TensorId) (amounts : Buffer) : Step TensorError Unit :=
  amend id fun t => t.accumulate amounts

/-- The gradient of a tensor, which is allocated if it has to be. -/
def gradient (id : TensorId) : Step TensorError Buffer := do
  Step.modifyStore fun s => s.update id Tensor.allocate
  return (← Step.tensor id).gradientOrZeros

/-- Edits the values of a tensor, in a buffer that no other tensor shares. -/
def editValues (id : TensorId) (edit : Edit) : Step TensorError Unit :=
  Step.modifyStore fun s => s.mapValues id edit.function

/-- Edits the gradient of a tensor, which is allocated if it has to be. -/
def editGradient (id : TensorId) (edit : Edit) : Step TensorError Unit :=
  Step.modifyStore fun s => s.update id fun t =>
    { t with gradient := some (edit.function t.gradientOrZeros) }

/-- Drops the gradient of a tensor. -/
def dropGradient (id : TensorId) : Step TensorError Unit :=
  Step.modifyStore fun s => s.dropGradient id

/-- Gives a tensor another name. -/
def rename (id : TensorId) (name : String) : Step TensorError Unit :=
  Step.modifyStore fun s => s.rename id name

end Access

end LayerNet
