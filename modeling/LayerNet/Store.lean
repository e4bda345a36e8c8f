import LayerNet.Tensor

/-!
# The store — tensors by identity

Layers, optimizers and recorded operations refer to tensors by identity (`TensorId`), so that all of
them see a change of values or gradient. The store never forgets a tensor; a view is added with the
identity of its source's buffer, and writing values gives a tensor a buffer of its own.
-/

namespace LayerNet

/-- The identity of a tensor. -/
structure TensorId where
  index : Nat
  deriving Repr, DecidableEq, Inhabited

/-- The tensors so far, and how many buffers they have had. -/
structure Store where
  tensors : Array Tensor
  buffers : Nat

namespace Store

/-- No tensors. -/
def empty : Store := ⟨#[], 0⟩

instance : Inhabited Store := ⟨empty⟩

/-- The tensor with an identity. -/
def get? (s : Store) (id : TensorId) : Option Tensor := s.tensors[id.index]?

/-- The tensor with an identity, which has to be there. -/
def tensor {ε : Type} (s : Store) (id : TensorId) : Outcome ε Tensor := Outcome.get (s.get? id)

/-- The tensor with an identity replaced. -/
def put (s : Store) (id : TensorId) (t : Tensor) : Store :=
  { s with tensors := s.tensors.setIfInBounds id.index t }

/-- The tensor with an identity changed. -/
def update (s : Store) (id : TensorId) (f : Tensor → Tensor) : Store :=
  { s with tensors := s.tensors.modify id.index f }

/-- A new tensor with a buffer of its own. -/
def add (s : Store) (content : Content) (name : Option String) : TensorId × Store :=
  (⟨s.tensors.size⟩, ⟨s.tensors.push ⟨content, name, ⟨s.buffers⟩, none⟩, s.buffers + 1⟩)

/-- A new tensor that shares the buffer of another. -/
def addView (s : Store) (content : Content) (buffer : BufferId) : TensorId × Store :=
  (⟨s.tensors.size⟩, { s with tensors := s.tensors.push ⟨content, none, buffer, none⟩ })

/-- The values of a tensor changed, in a buffer that no other tensor shares. The number of
elements has to stay. -/
def mapValues (s : Store) (id : TensorId) (f : Buffer → Buffer) : Store :=
  { s.update id fun t => { t with values := f t.values, buffer := ⟨s.buffers⟩ } with
    buffers := s.buffers + 1 }

/-- The tensor with an identity under another name. -/
def rename (s : Store) (id : TensorId) (name : String) : Store :=
  s.update id fun t => { t with name := some name }

/-- The tensor with an identity filled with one value. -/
def fill (s : Store) (id : TensorId) (value : Float32) : Store :=
  s.mapValues id fun values => Buffer.filled values.size value

/-- The gradient of a tensor dropped. -/
def dropGradient (s : Store) (id : TensorId) : Store :=
  s.update id fun t => { t with gradient := none }

/-- Two tensors are equal when they are the same or agree in shape and values. -/
def equal {ε : Type} (s : Store) (a b : TensorId) : Outcome ε Bool := do
  let left ← s.tensor a
  let right ← s.tensor b
  return a == b || left.agrees right

/-- Whether two tensors share one buffer. -/
def sharesValues {ε : Type} (s : Store) (a b : TensorId) : Outcome ε Bool := do
  return (← s.tensor a).buffer = (← s.tensor b).buffer

/-! ## What each change does to the tensors -/

/-- A new tensor is there under its identity. -/
theorem get?_add (s : Store) (content : Content) (name : Option String) :
    (s.add content name).2.get? (s.add content name).1
      = some ⟨content, name, ⟨s.buffers⟩, none⟩ := by
  simp [add, get?]

/-- A new tensor leaves those before it as they were. -/
theorem get?_add_of_lt (s : Store) (content : Content) (name : Option String) {id : TensorId}
    (h : id.index < s.tensors.size) : (s.add content name).2.get? id = s.get? id := by
  simp [add, get?, Array.getElem?_push, Nat.ne_of_lt h]

/-- A new view is there under its identity. -/
theorem get?_addView (s : Store) (content : Content) (buffer : BufferId) :
    (s.addView content buffer).2.get? (s.addView content buffer).1
      = some ⟨content, none, buffer, none⟩ := by
  simp [addView, get?]

/-- A change reaches the tensor with that identity and no other. -/
theorem get?_update (s : Store) (id other : TensorId) (f : Tensor → Tensor) :
    (s.update id f).get? other = if id = other then (s.get? other).map f else s.get? other := by
  cases id
  cases other
  simp [update, get?, Array.getElem?_modify]

/-- A tensor that replaces another is there under its identity. -/
theorem get?_put (s : Store) {id : TensorId} (t : Tensor) (h : id.index < s.tensors.size) :
    (s.put id t).get? id = some t := by
  simp [put, get?, h]

/-- A tensor that replaces another leaves all others as they were. -/
theorem get?_put_of_ne (s : Store) {id other : TensorId} (t : Tensor) (h : id ≠ other) :
    (s.put id t).get? other = s.get? other := by
  have indices : id.index ≠ other.index := by
    intro same
    cases id
    cases other
    exact h (congrArg TensorId.mk same)
  simp [put, get?, indices]

end Store

end LayerNet
