import LayerNet.Operation.Rule

/-!
# Boxes — the part of a tensor between offsets

A slice takes the elements of a box. On the way back the gradient of the box is added at the places
it was taken from, as the shapes of both tensors stand by then: a box that no longer fits is fatal.
-/

namespace LayerNet

namespace Box

/-- The position in a tensor with the given strides of an element of the box. -/
def origin (offsets strides coordinates : List Nat) : Nat :=
  Size.total (List.zipWith (· * ·) (List.zipWith (· + ·) coordinates offsets) strides)

/-- The positions of all elements of the box, in its own row-major order. -/
def origins (offsets strides : List Nat) (sizes : Shape) (count : Nat) : Checked (List Nat) :=
  (List.range count).mapM fun i => do return origin offsets strides (← sizes.coordinates i)

/-- Whether a box lies inside a shape. -/
def fits (offsets sizes : List Nat) (shape : Shape) : Bool :=
  offsets.length == shape.rank && sizes.length == shape.rank
    && (offsets.zip (sizes.zip shape)).all fun (offset, size, extent) => offset + size ≤ extent

/-- The far corner of a box, as far as signed numbers reach. -/
def corner (offsets sizes : List Nat) : List Int :=
  List.zipWith (fun offset size => (min (offset + size) Size.signedMax : Nat)) offsets sizes

end Box

/-- The box of a tensor at the given offsets. -/
def Content.slice (x : Content) (offsets sizes : List Nat) : Checked Computed := do
  if !Box.fits offsets sizes x.shape then
    Outcome.fail (.outOfRange (Box.corner offsets sizes) x.shape "slice")
  else
    let count ← Shape.elements sizes
    let origins ← Box.origins offsets x.strides sizes count
    let output ← Content.make (origins.map x.values.element).toArray sizes
    return Computed.single output fun seen => do
      let gradient := seen.gradient 0
      let origins ← Box.origins offsets (seen.input 0).strides (seen.output 0).shape gradient.size
      return [.sparse (origins.zip gradient.toList)]

end LayerNet
