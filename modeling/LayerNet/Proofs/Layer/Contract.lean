import LayerNet.Layer.Forward
import LayerNet.Proofs.Session.Shapes

/-!
# Contracts — what a layer can be handed

A layer accepts a list of sample shapes when its settings and the shapes of its parameters are such
that tensors of these shapes can run through (`Layer.Accepts`). What it gives then is told by its
settings alone: `Layer.outputCount` tensors of shape `Layer.outputShape`.

The judgment depends on the store only through the shapes of the layer's parameters
(`Accepts.of_shapes`), and not on the order of the shapes (`Accepts.perm`): a concatenation is the
only layer that takes several, and it only adds up their widths.
-/

namespace LayerNet

/-- A layer, with parameters of the shapes they have in the store, fits samples of the shapes. -/
inductive Layer.Accepts (s : Store) : Layer → List Shape → Prop where
  | input (shape : Shape) : Accepts s (.input shape) [shape]
  | fullyConnected {shape : Shape} {units : Nat} {weight bias : TensorId} :
    s.shape? weight = some [shape.prod, units] → s.shape? bias = some [units] →
    Accepts s (.fullyConnected shape [units] weight bias) [shape]
  /-- The windows were counted for the kernel's extents. -/
  | convolution {height width channels size filters rows columns : Nat} {windowing : Windowing}
    {kernel bias : TensorId} :
    windowing.extents height width size size = (.ok (some (rows, columns)) : Checked _) →
    s.shape? kernel = some [size, size, channels, filters] → s.shape? bias = some [filters] →
    Accepts s (.convolution [height, width, channels] [rows, columns, filters] windowing kernel
      bias) [[height, width, channels]]
  /-- The windows leave no rest. -/
  | pool (pooling : Pooling) {size height width channels : Nat} :
    size ≠ 0 → height % size = 0 → width % size = 0 →
    Accepts s (.pool pooling size [height, width, channels] [height / size, width / size, channels])
      [[height, width, channels]]
  | recurrent {steps units : Nat} {frame : Shape} (summarize : Bool)
    {inputWeight stateWeight bias : TensorId} :
    frame ≠ [] → s.shape? inputWeight = some [frame.prod, units] →
    s.shape? stateWeight = some [units, units] → s.shape? bias = some [units] →
    Accepts s (.recurrent (steps :: frame) (if summarize then [units] else [steps, units]) summarize
      inputWeight stateWeight bias) [steps :: frame]
  | dropout {keep : Float32} (shape : Shape) : 0 < keep ∧ keep ≤ 1 →
    Accepts s (.dropout keep shape) [shape]
  | scale (factor : Float32) (shape : Shape) : Accepts s (.scale factor shape) [shape]
  | normalization {settings : Normalization} (shape : Shape) :
    settings.size ≠ 0 → ¬ settings.k ≤ 0 → Accepts s (.normalization settings shape) [shape]
  | split (branches : Nat) (shape : Shape) : Accepts s (.split branches shape) [shape]
  /-- The shapes differ in their widths only, and these add up. -/
  | concat {shapes : List Shape} {shape : Shape} : shapes ≠ [] → shape ≠ [] →
    (∀ other ∈ shapes, other.rank = shape.rank
      ∧ other.take (shape.rank - 1) = shape.take (shape.rank - 1)) →
    Size.total (shapes.map Shape.width) = shape.width →
    Accepts s (.concat shapes.length shape) shapes
  | activation (activation : Activation) (shape : Shape) :
    Accepts s (.activation activation shape) [shape]
  | loss (loss : Loss) (shape : Shape) : Accepts s (.loss loss shape) [shape]

namespace Layer.Accepts

variable {layer : Layer} {shapes : List Shape}

/-- Another store in which the parameters have the same shapes will do. -/
theorem of_shapes {before after : Store} (accepts : layer.Accepts before shapes)
    (kept : ∀ id shape, before.shape? id = some shape → after.shape? id = some shape) :
    layer.Accepts after shapes := by
  cases accepts with
  | input shape => exact .input shape
  | fullyConnected weight bias => exact .fullyConnected (kept _ _ weight) (kept _ _ bias)
  | convolution windows kernel bias =>
    exact .convolution windows (kept _ _ kernel) (kept _ _ bias)
  | pool pooling size rows columns => exact .pool pooling size rows columns
  | recurrent summarize frame input state bias =>
    exact .recurrent summarize frame (kept _ _ input) (kept _ _ state) (kept _ _ bias)
  | dropout shape probability => exact .dropout shape probability
  | scale factor shape => exact .scale factor shape
  | normalization shape window offset => exact .normalization shape window offset
  | split branches shape => exact .split branches shape
  | concat some ranked agree widths => exact .concat some ranked agree widths
  | activation activation shape => exact .activation activation shape
  | loss loss shape => exact .loss loss shape

theorem keeps {before after : Store} (accepts : layer.Accepts before shapes)
    (kept : before.Keeps after) : layer.Accepts after shapes :=
  accepts.of_shapes fun _ _ shaped => kept.shape? shaped

theorem evolves {before after : Store} (accepts : layer.Accepts before shapes)
    (evolves : before.Evolves after) : layer.Accepts after shapes :=
  accepts.of_shapes evolves.shape?

theorem perm {s : Store} {shapes' : List Shape} (accepts : layer.Accepts s shapes)
    (same : shapes.Perm shapes') : layer.Accepts s shapes' := by
  cases accepts with
  | concat some ranked agree widths =>
    rw [same.length_eq]
    refine .concat (fun empty => some ?_) ranked
      (fun other member => agree other (same.mem_iff.mpr member)) ?_
    · rw [empty] at same
      exact same.eq_nil
    · rw [← widths]
      exact Size.total_perm (same.map Shape.width).symm
  | _ =>
    obtain rfl := List.perm_singleton.mp same.symm
    constructor <;> assumption

end Layer.Accepts

end LayerNet
