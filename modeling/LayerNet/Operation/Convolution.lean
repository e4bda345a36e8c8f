import LayerNet.Operation.Rule

/-!
# Convolution — a window slid over padded images

Images are `[batch, height, width, channels]`, a kernel is `[height, width, channels, filters]`.
A tap is one meeting of a window position with a kernel position whose pixel lies inside the image;
taps come in row-major order of batch, window and kernel (`Convolution.taps`). Forward, every tap
adds pixel times weight, channel by channel, to the filters of its window; backward it adds to the
pixel and to the weight.
-/

namespace LayerNet

/-- Steps between windows and rims of zeros, along height and width. -/
structure Windowing where
  stride : Nat × Nat
  padding : Nat × Nat
  deriving Repr, DecidableEq

namespace Windowing

/-- Every position, and no rim. -/
def dense : Windowing := ⟨(1, 1), (0, 0)⟩

/-- How many windows fit along an axis, if any does and the step is not zero. -/
def extent {ε : Type} (input kernel stride padding : Nat) : Outcome ε (Option Nat) := do
  let padded ← Size.add input (← Size.mul 2 padding)
  if stride = 0 ∨ padded < kernel then return none
  else return some (← Size.add ((padded - kernel) / stride) 1)

/-- How many windows fit along height and width, if any does along both. -/
def extents {ε : Type} (w : Windowing) (height width kernelHeight kernelWidth : Nat) :
    Outcome ε (Option (Nat × Nat)) := do
  let rows ← extent height kernelHeight w.stride.1 w.padding.1
  let columns ← extent width kernelWidth w.stride.2 w.padding.2
  return (rows.bind fun r => columns.map fun c => (r, c))

end Windowing

/-- The extents that a convolution runs over. -/
structure Convolution where
  batch : Nat
  height : Nat
  width : Nat
  channels : Nat
  kernelHeight : Nat
  kernelWidth : Nat
  filters : Nat
  rows : Nat
  columns : Nat
  windowing : Windowing
  deriving Repr, DecidableEq

/-- Where a tap begins: its pixel, its weights and its window's results. -/
structure Tap where
  pixel : Nat
  weight : Nat
  result : Nat
  deriving Repr, DecidableEq

namespace Convolution

/-- The kernel offsets along an axis whose padded pixel lies inside the image, with that pixel. -/
def inside (window stride padding kernel extent : Nat) : List (Nat × Nat) :=
  (List.range kernel).filterMap fun k =>
    let i := window * stride + k
    if i < padding ∨ extent ≤ i - padding then none else some (k, i - padding)

/-- The taps of one window. -/
def windowTaps (g : Convolution) (sample row column : Nat) : List Tap :=
  let across := inside column g.windowing.stride.2 g.windowing.padding.2 g.kernelWidth g.width
  let down := inside row g.windowing.stride.1 g.windowing.padding.1 g.kernelHeight g.height
  down.flatMap fun (ky, iy) =>
    across.map fun (kx, ix) =>
      { pixel := ((sample * g.height + iy) * g.width + ix) * g.channels
        weight := (ky * g.kernelWidth + kx) * g.channels * g.filters
        result := ((sample * g.rows + row) * g.columns + column) * g.filters }

/-- All taps. -/
def taps (g : Convolution) : List Tap :=
  (List.range g.batch).flatMap fun sample =>
    (List.range g.rows).flatMap fun row =>
      (List.range g.columns).flatMap fun column => g.windowTaps sample row column

/-- A buffer with what every tap adds. -/
def addTaps (g : Convolution) (terms : Tap → List (Nat × Float32)) (b : Buffer) : Buffer :=
  g.taps.foldl (fun b t => b.addAll (terms t)) b

/-- What a tap adds to the results: for each channel, pixel times weight to each filter. -/
def forwardTerms (g : Convolution) (x w : Buffer) (t : Tap) : List (Nat × Float32) :=
  (List.range g.channels).flatMap fun c =>
    (List.range g.filters).map fun n =>
      (t.result + n, x.element (t.pixel + c) * w.element (t.weight + c * g.filters + n))

/-- The results: the bias in every window, and what the taps add. -/
def forward (g : Convolution) (x w bias : Buffer) : Buffer :=
  let size := g.batch * g.rows * g.columns * g.filters
  let start := Buffer.tabulate size fun i => bias.element (i % g.filters)
  g.addTaps (g.forwardTerms x w) start

/-- What a tap adds to the gradient of its pixels. -/
def pixelTerms (g : Convolution) (w gradient : Buffer) (t : Tap) : List (Nat × Float32) :=
  (List.range g.channels).map fun c =>
    (t.pixel + c, Buffer.tally ((List.range g.filters).map fun n =>
      gradient.element (t.result + n) * w.element (t.weight + c * g.filters + n)))

/-- What a tap adds to the gradient of its weights. -/
def weightTerms (g : Convolution) (x gradient : Buffer) (t : Tap) : List (Nat × Float32) :=
  (List.range g.channels).flatMap fun c =>
    (List.range g.filters).map fun n =>
      (t.weight + c * g.filters + n, x.element (t.pixel + c) * gradient.element (t.result + n))

/-- The sums of the gradient over all windows, filter by filter. -/
def biasGradient (g : Convolution) (gradient : Buffer) : Buffer :=
  Buffer.tabulate g.filters fun n =>
    Buffer.tally ((List.range (g.batch * g.rows * g.columns)).map fun window =>
      gradient.element (window * g.filters + n))

/-- The gradients of image, kernel and bias. -/
def rule (g : Convolution) : Rule := fun seen =>
  let x := (seen.input 0).values
  let w := (seen.input 1).values
  let gradient := seen.gradient 0
  .ok [.whole (g.addTaps (g.pixelTerms w gradient) (Buffer.zeros x.size)),
    .whole (g.addTaps (g.weightTerms x gradient) (Buffer.zeros w.size)),
    .whole (g.biasGradient gradient)]

end Convolution

/-- The convolution of images with a kernel, plus a bias for each filter. -/
def Content.conv2d (x kernel bias : Content) (windowing : Windowing) : Checked Computed := do
  match x.shape, kernel.shape with
  | [batch, height, width, channels], [kernelHeight, kernelWidth, channels', filters] =>
    if channels ≠ channels' then Outcome.fail (.shapeMismatch x.shape kernel.shape "conv2d")
    else if bias.shape ≠ [filters] then Outcome.fail (.shapeMismatch [filters] bias.shape "conv2d")
    else
      match ← windowing.extents height width kernelHeight kernelWidth with
      | none => Outcome.fail (.shapeMismatch [kernelHeight, kernelWidth] [height, width] "conv2d")
      | some (rows, columns) =>
        let g : Convolution := {
          batch, height, width, channels, kernelHeight, kernelWidth, filters, rows, columns,
          windowing }
        let shape := [batch, rows, columns, filters]
        let count ← Shape.elements shape
        if Size.signedMax < 4 * count then Outcome.stop .overflow
        else
          let output ← Content.make (g.forward x.values kernel.values bias.values) shape
          return Computed.single output g.rule
  | _, _ => Outcome.fail (.shapeMismatch x.shape kernel.shape "conv2d")

end LayerNet
