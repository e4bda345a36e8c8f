import LayerNet.Operation.Rule

/-!
# Response normalization — channels damped by their neighbours

Every channel of a pixel is divided by a power of `k + alpha · (sum of squares)` over the channels
around it. The window reaches half its size to both sides and is cut off at the first and the last
channel, so one channel lies in another's window exactly when the other lies in its own; the way
back sums over the same window.
-/

namespace LayerNet

/-- The settings of a response normalization. -/
structure Normalization where
  size : Nat
  alpha : Float32
  beta : Float32
  k : Float32

namespace Normalization

/-- Five channels, and a gentle damping. -/
def standard : Normalization := ⟨5, 1e-4, 0.75, 2⟩

/-- The channels around a channel. -/
def window (n : Normalization) (channel channels : Nat) : List Nat :=
  let half := n.size / 2
  let first := channel - half
  (List.range (min (channel + half + 1) channels - first)).map (first + ·)

/-- The sum of terms over the window of a channel. -/
def windowSum (n : Normalization) (terms : Buffer) (channel : Nat) : Float32 :=
  Buffer.sum ((n.window channel terms.size).map terms.element)

/-- What the channels of a pixel are divided by, before the power is taken. -/
def denominators (n : Normalization) (pixel : Buffer) : Buffer :=
  let squares := pixel.map fun x => x * x
  Buffer.tabulate pixel.size fun c => n.k + n.alpha * n.windowSum squares c

/-- A pixel normalized. -/
def forward (n : Normalization) (pixel : Buffer) : Buffer :=
  Buffer.combine (fun x d => x * Float32.pow d (-n.beta)) pixel (n.denominators pixel)

/-- What is added to the gradient of a pixel, from the gradient of its normalized channels. -/
def backward (n : Normalization) (pixel gradient : Buffer) : Buffer :=
  let ds := n.denominators pixel
  let terms := Buffer.tabulate pixel.size fun c =>
    gradient.element c * pixel.element c * Float32.pow (ds.element c) (-n.beta - 1)
  Buffer.tabulate pixel.size fun c =>
    gradient.element c * Float32.pow (ds.element c) (-n.beta)
      - 2 * n.alpha * n.beta * pixel.element c * n.windowSum terms c

@[simp] theorem size_denominators (n : Normalization) (pixel : Buffer) :
    (n.denominators pixel).size = pixel.size := by
  simp [denominators]

@[simp] theorem size_forward (n : Normalization) (pixel : Buffer) :
    (n.forward pixel).size = pixel.size := by
  simp [forward, Buffer.combine]

@[simp] theorem size_backward (n : Normalization) (pixel gradient : Buffer) :
    (n.backward pixel gradient).size = pixel.size := by
  simp [backward]

end Normalization

/-- The response normalization along the last axis. -/
def Content.normalize (x : Content) (n : Normalization) : Checked Computed := do
  if n.size = 0 ∨ n.k ≤ 0 then
    Outcome.fail (.unsupported (.normalization n.size n.alpha n.beta n.k))
  else
    let channels := x.shape.width
    let values := x.values.mapRows channels fun _ pixel => (n.forward pixel.toArray).toList
    let output ← Content.make values x.shape
    return Computed.single output fun seen =>
      .ok [.whole <| (seen.input 0).values.mapRows channels fun r pixel =>
        (n.backward pixel.toArray ((seen.gradient 0).row channels r).toArray).toList]

end LayerNet
