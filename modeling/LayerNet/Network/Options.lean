import LayerNet.Layer.Kind
import LayerNet.Shape

/-!
# Options — what a compiled network gets beyond its text
-/

namespace LayerNet

/-- The settings of a compilation. -/
structure Options where
  /-- Put the default non-linearity behind every layer that asks for one. -/
  addActivations : Bool
  /-- End every sink that has no loss with the default loss. -/
  addLosses : Bool
  /-- The shape of one sample, from which inputs take their open axes. -/
  inputShape : Shape
  activation : Activation
  loss : Loss
  /-- The bias of trainable layers directly in front of a rectifier. -/
  rectifierBias : Float32
  /-- Where the initial weights grow from. -/
  seed : UInt64

/-- Both additions, small grey images, rectifiers, cross-entropy and a slightly positive bias. -/
def Options.standard : Options where
  addActivations := true
  addLosses := true
  inputShape := [28, 28, 1]
  activation := .relu
  loss := .crossEntropy
  rectifierBias := 0.1
  seed := 0

instance : Inhabited Options := ⟨Options.standard⟩

end LayerNet
