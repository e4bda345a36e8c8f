import LayerNet.Operation.Rule

/-!
# Dropout — elements struck out at random

An element stays when its sample lies below the probability of keeping it, and is then scaled up by
the inverse of that probability. The mask is fixed when the operation is called.
-/

namespace LayerNet

/-- Factors of the elements: the inverse probability for those that stay, zero for the others. -/
def dropoutMask (keep : Float32) (samples : Nat → Float32) (count : Nat) : Buffer :=
  Buffer.tabulate count fun i => if samples i < keep then 1 / keep else 0

/-- A tensor with elements struck out, by one sample for each element. -/
def Content.dropout (x : Content) (keep : Float32) (samples : Nat → Float32) :
    Checked Computed := do
  if 0 < keep ∧ keep ≤ 1 then
    let mask := dropoutMask keep samples x.count
    let output ← Content.make (Buffer.combine (· * ·) x.values mask) x.shape
    return Computed.single output fun seen =>
      .ok [.whole (Buffer.combine (· * ·) (seen.gradient 0) mask)]
  else Outcome.fail (.unsupported (.keep keep))

end LayerNet
