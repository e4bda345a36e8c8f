import LayerNet.Store

/-!
# Gradient descent — parameters moved against their gradients

With momentum, a velocity follows the gradients, `v ← momentum · v + g`, and the parameter moves by
`rate · v`; without, it moves by `rate · g`. A parameter without a gradient is passed over. A step
ends at the first parameter that is no longer finite; it and the ones before have been moved.
-/

namespace LayerNet

/-- A parameter and its velocity, once it has one. -/
structure Slot where
  parameter : TensorId
  velocity : Option Buffer

namespace Slot

/-- What a gradient moves a parameter by, before the rate, and the velocity after it. -/
def update (momentum : Float32) (slot : Slot) (gradient : Buffer) : Buffer × Slot :=
  if momentum == 0 then (gradient, slot)
  else
    let before := slot.velocity.getD (Buffer.zeros gradient.size)
    let after := Buffer.combine (fun v g => momentum * v + g) before gradient
    (after, { slot with velocity := some after })

/-- Moves one parameter. -/
def step (rate momentum : Float32) (slot : Slot) (store : Store) : Checked Unit × Slot × Store :=
  match store.get? slot.parameter with
  | none => (Outcome.fatal, slot, store)
  | some tensor =>
    match tensor.gradient with
    | none => (.ok (), slot, store)
    | some gradient =>
      let (update, slot) := slot.update momentum gradient
      let store := store.mapValues slot.parameter fun values =>
        Buffer.combine (fun p u => p - rate * u) values update
      let moved := store.tensor slot.parameter
      (moved.bind Tensor.checkFinite, slot, store)

end Slot

/-- Gradient descent over parameters. -/
structure Optimizer where
  slots : List Slot
  rate : Float32
  momentum : Float32

namespace Optimizer

/-- An optimizer at rest. -/
def atRest (parameters : List TensorId) (rate momentum : Float32) : Checked Optimizer :=
  if 0 < rate ∧ 0 ≤ momentum ∧ momentum < 1 then
    .ok ⟨parameters.map fun p => ⟨p, none⟩, rate, momentum⟩
  else Outcome.fail (.unsupported (.descent rate momentum))

/-- Moves parameters in order, up to the first that fails. -/
def stepSlots (rate momentum : Float32) : List Slot → Store → Checked Unit × List Slot × Store
  | [], store => (.ok (), [], store)
  | slot :: rest, store =>
    match slot.step rate momentum store with
    | (.error failure, slot, store) => (.error failure, slot :: rest, store)
    | (.ok (), slot, store) =>
      let (result, rest, store) := stepSlots rate momentum rest store
      (result, slot :: rest, store)

/-- Moves all parameters. -/
def step (o : Optimizer) (store : Store) : Checked Unit × Optimizer × Store :=
  let (result, slots, store) := stepSlots o.rate o.momentum o.slots store
  (result, { o with slots }, store)

/-- Drops the gradients of all parameters. -/
def dropGradients (o : Optimizer) (store : Store) : Store :=
  o.slots.foldl (fun s slot => s.dropGradient slot.parameter) store

end Optimizer

end LayerNet
