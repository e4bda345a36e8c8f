import LayerNet.Operation.Arithmetic
import LayerNet.Proofs.Operation.Products
import LayerNet.Proofs.Operation.Tiling

/-!
# Recurrences — a state that goes on from frame to frame

A recurrence takes a batch of sequences. From the frame at a step and the state before it, it makes
the next state: `tanh ((x · W + h · U) + b)`, for each sample and unit (`Recurrence.element_next`).
It starts from zeros (`Recurrence.state`). A state depends on the frames up to its step and on no
other (`Recurrence.state_congr`).

On the way there are buffers that have to be finite for a run to go on (`Recurrence.stages`).
-/

namespace LayerNet

/-- The extents and parameters of a recurrence. -/
structure Recurrence where
  batch : Nat
  features : Nat
  units : Nat
  inputWeight : Buffer
  stateWeight : Buffer
  bias : Buffer

namespace Recurrence

open LayerNet.Matrix

variable (r : Recurrence)

/-- The frame at a step of sequences of so many: the features of each sample in a row. -/
def frame (steps : Nat) (x : Buffer) (t : Nat) : Buffer :=
  Buffer.tabulate (r.batch * r.features) fun k =>
    x.element ((k / r.features * steps + t) * r.features + k % r.features)

/-- What a frame contributes. -/
def fromFrame (frame : Buffer) : Buffer :=
  product (entries frame r.features) (entries r.inputWeight r.units) r.batch r.features r.units

/-- What the state before contributes. -/
def fromState (state : Buffer) : Buffer :=
  product (entries state r.units) (entries r.stateWeight r.units) r.batch r.units r.units

/-- Both contributions. -/
def summed (frame state : Buffer) : Buffer :=
  Buffer.combine (· + ·) (r.fromFrame frame) (r.fromState state)

/-- Both contributions and the bias. -/
def biased (frame state : Buffer) : Buffer :=
  Buffer.tabulate (r.batch * r.units) fun k =>
    (r.summed frame state).element k + r.bias.element (k % r.units)

/-- The next state. -/
def next (frame state : Buffer) : Buffer := (r.biased frame state).map Float32.tanh

/-- What is made on the way from one state to the next. -/
def stages (frame state : Buffer) : List Buffer :=
  [r.fromFrame frame, r.fromState state, r.summed frame state, r.biased frame state,
    r.next frame state]

/-- The state after so many steps. -/
def state (frames : Nat → Buffer) : Nat → Buffer
  | 0 => Buffer.zeros (r.batch * r.units)
  | t + 1 => r.next (frames t) (state frames t)

/-- The states after each step, sample by sample. -/
def sequence (steps : Nat) (frames : Nat → Buffer) : Buffer :=
  Buffer.tabulate (r.batch * (steps * r.units)) fun k =>
    (r.state frames (k / r.units % steps + 1)).element
      (k / (r.units * steps) * r.units + k % r.units)

variable {r}

theorem size_fromFrame (frame : Buffer) : (r.fromFrame frame).size = r.batch * r.units :=
  Buffer.size_tabulate _ _

theorem size_fromState (state : Buffer) : (r.fromState state).size = r.batch * r.units :=
  Buffer.size_tabulate _ _

theorem size_biased (frame state : Buffer) : (r.biased frame state).size = r.batch * r.units :=
  Buffer.size_tabulate _ _

/-- The next state of a unit, from the frame of its sample and from the sample's state. -/
theorem element_next (frame state : Buffer) {sample unit : Nat} (batch : sample < r.batch)
    (units : unit < r.units) : (r.next frame state).element (sample * r.units + unit)
      = Float32.tanh ((dot (entries frame r.features) (entries r.inputWeight r.units) r.features
          sample unit
        + dot (entries state r.units) (entries r.stateWeight r.units) r.units sample unit)
        + r.bias.element unit) := by
  have inside := mul_add_lt batch units
  rw [next, Buffer.element_map _ (by rwa [size_biased]), biased, Buffer.element_tabulate _ inside,
    summed, Buffer.element_combine _ (by rwa [size_fromFrame]) (by rwa [size_fromState]), fromFrame,
    fromState, element_product batch units, element_product batch units, mul_add_mod units]

/-- States depend on the frames before them alone, by induction on the steps. -/
theorem state_congr {frames frames' : Nat → Buffer} {t : Nat}
    (same : ∀ s < t, frames s = frames' s) : r.state frames t = r.state frames' t := by
  induction t with
  | zero => rfl
  | succ t ih =>
    rw [state, state, same t (Nat.lt_succ_self t), ih fun s before => same s (Nat.lt_succ_of_lt before)]

/-- In the sequence, the state of a sample after each step. -/
theorem element_sequence (frames : Nat → Buffer) {steps sample t unit : Nat} (batch : sample < r.batch)
    (step : t < steps) (units : unit < r.units) :
    (r.sequence steps frames).element (Shape.index [r.batch, steps, r.units] [sample, t, unit])
      = (r.state frames (t + 1)).element (sample * r.units + unit) := by
  have inside : Shape.index [r.batch, steps, r.units] [sample, t, unit]
      < r.batch * (steps * r.units) := by
    have onAxes : List.Forall₂ (· < ·) [sample, t, unit] [r.batch, steps, r.units] :=
      .cons batch (.cons step (.cons units .nil))
    simpa using Shape.index_lt onAxes
  have digits : Shape.index [r.batch, steps, r.units] [sample, t, unit]
      = (sample * steps + t) * r.units + unit := by
    simp only [Shape.index, List.prod_cons, List.prod_nil]
    ring
  rw [sequence, Buffer.element_tabulate _ inside, digits, ← Nat.div_div_eq_div_mul,
    mul_add_div units, mul_add_div step, mul_add_mod units, mul_add_mod step]

/-- It starts from zeros. -/
theorem element_start (frames : Nat → Buffer) (k : Nat) : (r.state frames 0).element k = 0 :=
  Buffer.element_zeros _ k

section Frames

variable {frame : Shape} {steps t : Nat} (flat : r.features = frame.prod)
include flat

/-- A frame has, for each sample, what the sequences have at its step, flattened. -/
theorem element_frame (x : Buffer) {sample : Nat} {indices : List Nat} (batch : sample < r.batch)
    (onAxes : List.Forall₂ (· < ·) indices frame) :
    (r.frame steps x t).element (sample * r.features + frame.index indices)
      = x.element (Shape.index (r.batch :: steps :: frame) (sample :: t :: indices)) := by
  have inside : frame.index indices < r.features := flat ▸ Shape.index_lt onAxes
  rw [Recurrence.frame, Buffer.element_tabulate _ (mul_add_lt batch inside), mul_add_div inside,
    mul_add_mod inside]
  refine congrArg x.element ?_
  rw [Shape.index, Shape.index, List.prod_cons, flat]
  ring

/-- Sequences that agree at a step have one frame there. -/
theorem frame_congr {x x' : Buffer} (agree : ∀ sample < r.batch, ∀ indices,
      List.Forall₂ (· < ·) indices frame →
        x.element (Shape.index (r.batch :: steps :: frame) (sample :: t :: indices))
          = x'.element (Shape.index (r.batch :: steps :: frame) (sample :: t :: indices))) :
    r.frame steps x t = r.frame steps x' t := by
  refine Buffer.tabulate_congr fun k within => ?_
  have features : 0 < r.features := Nat.pos_of_mul_pos_left (Nat.zero_lt_of_lt within)
  have sample : k / r.features < r.batch := Nat.div_lt_of_lt_mul (Nat.mul_comm _ _ ▸ within)
  have onAxes : List.Forall₂ (· < ·) (frame.digits (k % r.features)) frame :=
    Shape.digits_lt _ (flat ▸ features)
  have feature : frame.index (frame.digits (k % r.features)) = k % r.features :=
    Shape.index_digits (flat ▸ Nat.mod_lt k features)
  have same := agree _ sample _ onAxes
  rw [← element_frame flat x sample onAxes, ← element_frame flat x' sample onAxes, feature,
    Nat.div_add_mod', Recurrence.frame, Recurrence.frame, Buffer.element_tabulate _ within,
    Buffer.element_tabulate _ within] at same
  exact same

variable (r) (steps)

/-- What a recurrence is, element by element. The state of a unit goes on from the states of its
sample alone, and with the sample's frame at the step. -/
structure Laws (frame : Shape) (x : Buffer) : Prop where
  frames : ∀ t, ∀ sample < r.batch, ∀ indices, List.Forall₂ (· < ·) indices frame →
    (r.frame steps x t).element (sample * r.features + frame.index indices)
      = x.element (Shape.index (r.batch :: steps :: frame) (sample :: t :: indices))
  start : ∀ k, (r.state (r.frame steps x) 0).element k = 0
  next : ∀ t, ∀ sample < r.batch, ∀ unit < r.units,
    (r.state (r.frame steps x) (t + 1)).element (sample * r.units + unit)
      = Float32.tanh ((dot (entries (r.frame steps x t) r.features) (entries r.inputWeight r.units)
          r.features sample unit
        + dot (entries (r.state (r.frame steps x) t) r.units) (entries r.stateWeight r.units) r.units
          sample unit)
        + r.bias.element unit)
  sequence : ∀ sample < r.batch, ∀ t < steps, ∀ unit < r.units,
    (r.sequence steps (r.frame steps x)).element
        (Shape.index [r.batch, steps, r.units] [sample, t, unit])
      = (r.state (r.frame steps x) (t + 1)).element (sample * r.units + unit)

theorem laws (x : Buffer) : r.Laws steps frame x where
  frames _ _ batch _ onAxes := element_frame flat x batch onAxes
  start := element_start _
  next _ _ batch _ units := element_next _ _ batch units
  sequence _ batch _ step _ units := element_sequence _ batch step units

end Frames

end Recurrence

end LayerNet
