import LayerNet.Operation.Arithmetic
import LayerNet.Operation.Convolution
import LayerNet.Operation.Dropout
import LayerNet.Operation.Nonlinear
import LayerNet.Operation.Normalization
import LayerNet.Operation.Product
import LayerNet.Operation.Repetition
import LayerNet.Proofs.Operation.Sound

/-!
# Operations on values — sums, products, convolutions and the like are sound

These operations leave rules that answer with an amount for every element of each operand. So what
has to be seen is that each amount is as large as its operand, for a gradient as large as the
result: the buffers that a rule combines have one size, rows are changed into rows of one width, and
a tabulated buffer has the size that the shapes ask for.
-/

namespace LayerNet

namespace Content

variable {a b x kernel bias : Content} {c : Computed}

theorem checkSameShape_eq_ok {operation : String} (same : a.checkSameShape b operation = .ok ()) :
    a.shape = b.shape := by
  unfold checkSameShape at same
  split at same
  · assumption
  · cases same

/-! ## Elementwise arithmetic -/

theorem add_sound (wfA : a.WellFormed) (wfB : b.WellFormed) (success : a.add b = .ok c) :
    c.Sound [a, b] := by
  unfold add at success
  obtain ⟨⟨⟩, checked, success⟩ := Outcome.bind_eq_ok_iff.mp success
  have same := checkSameShape_eq_ok checked
  refine Computed.sound_of_make success fun output gradient _ _ size count => ?_
  refine ⟨_, rfl, .cons ?_ (.cons ?_ .nil)⟩
  · show gradient.size = a.count
    rw [size, count, wfA.count]
  · show gradient.size = b.count
    rw [size, count, wfB.count, same]

theorem mul_sound (wfA : a.WellFormed) (wfB : b.WellFormed) (success : a.mul b = .ok c) :
    c.Sound [a, b] := by
  unfold mul at success
  obtain ⟨⟨⟩, checked, success⟩ := Outcome.bind_eq_ok_iff.mp success
  have same := checkSameShape_eq_ok checked
  refine Computed.sound_of_make success fun output gradient _ _ size count => ?_
  have sizeA : gradient.size = a.count := by rw [size, count, wfA.count]
  have sizeB : gradient.size = b.count := by rw [size, count, wfB.count, same]
  refine ⟨_, rfl, .cons ?_ (.cons ?_ .nil)⟩
  · show (Buffer.combine _ gradient b.values).size = a.count
    rw [Buffer.size_combine, sizeB, ← sizeA, sizeB]
    exact Nat.min_self _
  · show (Buffer.combine _ gradient a.values).size = b.count
    rw [Buffer.size_combine, sizeA, ← sizeB, sizeA]
    exact Nat.min_self _

theorem scale_sound {factor : Float32} (success : x.scale factor = .ok c) : c.Sound [x] := by
  refine Computed.sound_of_make success fun output gradient _ _ size _ => ?_
  refine ⟨_, rfl, .cons ?_ .nil⟩
  show (gradient.map _).size = x.count
  rw [Array.size_map, size, Array.size_map]
  rfl

theorem addBias_sound (success : x.addBias bias = .ok c) : c.Sound [x, bias] := by
  unfold addBias at success
  split at success
  · cases success
  · refine Computed.sound_of_make success fun output gradient _ _ size _ => ?_
    refine ⟨_, rfl, .cons ?_ (.cons ?_ .nil)⟩
    · show gradient.size = x.count
      rw [size, Buffer.size_tabulate]
    · exact Buffer.size_tabulate _ _

/-! ## Matrix products -/

theorem matmul_sound (wfA : a.WellFormed) (wfB : b.WellFormed) (success : a.matmul b = .ok c) :
    c.Sound [a, b] := by
  unfold matmul at success
  split at success
  next m k k' n shapeA shapeB =>
    split at success
    · cases success
    next inner =>
      refine Computed.sound_of_make success fun output gradient _ _ _ _ => ?_
      refine ⟨_, rfl, .cons ?_ (.cons ?_ .nil)⟩
      · show (Matrix.product _ _ m n k).size = a.count
        rw [Matrix.product, Buffer.size_tabulate, wfA.count, shapeA]
        simp only [List.prod_cons, List.prod_nil, Nat.mul_one]
      · show (Matrix.product _ _ k m n).size = b.count
        rw [Matrix.product, Buffer.size_tabulate, wfB.count, shapeB, ← Classical.not_not.mp inner]
        simp only [List.prod_cons, List.prod_nil, Nat.mul_one]
  · cases success

/-! ## Non-linearities, normalization and dropout -/

theorem pointwise_sound {p : Pointwise} (success : p.compute x = .ok c) : c.Sound [x] := by
  refine Computed.sound_of_make success fun output gradient valued _ size _ => ?_
  refine ⟨_, rfl, .cons ?_ .nil⟩
  show (Buffer.combine _ gradient (Buffer.combine _ x.values output.values)).size = x.count
  rw [Buffer.size_combine, Buffer.size_combine, valued, size, Array.size_map, Nat.min_self,
    Nat.min_self]
  rfl

theorem softmax_sound (wf : x.WellFormed) (success : x.softmax = .ok c) : c.Sound [x] := by
  refine Computed.sound_of_make success fun output gradient _ _ size count => ?_
  refine ⟨_, rfl, .cons ?_ .nil⟩
  have same : gradient.size = x.count := by rw [size, count, wf.count]
  refine Content.size_mapRows wf same fun r row width => ?_
  simp only [List.length_zipWith, width, Buffer.row, List.length_map, List.length_range,
    Nat.min_self]

theorem normalize_sound (wf : x.WellFormed) {settings : Normalization}
    (success : x.normalize settings = .ok c) : c.Sound [x] := by
  unfold normalize at success
  split at success
  · cases success
  · refine Computed.sound_of_make success fun output gradient _ _ _ _ => ?_
    refine ⟨_, rfl, .cons ?_ .nil⟩
    exact Content.size_mapRows wf rfl fun r row width => by simpa using width

theorem dropout_sound {keep : Float32} {samples : Nat → Float32}
    (success : x.dropout keep samples = .ok c) : c.Sound [x] := by
  unfold dropout at success
  split at success
  · refine Computed.sound_of_make success fun output gradient _ _ size _ => ?_
    refine ⟨_, rfl, .cons ?_ .nil⟩
    show (Buffer.combine _ gradient (dropoutMask keep samples x.count)).size = x.count
    rw [Buffer.size_combine, size, Buffer.size_combine, dropoutMask, Buffer.size_tabulate]
    show min (min x.count x.count) x.count = x.count
    rw [Nat.min_self, Nat.min_self]
  · cases success

/-! ## Convolutions -/

theorem size_addTaps (g : Convolution) (terms : Tap → List (Nat × Float32)) (b : Buffer) :
    (g.addTaps terms b).size = b.size := by
  unfold Convolution.addTaps
  induction g.taps generalizing b with
  | nil => rfl
  | cons t taps ih => rw [List.foldl_cons, ih, Buffer.size_addAll]

/-- The amounts for image and kernel start from zeros of their sizes, and taps add to them. -/
theorem conv2d_sound (wfBias : bias.WellFormed) {windowing : Windowing}
    (success : x.conv2d kernel bias windowing = .ok c) : c.Sound [x, kernel, bias] := by
  unfold conv2d at success
  split at success
  · split at success
    · cases success
    · split at success
      · cases success
      next shapeBias =>
        obtain ⟨extents, -, success⟩ := Outcome.bind_eq_ok_iff.mp success
        split at success
        · cases success
        · dsimp only at success
          obtain ⟨count, -, success⟩ := Outcome.bind_eq_ok_iff.mp success
          split at success
          · cases success
          · refine Computed.sound_of_make success fun output gradient _ _ _ _ => ?_
            refine ⟨_, rfl, .cons ?_ (.cons ?_ (.cons ?_ .nil))⟩
            · show (Convolution.addTaps _ _ (Buffer.zeros x.values.size)).size = x.count
              rw [size_addTaps, Buffer.size_zeros]
              rfl
            · show (Convolution.addTaps _ _ (Buffer.zeros kernel.values.size)).size = kernel.count
              rw [size_addTaps, Buffer.size_zeros]
              rfl
            · show (Convolution.biasGradient _ gradient).size = bias.count
              rw [Convolution.biasGradient, Buffer.size_tabulate, wfBias.count,
                Classical.not_not.mp shapeBias]
              exact (Nat.mul_one _).symm
  · cases success

/-! ## Repetition -/

theorem tile_sound (wf : x.WellFormed) {axis : Int} {tiles : Nat}
    (success : x.tile axis tiles = .ok c) : c.Sound [x] := by
  unfold tile at success
  obtain ⟨axis, -, success⟩ := Outcome.bind_eq_ok_iff.mp success
  obtain ⟨-, -, success⟩ := Outcome.bind_eq_ok_iff.mp success
  obtain ⟨blocks, around, success⟩ := Outcome.bind_eq_ok_iff.mp success
  obtain ⟨length, -, success⟩ := Outcome.bind_eq_ok_iff.mp success
  obtain ⟨count, -, success⟩ := Outcome.bind_eq_ok_iff.mp success
  split at success
  · cases success
  · refine Computed.sound_of_make success fun output gradient _ _ _ _ => ?_
    refine ⟨_, rfl, .cons ?_ .nil⟩
    show (Repetition.fold _ gradient).size = x.count
    rw [Repetition.fold, Buffer.size_tabulate, wf.count, Shape.prod_eq around, Nat.mul_assoc]

theorem untile_sound (wf : x.WellFormed) {axis : Int} {tiles : Nat}
    (success : x.untile axis tiles = .ok c) : c.Sound [x] := by
  unfold untile at success
  obtain ⟨axis, -, success⟩ := Outcome.bind_eq_ok_iff.mp success
  obtain ⟨-, -, success⟩ := Outcome.bind_eq_ok_iff.mp success
  obtain ⟨blocks, around, success⟩ := Outcome.bind_eq_ok_iff.mp success
  split at success
  · cases success
  next divides =>
    refine Computed.sound_of_make success fun output gradient _ _ _ _ => ?_
    refine ⟨_, rfl, .cons ?_ .nil⟩
    show (Repetition.tile _ gradient).size = x.count
    have whole : tiles * (blocks.length / tiles) = blocks.length :=
      Nat.mul_div_cancel' (Nat.dvd_of_mod_eq_zero (Classical.not_not.mp divides))
    rw [Repetition.tile, Buffer.size_tabulate, wf.count, Shape.prod_eq around]
    calc blocks.outer * tiles * (blocks.length / tiles * blocks.inner)
        = blocks.outer * (tiles * (blocks.length / tiles)) * blocks.inner := by
          simp only [Nat.mul_assoc]
      _ = blocks.outer * blocks.length * blocks.inner := by rw [whole]

end Content

end LayerNet
