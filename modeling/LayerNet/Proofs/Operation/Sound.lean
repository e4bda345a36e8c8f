import LayerNet.Operation.Rule
import LayerNet.Proofs.Addressing

/-!
# Soundness of an operation — results that are contents, and a rule that always answers

Whatever an operation gives, its results are well-formed contents, and its rule keeps a promise to
the replay (`Rule.Sound`): shown the operands and results as they were, with gradients of the
results' sizes and any values, it answers, and the answer has for each operand an amount that can be
added to its gradient (`Delta.Fits`). The rule may fail or answer too little on anything else.

Most operations make one content and leave a rule that does not depend on it
(`Computed.sound_of_make`).
-/

namespace LayerNet

/-- A valid shape, its strides, and one element for every position. -/
structure Content.WellFormed (c : Content) : Prop where
  valid : c.shape.IsValid
  strides : c.shape.strides = .ok c.strides
  count : c.count = c.shape.prod

theorem Content.wellFormed_of_make {values : Buffer} {shape : Shape} {c : Content}
    (made : make values shape = .ok c) : c.WellFormed := by
  unfold make at made
  obtain ⟨_, valid, made⟩ := Outcome.bind_eq_ok_iff.mp made
  obtain ⟨count, elements, made⟩ := Outcome.bind_eq_ok_iff.mp made
  split at made
  · cases made
  next size =>
    split at made
    · cases made
    · obtain ⟨strides, stepped, made⟩ := Outcome.bind_eq_ok_iff.mp made
      cases made
      exact ⟨(Shape.validate_eq_ok_iff shape).mp valid, stepped,
        (Classical.not_not.mp size).trans (Size.product_eq_ok elements)⟩

/-- An amount for every element, or amounts at positions that are there. -/
def Delta.Fits (c : Content) : Delta → Prop
  | .whole amounts => amounts.size = c.count
  | .sparse amounts => ∀ amount ∈ amounts, amount.1 < c.count

/-- Shown these operands and results, with any gradients of the results' sizes, the rule answers
with an amount for each operand that fits it. -/
def Rule.Sound (rule : Rule) (inputs outputs : List Content) : Prop :=
  ∀ gradients : List Buffer, List.Forall₂ (fun g o => g.size = o.count) gradients outputs →
    ∃ deltas, rule ⟨inputs, outputs, gradients⟩ = .ok deltas
      ∧ List.Forall₂ (fun d c => d.Fits c) deltas inputs

/-- The results are well formed, and the rule answers for them. -/
structure Computed.Sound (inputs : List Content) (c : Computed) : Prop where
  outputs : ∀ output ∈ c.outputs, output.WellFormed
  rule : c.rule.Sound inputs c.outputs

/-- An operation that makes one content is sound when its rule answers for that content. -/
theorem Computed.sound_of_make {inputs : List Content} {values : Buffer} {shape : Shape}
    {rule : Rule} {c : Computed}
    (success : (Content.make values shape >>= fun output => pure (single output rule)) = .ok c)
    (answers : ∀ output gradient, output.values = values → output.shape = shape →
      gradient.size = values.size → values.size = shape.prod → ∃ deltas,
        rule ⟨inputs, [output], [gradient]⟩ = .ok deltas
          ∧ List.Forall₂ (fun d c => d.Fits c) deltas inputs) :
    c.Sound inputs := by
  obtain ⟨output, made, success⟩ := Outcome.bind_eq_ok_iff.mp success
  cases success
  obtain ⟨shaped, valued, -⟩ := Content.of_make_eq_ok made
  have wf := Content.wellFormed_of_make made
  refine ⟨fun other member => List.mem_singleton.mp member ▸ wf, fun gradients sizes => ?_⟩
  rcases sizes with _ | @⟨gradient, _, _, _, size, ⟨⟩⟩
  have count := wf.count
  rw [Content.count, valued] at size count
  exact answers output gradient valued shaped size (shaped ▸ count)

/-! ## Sizes of buffers -/

namespace Buffer

@[simp] theorem size_combine (f : Float32 → Float32 → Float32) (a b : Buffer) :
    (combine f a b).size = min a.size b.size := by
  simp [combine]

/-- Rows changed into rows of the same width take up as many elements as there are in whole
rows. -/
theorem size_mapRows {width : Nat} {f : Nat → List Float32 → List Float32} (b : Buffer)
    (widths : ∀ r row, row.length = width → (f r row).length = width) :
    (b.mapRows width f).size = b.size / width * width := by
  have rows (n : Nat) (start : Buffer) : ((List.range n).foldl
      (fun out r => out ++ (f r (b.row width r)).toArray) start).size = start.size + n * width := by
    induction n with
    | zero => simp
    | succ n ih =>
      have last : (f n (b.row width n)).toArray.size = width := by
        rw [List.size_toArray]
        exact widths n _ (by simp [row])
      rw [List.range_succ, List.foldl_append, List.foldl_cons, List.foldl_nil, Array.size_append,
        ih, last, Nat.succ_mul, Nat.add_assoc]
  unfold mapRows
  rw [rows, Array.size_empty, Nat.zero_add]

end Buffer

/-- The elements of a shape fall into whole rows along its last axis. -/
theorem Shape.width_dvd {shape : Shape} (nonempty : shape ≠ []) : shape.width ∣ shape.prod := by
  obtain ⟨init, last, rfl⟩ : ∃ init last, shape = init ++ [last] :=
    ⟨_, _, (List.dropLast_concat_getLast nonempty).symm⟩
  rw [Shape.width, List.getLastD_concat, List.prod_append, List.prod_singleton]
  exact Nat.dvd_mul_left _ _

/-- Rows changed along the last axis of a content take up as many elements as it has. -/
theorem Content.size_mapRows {x : Content} (wf : x.WellFormed) {b : Buffer}
    {f : Nat → List Float32 → List Float32} (size : b.size = x.count)
    (widths : ∀ r row, row.length = x.shape.width → (f r row).length = x.shape.width) :
    (b.mapRows x.shape.width f).size = x.count := by
  rw [Buffer.size_mapRows b widths, size, wf.count]
  exact Nat.div_mul_cancel (Shape.width_dvd wf.valid.1)

end LayerNet
