import LayerNet.Operation.Call
import LayerNet.Proofs.Outcome

/-!
# Shapeless rules — what the way back does not look at

A tensor can be given another shape between a call and its replay. A rule that looks at values and
gradients only answers the same then (`Rule.Shapeless`): what it needs of the geometry, it took when
it was made. The rules of all operations are of this kind but one (`Operation.compute_shapeless`).
A slice asks for the strides of its operand and the shape of its result again
(`Content.slice_not_shapeless`).
-/

namespace LayerNet

/-- The same values and gradients, under whatever shapes. -/
structure Seen.Recast (shown shown' : Seen) : Prop where
  inputs : shown'.inputs.map Content.values = shown.inputs.map Content.values
  outputs : shown'.outputs.map Content.values = shown.outputs.map Content.values
  gradients : shown'.gradients = shown.gradients

/-- The rule answers the same whatever the shapes are. -/
def Rule.Shapeless (rule : Rule) : Prop :=
  ∀ shown shown', Seen.Recast shown shown' → rule shown' = rule shown

/-- The values of a content in a list, in terms of the values of all. -/
theorem Content.values_getD (contents : List Content) (i : Nat) :
    (contents.getD i default).values = (contents.map Content.values).getD i #[] := by
  rw [List.getD_eq_getElem?_getD, List.getD_eq_getElem?_getD, List.getElem?_map]
  cases contents[i]? <;> rfl

namespace Seen.Recast

variable {shown shown' : Seen} (recast : shown.Recast shown')
include recast

theorem input (i : Nat) : (shown'.input i).values = (shown.input i).values := by
  rw [Seen.input, Seen.input, Content.values_getD, Content.values_getD, recast.inputs]

theorem output (i : Nat) : (shown'.output i).values = (shown.output i).values := by
  rw [Seen.output, Seen.output, Content.values_getD, Content.values_getD, recast.outputs]

theorem gradient (i : Nat) : shown'.gradient i = shown.gradient i := by
  rw [Seen.gradient, Seen.gradient, recast.gradients]

end Seen.Recast

/-! ## Rules -/

/-- Whenever an operation succeeds, its rule is shapeless. -/
def LeavesShapeless (x : Checked Computed) : Prop := ∀ c, x = .ok c → c.rule.Shapeless

namespace LeavesShapeless

theorem fail (cause : TensorError) : LeavesShapeless (Outcome.fail cause) := nofun

theorem stop (reason : Fatality) : LeavesShapeless (Outcome.stop reason) := nofun

theorem bind {α : Type} {x : Checked α} {f : α → Checked Computed}
    (rest : ∀ a, LeavesShapeless (f a)) : LeavesShapeless (x >>= f) := by
  intro c success
  obtain ⟨a, -, success⟩ := Outcome.bind_eq_ok_iff.mp success
  exact rest a c success

theorem single {output : Content} {rule : Rule} (shapeless : rule.Shapeless) :
    LeavesShapeless (pure (Computed.single output rule)) := by
  intro c success
  cases success
  exact shapeless

/-- A rule that reads no more than the first gradient. -/
theorem of_gradient {output : Content} {rule : Rule}
    (reads : ∀ shown shown' : Seen, shown'.gradient 0 = shown.gradient 0 →
      rule shown' = rule shown) : LeavesShapeless (pure (Computed.single output rule)) :=
  single fun shown shown' recast => reads shown shown' (recast.gradient 0)

end LeavesShapeless

open LeavesShapeless

/-- Routings ask for the sizes of operands. -/
theorem Routing.shapeless_rule (r : Routing) : Rule.Shapeless r.rule := by
  intro shown shown' recast
  have amounts (s : Seen) : r.rule s
      = .ok ((s.inputs.map Content.values).zipIdx.map fun (values, q) =>
        .whole (gather s.gradients values.size (r.target q))) := by
    rw [rule, List.zipIdx_map, List.map_map]
    rfl
  rw [amounts, amounts, recast.inputs, recast.gradients]

theorem Routing.shapeless_compute (r : Routing) (inputs : List Content) (shapes : List Shape) :
    LeavesShapeless (r.compute inputs shapes) := by
  refine .bind fun outputs c success => ?_
  cases success
  exact r.shapeless_rule

theorem Convolution.shapeless_rule (g : Convolution) : Rule.Shapeless g.rule := by
  intro shown shown' recast
  rw [rule, rule, recast.input 0, recast.input 1, recast.gradient 0]

/-! ## Operations -/

namespace Content

theorem view_shapeless (x : Content) (shape : Shape) : LeavesShapeless (x.view shape) := by
  intro c success
  obtain ⟨routed, moved, success⟩ := Outcome.bind_eq_ok_iff.mp success
  cases success
  exact Routing.shapeless_compute _ _ _ routed moved

theorem reshaped_shapeless (x : Content) (shape : Shape) : LeavesShapeless (x.reshaped shape) := by
  refine .bind fun _ => .bind fun count => ?_
  split
  · exact fail _
  · exact x.view_shapeless shape

theorem squeeze_shapeless (x : Content) (axis : Int) : LeavesShapeless (x.squeeze axis) := by
  refine .bind fun axis => ?_
  dsimp only
  split
  · exact fail _
  split
  · exact fail _
  · exact x.view_shapeless _

theorem expand_shapeless (x : Content) (axis : Int) : LeavesShapeless (x.expand axis) :=
  .bind fun _ => x.view_shapeless _

theorem concat_shapeless (xs : List Content) (axis : Int) : LeavesShapeless (concat xs axis) := by
  unfold concat
  split
  · refine .bind fun axis => ?_
    split
    · exact fail _
    · exact .bind fun blocks => .bind fun total => Routing.shapeless_compute _ _ _
  · exact fail _

theorem split_shapeless (x : Content) (axis : Int) (partition : Partition) :
    LeavesShapeless (x.split axis partition) :=
  .bind fun _ => .bind fun _ => .bind fun _ => Routing.shapeless_compute _ _ _

theorem stack_shapeless (xs : List Content) (axis : Int) : LeavesShapeless (stack xs axis) := by
  unfold stack
  split
  · refine .bind fun axis => ?_
    split
    · exact fail _
    · exact .bind fun inner => Routing.shapeless_compute _ _ _
  · exact fail _

theorem unstack_shapeless (x : Content) (axis : Int) : LeavesShapeless (x.unstack axis) := by
  refine .bind fun axis => ?_
  split
  · exact fail _
  · exact .bind fun inner => Routing.shapeless_compute _ _ _

theorem tile_shapeless (x : Content) (axis : Int) (tiles : Nat) :
    LeavesShapeless (x.tile axis tiles) := by
  refine .bind fun axis => .bind fun _ => .bind fun blocks => ?_
  refine .bind fun length => .bind fun count => ?_
  split
  · exact stop _
  · exact .bind fun output => .of_gradient fun _ _ same => by rw [same]

theorem untile_shapeless (x : Content) (axis : Int) (tiles : Nat) :
    LeavesShapeless (x.untile axis tiles) := by
  refine .bind fun axis => .bind fun _ => .bind fun blocks => ?_
  split
  · exact fail _
  · exact .bind fun output => .of_gradient fun _ _ same => by rw [same]

theorem maxReduce_shapeless (x : Content) (axis : Int) (members : Nat) :
    LeavesShapeless (x.maxReduce axis members) :=
  .bind fun _ => .bind fun _ => .of_gradient fun _ _ same => by rw [same]

theorem meanReduce_shapeless (x : Content) (axis : Int) (members : Nat) :
    LeavesShapeless (x.meanReduce axis members) :=
  .bind fun _ => .bind fun _ => .of_gradient fun _ _ same => by rw [same]

theorem add_shapeless (a b : Content) : LeavesShapeless (a.add b) :=
  .bind fun _ => .bind fun _ => .of_gradient fun _ _ same => by rw [same]

theorem mul_shapeless (a b : Content) : LeavesShapeless (a.mul b) := by
  refine .bind fun _ => .bind fun output => .single fun shown shown' recast => ?_
  rw [recast.input 0, recast.input 1, recast.gradient 0]

theorem scale_shapeless (x : Content) (factor : Float32) : LeavesShapeless (x.scale factor) :=
  .bind fun _ => .of_gradient fun _ _ same => by rw [same]

theorem addBias_shapeless (x bias : Content) : LeavesShapeless (x.addBias bias) := by
  unfold addBias
  split
  · exact fail _
  · refine .bind fun output => .single fun shown shown' recast => ?_
    rw [count, count, recast.input 1, recast.gradient 0]

theorem matmul_shapeless (a b : Content) : LeavesShapeless (a.matmul b) := by
  unfold matmul
  split
  · split
    · exact fail _
    · refine .bind fun output => .single fun shown shown' recast => ?_
      rw [recast.input 0, recast.input 1, recast.gradient 0]
  · exact fail _

theorem pointwise_shapeless (p : Pointwise) (x : Content) : LeavesShapeless (p.compute x) := by
  refine .bind fun output => .single fun shown shown' recast => ?_
  rw [recast.input 0, recast.output 0, recast.gradient 0]

theorem softmax_shapeless (x : Content) : LeavesShapeless x.softmax := by
  refine .bind fun output => .single fun shown shown' recast => ?_
  rw [recast.output 0, recast.gradient 0]

theorem conv2d_shapeless (x kernel bias : Content) (windowing : Windowing) :
    LeavesShapeless (x.conv2d kernel bias windowing) := by
  unfold conv2d
  split
  · split
    · exact fail _
    split
    · exact fail _
    refine .bind fun extents => ?_
    split
    · exact fail _
    · refine .bind fun count => ?_
      split
      · exact stop _
      · exact .bind fun output => .single (Convolution.shapeless_rule _)
  · exact fail _

theorem normalize_shapeless (x : Content) (settings : Normalization) :
    LeavesShapeless (x.normalize settings) := by
  unfold normalize
  split
  · exact fail _
  · refine .bind fun output => .single fun shown shown' recast => ?_
    rw [recast.input 0, recast.gradient 0]

theorem dropout_shapeless (x : Content) (keep : Float32) (samples : Nat → Float32) :
    LeavesShapeless (x.dropout keep samples) := by
  unfold dropout
  split
  · exact .bind fun output => .of_gradient fun _ _ same => by rw [same]
  · exact fail _

end Content

/-- Whether the call is that of a slice. -/
def Operation.isSlice {α : Type} : Operation α → Bool
  | .slice .. => true
  | _ => false

namespace Operation

theorem isSlice_map {α β : Type} (f : α → β) (op : Operation α) :
    (op.map f).isSlice = op.isSlice := by
  cases op <;> rfl

theorem name_of_isSlice {α : Type} {op : Operation α} (isSlice : op.isSlice = true) :
    op.name = "slice" := by
  cases op with
  | slice => rfl
  | _ => cases isSlice

end Operation

/-- Whatever an operation needs of shapes on the way back, it takes when it is called, unless it is
a slice. -/
theorem Operation.compute_shapeless {op : Operation Content} (other : op.isSlice = false) :
    LeavesShapeless op.compute := by
  cases op with
  | copy x => exact Routing.shapeless_compute _ _ _
  | concat xs axis => exact Content.concat_shapeless xs axis
  | split x axis partition => exact x.split_shapeless axis partition
  | stack xs axis => exact Content.stack_shapeless xs axis
  | unstack x axis => exact x.unstack_shapeless axis
  | tile x axis count => exact x.tile_shapeless axis count
  | untile x axis count => exact x.untile_shapeless axis count
  | maxReduce x axis count => exact x.maxReduce_shapeless axis count
  | meanReduce x axis count => exact x.meanReduce_shapeless axis count
  | squeeze x axis => exact x.squeeze_shapeless axis
  | expand x axis => exact x.expand_shapeless axis
  | reshape x shape => exact x.reshaped_shapeless shape
  | slice => cases other
  | add a b => exact a.add_shapeless b
  | addBias x bias => exact x.addBias_shapeless bias
  | mul a b => exact a.mul_shapeless b
  | scale x factor => exact x.scale_shapeless factor
  | matmul a b => exact a.matmul_shapeless b
  | relu x => exact Content.pointwise_shapeless .relu x
  | sigmoid x => exact Content.pointwise_shapeless .sigmoid x
  | tanh x => exact Content.pointwise_shapeless .tanh x
  | softmax x => exact x.softmax_shapeless
  | conv2d x kernel bias windowing => exact x.conv2d_shapeless kernel bias windowing
  | normalize x settings => exact x.normalize_shapeless settings
  | dropout x keep samples => exact x.dropout_shapeless keep samples

/-! ## Slices -/

/-- The positions that an amount names. -/
def Delta.positions : Delta → List Nat
  | .whole _ => []
  | .sparse amounts => amounts.map Prod.fst

/-- The positions that a rule's answer names, operand by operand. -/
def Rule.positions (rule : Rule) (shown : Seen) : List (List Nat) :=
  match rule shown with
  | .ok deltas => deltas.map Delta.positions
  | .error _ => []

/-- The second column of a matrix of three columns, which has become one of two columns when the
slice is replayed: the second amount goes to position 3 and not to position 4. -/
theorem Content.slice_not_shapeless : ∃ c,
    (⟨[2, 3], [3, 1], #[0, 0, 0, 0, 0, 0]⟩ : Content).slice [0, 1] [2, 1] = .ok c
      ∧ ¬ c.rule.Shapeless := by
  have found : ((⟨[2, 3], [3, 1], #[0, 0, 0, 0, 0, 0]⟩ : Content).slice [0, 1] [2, 1]).toOption.any
      (fun c =>
        c.rule.positions ⟨[⟨[2, 3], [3, 1], #[]⟩], [⟨[2, 1], [1, 1], #[]⟩], [#[1, 2]]⟩ == [[1, 4]]
        && c.rule.positions ⟨[⟨[3, 2], [2, 1], #[]⟩], [⟨[2, 1], [1, 1], #[]⟩], [#[1, 2]]⟩
          == [[1, 3]]) = true := by
    decide +kernel
  obtain ⟨c, success, answers⟩ := except_exists_of_any found
  rw [Bool.and_eq_true, beq_iff_eq, beq_iff_eq] at answers
  refine ⟨c, success, fun shapeless => ?_⟩
  have same := shapeless ⟨[⟨[2, 3], [3, 1], #[]⟩], [⟨[2, 1], [1, 1], #[]⟩], [#[1, 2]]⟩
    ⟨[⟨[3, 2], [2, 1], #[]⟩], [⟨[2, 1], [1, 1], #[]⟩], [#[1, 2]]⟩ ⟨rfl, rfl, rfl⟩
  rw [Rule.positions, Rule.positions, same] at answers
  exact absurd (answers.1.symm.trans answers.2) (by decide)

end LayerNet
