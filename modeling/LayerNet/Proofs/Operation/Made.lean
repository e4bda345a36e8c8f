import LayerNet.Initial
import LayerNet.Operation.Call
import LayerNet.Proofs.Operation.Sound

/-!
# Results are made — nothing gets around the checks of a new content

Every result of an operation went through `Content.make`: its shape is valid, its elements are as
many as the shape says and can be counted, and all of them are finite (`Content.Made`). The same
holds of the contents that tensors start from. There is one rule for each way in which computations
are put together (`MakesResults`), and one case for each operation (`Operation.compute_made`).
-/

namespace LayerNet

/-- A content that passes the checks of a new one. -/
def Content.Made (c : Content) : Prop := make c.values c.shape = .ok c

/-- Whenever an operation succeeds, its results are made. -/
def MakesResults (x : Checked Computed) : Prop := ∀ c, x = .ok c → ∀ output ∈ c.outputs, output.Made

theorem Content.made_of_make {values : Buffer} {shape : Shape} {c : Content}
    (made : make values shape = .ok c) : c.Made := by
  obtain ⟨rfl, rfl, -⟩ := of_make_eq_ok made
  exact made

namespace MakesResults

theorem fail (cause : TensorError) : MakesResults (Outcome.fail cause) := nofun

theorem stop (reason : Fatality) : MakesResults (Outcome.stop reason) := nofun

theorem bind {α : Type} {x : Checked α} {f : α → Checked Computed}
    (rest : ∀ a, MakesResults (f a)) : MakesResults (x >>= f) := by
  intro c success
  obtain ⟨a, -, success⟩ := Outcome.bind_eq_ok_iff.mp success
  exact rest a c success

/-- One content made, whatever rule is left behind. -/
theorem single {values : Buffer} {shape : Shape} {rule : Content → Rule} :
    MakesResults (Content.make values shape >>= fun output =>
      pure (Computed.single output (rule output))) := by
  intro c success
  obtain ⟨output, made, success⟩ := Outcome.bind_eq_ok_iff.mp success
  cases success
  exact fun other member => List.mem_singleton.mp member ▸ Content.made_of_make made

end MakesResults

open MakesResults

theorem Routing.compute_made (r : Routing) (inputs : List Content) (shapes : List Shape) :
    MakesResults (r.compute inputs shapes) := by
  intro c success
  obtain ⟨outputs, results, success⟩ := Outcome.bind_eq_ok_iff.mp success
  cases success
  refine forall_mem_of_forall₂ (Outcome.mapM_eq_ok_iff.mp results) (P := fun _ => True)
    (fun _ _ => trivial) fun ⟨shape, p⟩ output one _ => ?_
  obtain ⟨count, -, made⟩ := Outcome.bind_eq_ok_iff.mp one
  exact Content.made_of_make made

namespace Content

theorem view_made (x : Content) (shape : Shape) : MakesResults (x.view shape) := by
  intro c success
  obtain ⟨routed, moved, success⟩ := Outcome.bind_eq_ok_iff.mp success
  cases success
  exact Routing.compute_made _ _ _ routed moved

theorem reshaped_made (x : Content) (shape : Shape) : MakesResults (x.reshaped shape) := by
  refine .bind fun _ => .bind fun count => ?_
  split
  · exact fail _
  · exact x.view_made shape

theorem squeeze_made (x : Content) (axis : Int) : MakesResults (x.squeeze axis) := by
  refine .bind fun axis => ?_
  dsimp only
  split
  · exact fail _
  split
  · exact fail _
  · exact x.view_made _

theorem concat_made (xs : List Content) (axis : Int) : MakesResults (concat xs axis) := by
  unfold concat
  split
  · refine .bind fun axis => ?_
    split
    · exact fail _
    · exact .bind fun blocks => .bind fun total => Routing.compute_made _ _ _
  · exact fail _

theorem stack_made (xs : List Content) (axis : Int) : MakesResults (stack xs axis) := by
  unfold stack
  split
  · refine .bind fun axis => ?_
    split
    · exact fail _
    · exact .bind fun inner => Routing.compute_made _ _ _
  · exact fail _

theorem unstack_made (x : Content) (axis : Int) : MakesResults (x.unstack axis) := by
  refine .bind fun axis => ?_
  split
  · exact fail _
  · exact .bind fun inner => Routing.compute_made _ _ _

theorem tile_made (x : Content) (axis : Int) (tiles : Nat) : MakesResults (x.tile axis tiles) := by
  refine .bind fun axis => .bind fun _ => .bind fun blocks => ?_
  refine .bind fun length => .bind fun count => ?_
  split
  · exact stop _
  · exact single

theorem untile_made (x : Content) (axis : Int) (tiles : Nat) :
    MakesResults (x.untile axis tiles) := by
  refine .bind fun axis => .bind fun _ => .bind fun blocks => ?_
  split
  · exact fail _
  · exact single

theorem slice_made (x : Content) (offsets sizes : List Nat) :
    MakesResults (x.slice offsets sizes) := by
  unfold slice
  split
  · exact fail _
  · exact .bind fun count => .bind fun origins => single

theorem addBias_made (x bias : Content) : MakesResults (x.addBias bias) := by
  unfold addBias
  split
  · exact fail _
  · exact single

theorem matmul_made (a b : Content) : MakesResults (a.matmul b) := by
  unfold matmul
  split
  · split
    · exact fail _
    · exact single
  · exact fail _

theorem conv2d_made (x kernel bias : Content) (windowing : Windowing) :
    MakesResults (x.conv2d kernel bias windowing) := by
  unfold conv2d
  split
  · split
    · exact fail _
    split
    · exact fail _
    refine .bind fun extents => ?_
    split
    · exact fail _
    · refine .bind fun count => ?_
      split
      · exact stop _
      · exact single
  · exact fail _

theorem normalize_made (x : Content) (settings : Normalization) :
    MakesResults (x.normalize settings) := by
  unfold normalize
  split
  · exact fail _
  · exact single

theorem dropout_made (x : Content) (keep : Float32) (samples : Nat → Float32) :
    MakesResults (x.dropout keep samples) := by
  unfold dropout
  split
  · exact single
  · exact fail _

end Content

/-- Whatever an operation gives was made. -/
theorem Operation.compute_made (op : Operation Content) : MakesResults op.compute := by
  cases op with
  | copy x => exact Routing.compute_made _ _ _
  | concat xs axis => exact Content.concat_made xs axis
  | split x axis partition =>
    exact .bind fun axis => .bind fun lengths => .bind fun blocks => Routing.compute_made _ _ _
  | stack xs axis => exact Content.stack_made xs axis
  | unstack x axis => exact x.unstack_made axis
  | tile x axis count => exact x.tile_made axis count
  | untile x axis count => exact x.untile_made axis count
  | maxReduce x axis count => exact .bind fun grouped => single
  | meanReduce x axis count => exact .bind fun grouped => single
  | squeeze x axis => exact x.squeeze_made axis
  | expand x axis => exact .bind fun axis => x.view_made _
  | reshape x shape => exact x.reshaped_made shape
  | slice x offsets sizes => exact x.slice_made offsets sizes
  | add a b => exact .bind fun _ => single
  | addBias x bias => exact x.addBias_made bias
  | mul a b => exact .bind fun _ => single
  | scale x factor => exact single
  | matmul a b => exact a.matmul_made b
  | relu | sigmoid | tanh | softmax => exact single
  | conv2d x kernel bias windowing => exact x.conv2d_made kernel bias windowing
  | normalize x settings => exact x.normalize_made settings
  | dropout x keep samples => exact x.dropout_made keep samples

/-! ## First contents -/

namespace Content

variable {shape : Shape} {c : Content} {g g' : Generator}

theorem full_made {value : Float32} (success : full shape value = .ok c) : c.Made := by
  obtain ⟨-, -, success⟩ := Outcome.bind_eq_ok_iff.mp success
  obtain ⟨count, -, made⟩ := Outcome.bind_eq_ok_iff.mp success
  exact made_of_make made

theorem uniform_made {low high : Float32} (success : uniform shape low high g = .ok (c, g')) :
    c.Made := by
  obtain ⟨-, -, success⟩ := Outcome.bind_eq_ok_iff.mp success
  split at success
  · cases success
  split at success
  · cases success
  · obtain ⟨count, -, success⟩ := Outcome.bind_eq_ok_iff.mp success
    obtain ⟨_, made, success⟩ := Outcome.bind_eq_ok_iff.mp success
    cases success
    exact made_of_make made

theorem normal_made {std : Float32} (success : normal shape std g = .ok (c, g')) : c.Made := by
  obtain ⟨-, -, success⟩ := Outcome.bind_eq_ok_iff.mp success
  split at success
  · cases success
  · obtain ⟨count, -, success⟩ := Outcome.bind_eq_ok_iff.mp success
    obtain ⟨_, made, success⟩ := Outcome.bind_eq_ok_iff.mp success
    cases success
    exact made_of_make made

theorem glorot_made {fanIn fanOut : Nat} (success : glorot shape fanIn fanOut g = .ok (c, g')) :
    c.Made := by
  obtain ⟨limit, -, success⟩ := Outcome.bind_eq_ok_iff.mp success
  exact uniform_made success

theorem he_made {fanIn : Nat} (success : he shape fanIn g = .ok (c, g')) : c.Made :=
  normal_made success

end Content

end LayerNet
