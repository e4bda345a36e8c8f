import LayerNet.Blueprint.Instantiate
import LayerNet.Proofs.Failures

/-!
# Refusals — a layer is refused for its own shapes and settings

A layer is refused because shapes or settings do not suit it, or the run ends because a number
leaves its range or a value is not finite. A promise between the parts of the network is never what
is missing, as long as the layer is given as many shapes as it takes
(`Blueprint.dutiful_instantiate`); nor does building divide by zero or look for an element that is
not there.
-/

namespace LayerNet

/-- The error does not say that a promise between the parts of a network was not kept. -/
def TensorError.KeepsPromises (e : TensorError) : Prop := ∀ reason, e ≠ .internal reason

/-- Whenever the computation is refused or ends, all promises were kept. -/
abbrev Dutiful {α : Type} (x : Checked α) : Prop :=
  FailsOnly (Failure.Excused TensorError.KeepsPromises) x

/-- The same for a computation that stores and draws parameters. -/
abbrev Building.Dutiful {α : Type} (x : Building α) : Prop :=
  Confined (Failure.Excused TensorError.KeepsPromises) x

/-! ## Sizes, shapes and contents -/

namespace Size

variable {ε : Type} {R : ε → Prop}

theorem failsOnly_check (n : Nat) : FailsOnly (Failure.Excused R) (check n) := by
  unfold check
  split
  · exact .ok n
  · exact .stop nofun

theorem failsOnly_add (a b : Nat) : FailsOnly (Failure.Excused R) (add a b) := failsOnly_check _

theorem failsOnly_mul (a b : Nat) : FailsOnly (Failure.Excused R) (mul a b) := failsOnly_check _

theorem failsOnly_product (ns : List Nat) : FailsOnly (Failure.Excused R) (product ns) :=
  .foldlM ns (fun a b _ => failsOnly_mul a b) 1

end Size

theorem Shape.dutiful_validate (shape : Shape) : Dutiful shape.validate := by
  unfold validate
  split
  · exact .ok ()
  · exact .fail nofun

theorem Shape.dutiful_strides : ∀ shape : Shape, Dutiful shape.strides
  | [] => .ok []
  | [_] => .ok [1]
  | _ :: next :: rest => (dutiful_strides (next :: rest)).bind fun _ _ =>
    (Size.failsOnly_mul _ next).bind fun _ _ => .ok _

namespace Content

theorem dutiful_make (values : Buffer) (shape : Shape) : Dutiful (make values shape) := by
  refine shape.dutiful_validate.bind fun _ _ => ?_
  refine (Size.failsOnly_product shape).bind fun count _ => ?_
  split
  · exact .fail nofun
  split
  · exact .stop nofun
  · exact shape.dutiful_strides.bind fun _ _ => .ok _

theorem dutiful_room (shape : Shape) : Dutiful (room shape) := by
  refine (Size.failsOnly_product shape).bind fun count _ => ?_
  split
  · exact .stop nofun
  · exact .ok count

theorem dutiful_zeros (shape : Shape) : Dutiful (zeros shape) :=
  shape.dutiful_validate.bind fun _ _ => (dutiful_room shape).bind fun _ _ => dutiful_make _ shape

theorem dutiful_uniform (shape : Shape) (low high : Float32) (g : Generator) :
    Dutiful (uniform shape low high g) := by
  refine shape.dutiful_validate.bind fun _ _ => ?_
  split
  · exact .fail nofun
  split
  · exact .stop nofun
  · exact (dutiful_room shape).bind fun _ _ => (dutiful_make _ shape).bind fun _ _ => .ok _

theorem dutiful_normal (shape : Shape) (std : Float32) (g : Generator) :
    Dutiful (normal shape std g) := by
  refine shape.dutiful_validate.bind fun _ _ => ?_
  split
  · exact .fail nofun
  · exact (dutiful_room shape).bind fun _ _ => (dutiful_make _ shape).bind fun _ _ => .ok _

theorem dutiful_glorot (shape : Shape) (fanIn fanOut : Nat) (g : Generator) :
    Dutiful (glorot shape fanIn fanOut g) := by
  have limit : Dutiful (glorotLimit fanIn fanOut) :=
    (Size.failsOnly_add fanIn fanOut).bind fun _ _ => .ok _
  exact limit.bind fun _ _ => dutiful_uniform shape _ _ g

end Content

/-- Windows that are not empty are counted as long as the padded axis has a length. Otherwise the
run ends, however few windows there would have been. -/
theorem Windowing.extent_eq {ε : Type} {input kernel stride padding : Nat}
    (kernel_pos : 0 < kernel) :
    (extent input kernel stride padding : Outcome ε (Option Nat)) =
      if Size.limit ≤ input + 2 * padding then Outcome.stop .overflow
      else if stride = 0 ∨ input + 2 * padding < kernel then .ok none
      else .ok (some ((input + 2 * padding - kernel) / stride + 1)) := by
  unfold extent
  by_cases double : 2 * padding < Size.limit
  · rw [Size.mul_of_lt double]
    show (Size.add input (2 * padding) >>= _) = _
    by_cases padded : input + 2 * padding < Size.limit
    · rw [Size.add_of_lt padded, if_neg (by omega)]
      show (if _ then _ else _) = _
      split
      · rfl
      · have counted : (input + 2 * padding - kernel) / stride + 1 < Size.limit := by
          have := Nat.div_le_self (input + 2 * padding - kernel) stride
          omega
        rw [Size.add_of_lt counted]
        rfl
    · rw [if_pos (by omega), Size.add, Size.check, if_neg padded]
      rfl
  · rw [if_pos (by omega), Size.mul, Size.check, if_neg double]
    rfl

example : (Windowing.extent 28 1 9223372036854775808 9223372036854775808 : Checked (Option Nat))
    = Outcome.stop .overflow := rfl
theorem Windowing.dutiful_extents (w : Windowing) (height width kernelHeight kernelWidth : Nat) :
    Dutiful (w.extents height width kernelHeight kernelWidth) := by
  have along (input kernel stride padding : Nat) :
      Dutiful (extent input kernel stride padding) := by
    refine (Size.failsOnly_mul 2 padding).bind fun _ _ => ?_
    refine (Size.failsOnly_add input _).bind fun _ _ => ?_
    split
    · exact .ok none
    · exact (Size.failsOnly_add _ 1).bind fun _ _ => .ok _
  exact (along height _ _ _).bind fun _ _ => (along width _ _ _).bind fun _ _ => .ok _

/-! ## Layers -/

namespace Building

theorem dutiful_lift {α : Type} {x : Checked α} (only : LayerNet.Dutiful x) : Dutiful (lift x) :=
  .lift only

theorem dutiful_fail {α : Type} {cause : TensorError} (keeps : cause.KeepsPromises) :
    Dutiful (fail cause : Building α) :=
  .lift (.fail keeps)

theorem dutiful_draw {f : Generator → Checked (Content × Generator)}
    (each : ∀ g, LayerNet.Dutiful (f g)) : Dutiful (draw f) :=
  .bind .get fun _ => .bind (dutiful_lift (each _)) fun _ => .bind (.set _) fun _ => .pure _

theorem dutiful_parameter (name : String) (content : Content) : Dutiful (parameter name content) :=
  .modifyGet _

theorem dutiful_zeros (name : String) (shape : Shape) : Dutiful (zeros name shape) :=
  .bind (dutiful_lift (Content.dutiful_zeros shape)) fun _ => dutiful_parameter name _

end Building

namespace Layer

open Building

theorem dutiful_ofInput (shape : Shape) : LayerNet.Dutiful (ofInput shape) :=
  shape.dutiful_validate.bind fun _ _ => .ok _

theorem dutiful_ofUnits (inputShape : Shape) (units : Nat) :
    Building.Dutiful (ofUnits inputShape units) := by
  refine .bind (dutiful_lift (Size.failsOnly_product inputShape)) fun fanIn => ?_
  refine .bind (dutiful_draw (Content.dutiful_glorot _ fanIn units)) fun weight => ?_
  refine .bind (dutiful_lift (Content.dutiful_zeros [units])) fun bias => ?_
  refine .bind (dutiful_parameter _ weight) fun _ => ?_
  exact .bind (dutiful_parameter _ bias) fun _ => .pure _

theorem dutiful_ofFilters (inputShape : Shape) (filters size : Nat) (windowing : Windowing) :
    Building.Dutiful (ofFilters inputShape filters size windowing) := by
  unfold ofFilters
  split
  · refine .bind (dutiful_lift (windowing.dutiful_extents _ _ size size)) fun extents => ?_
    split
    · exact dutiful_fail nofun
    · refine .bind (dutiful_lift (Size.failsOnly_mul size size)) fun area => ?_
      refine .bind (dutiful_lift (Size.failsOnly_mul area _)) fun fanIn => ?_
      refine .bind (dutiful_draw (Content.dutiful_normal _ _)) fun kernel => ?_
      refine .bind (dutiful_parameter _ kernel) fun _ => ?_
      exact .bind (Building.dutiful_zeros _ [filters]) fun _ => .pure _
  · exact dutiful_fail nofun

theorem dutiful_ofPooling (pooling : Pooling) (size : Nat) (inputShape : Shape) :
    LayerNet.Dutiful (ofPooling pooling size inputShape) := by
  unfold ofPooling
  split
  · split
    · exact .fail nofun
    · exact .ok _
  · exact .fail nofun

theorem dutiful_ofStates (inputShape : Shape) (units : Nat) (summarize : Bool) :
    Building.Dutiful (ofStates inputShape units summarize) := by
  unfold ofStates
  split
  · refine .bind (dutiful_lift (Size.failsOnly_product _)) fun features => ?_
    refine .bind (dutiful_draw (Content.dutiful_glorot _ features units)) fun inputWeight => ?_
    refine .bind (dutiful_parameter _ inputWeight) fun _ => ?_
    refine .bind (dutiful_draw (Content.dutiful_glorot _ units units)) fun stateWeight => ?_
    refine .bind (dutiful_parameter _ stateWeight) fun _ => ?_
    exact .bind (Building.dutiful_zeros _ [units]) fun _ => .pure _
  · exact dutiful_fail nofun

theorem dutiful_ofKeep (keep : Float32) (shape : Shape) : LayerNet.Dutiful (ofKeep keep shape) := by
  unfold ofKeep
  split
  · exact .ok _
  · exact .fail nofun

theorem dutiful_ofInputs (inputShapes : List Shape) : LayerNet.Dutiful (ofInputs inputShapes) := by
  unfold ofInputs
  split
  · split
    · exact .fail nofun
    · refine .bind (.foldlM _ (fun width other _ => ?_) _) fun _ _ => .ok _
      split
      · exact .fail nofun
      · exact Size.failsOnly_add width other.width
  · exact .fail nofun

end Layer

/-! ## Blueprints -/

namespace Blueprint

open Building

theorem dutiful_placeInput (dims : List (Option Nat)) (shape : Shape) (isSource : Bool) :
    LayerNet.Dutiful (placeInput dims shape isSource) := by
  have close : LayerNet.Dutiful (closeDims dims shape) := by
    unfold closeDims
    split
    · exact .fail nofun
    · exact .ok _
  refine close.bind fun declared _ => ?_
  split
  · exact .fail nofun
  · exact Layer.dutiful_ofInput declared

theorem dutiful_placeOne (blueprint : Blueprint) (shape : Shape) (placement : Placement) :
    Building.Dutiful (blueprint.placeOne shape placement) := by
  cases blueprint with
  | input dims => exact dutiful_lift (dutiful_placeInput dims shape placement.isSource)
  | fullyConnected units => exact Layer.dutiful_ofUnits shape units
  | convolution filters size windowing => exact Layer.dutiful_ofFilters shape filters size windowing
  | pool pooling size => exact dutiful_lift (Layer.dutiful_ofPooling pooling size shape)
  | recurrent units summarize => exact Layer.dutiful_ofStates shape units summarize
  | dropout keep => exact dutiful_lift (Layer.dutiful_ofKeep keep shape)
  | concat => exact dutiful_lift (Layer.dutiful_ofInputs placement.inputShapes)
  | scale | normalization | split | activation | loss => exact .pure _

/-- A blueprint that is given one shape, or as many as it likes because it is a concatenation, is
refused for its shapes and settings only. -/
theorem dutiful_instantiate {blueprint : Blueprint} {placement : Placement}
    (takes : blueprint.isConcat = false → ∃ shape, placement.inputShapes = [shape]) :
    Building.Dutiful (blueprint.instantiate placement) := by
  unfold instantiate
  split
  next shape _ => exact blueprint.dutiful_placeOne shape placement
  next shapes several =>
    cases isConcat : blueprint.isConcat with
    | true => exact dutiful_lift (Layer.dutiful_ofInputs _)
    | false =>
      obtain ⟨shape, one⟩ := takes isConcat
      exact absurd one (several shape)

end Blueprint

end LayerNet
