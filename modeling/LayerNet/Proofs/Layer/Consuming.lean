import LayerNet.Proofs.Operation.Stacks
import LayerNet.Proofs.Session.Consuming

/-!
# Consuming layers — a layer that runs through has consumed its parameters

All that a layer does is part of a recording, whatever it refers to and whatever it is run on
(`Layer.proceeds_forward`). And whenever it runs through, each of its parameters was consumed
(`Layer.consumes_forward`): every trainable layer hands all of them to operations. In a recurrent
layer these are the operations of its steps, and there is a step, because an axis of a tensor that
is well formed is never empty (`Content.unstack_ne_nil`). If there were a sequence without frames,
the state of zeros would be the result and nothing would be consumed.
-/

namespace LayerNet

open Step

/-- A well-formed tensor has a member along every axis. -/
theorem Content.unstack_ne_nil {x : Content} (wf : x.WellFormed) {axis : Int} {c : Computed}
    (success : x.unstack axis = .ok c) : c.outputs ≠ [] := by
  obtain ⟨a, there, moved⟩ := Outcome.bind_eq_ok_iff.mp success
  obtain ⟨rfl, inside⟩ := Shape.axis_eq_ok_iff.mp there
  split at moved
  · cases moved
  obtain ⟨inner, -, moved⟩ := Outcome.bind_eq_ok_iff.mp moved
  intro none
  have shapes := Routing.shapes_of_compute moved
  rw [none, List.map_nil, eq_comm, List.replicate_eq_nil_iff] at shapes
  refine wf.valid.2 ?_
  rw [← shapes, Shape.extent_of_getElem? (List.getElem?_eq_getElem inside)]
  exact List.getElem_mem inside

/-- Unstacking that succeeds gives some members. -/
theorem Session.unstack_ne_nil {m m' : Machine} (wf : m.store.WellFormed) {x : TensorId}
    {axis : Int} {frames : List TensorId} (run : (apply (.unstack x axis)).run m = (.ok frames, m')) :
    frames ≠ [] := by
  rcases run_apply (.unstack x axis) m with
    ⟨failure, failed⟩ | ⟨computed, ids, store, there, success, adds, ran⟩
  · cases failed.symm.trans run
  cases ran.symm.trans run
  obtain ⟨c, content⟩ := there x (List.mem_singleton_self x)
  have whole : c.unstack axis = .ok computed := by
    have operand : operandsOf m.store (.unstack x axis) = .unstack c axis := by
      unfold operandsOf
      show Operation.unstack ((m.store.content? x).getD default) axis = _
      rw [content]
      rfl
    rw [operand] at success
    exact success
  intro none
  have length := adds.added.length_eq
  rw [none] at length
  exact Content.unstack_ne_nil (wf.content content) whole (List.length_eq_zero_iff.mp length.symm)

namespace Layer

/-! ## All layers proceed -/

theorem proceeds_onlyInput (layer : String) (xs : List TensorId) :
    (onlyInput layer xs).Proceeds := by
  unfold onlyInput
  split
  · exact proceeds_pure _
  · exact proceeds_fail _

theorem proceeds_batchSize (x : TensorId) (sample : Shape) (layer : String) :
    (batchSize x sample layer).Proceeds :=
  (proceeds_tensor x).bind fun t => by
    dsimp only
    split
    · exact proceeds_pure _
    · exact proceeds_fail _

theorem proceeds_flatten (x : TensorId) (leading : List Nat) (isFlat : Bool) (weight : TensorId) :
    (flatten x leading isFlat weight).Proceeds := by
  unfold flatten
  split
  · exact proceeds_pure _
  · exact (proceeds_tensor weight).bind fun t => (proceeds_lift _).bind fun features =>
      Session.proceeds_apply1 _

theorem proceeds_forwardUnits (x : TensorId) (inputShape : Shape) (weight bias : TensorId) :
    (forwardUnits x inputShape weight bias).Proceeds :=
  (proceeds_batchSize _ _ _).bind fun _ => (proceeds_flatten _ _ _ _).bind fun _ =>
    (Session.proceeds_apply1 _).bind fun _ => (Session.proceeds_apply1 _).bind fun _ =>
      proceeds_pure _

theorem proceeds_nextState (frame state inputWeight stateWeight bias : TensorId) :
    (nextState frame state inputWeight stateWeight bias).Proceeds :=
  (Session.proceeds_apply1 _).bind fun _ => (Session.proceeds_apply1 _).bind fun _ =>
    (Session.proceeds_apply1 _).bind fun _ => (Session.proceeds_apply1 _).bind fun _ =>
      Session.proceeds_apply1 _

theorem proceeds_states (inputWeight stateWeight bias state : TensorId) (frames : List TensorId) :
    (states inputWeight stateWeight bias state frames).Proceeds := by
  induction frames generalizing state with
  | nil => exact proceeds_pure _
  | cons frame rest ih =>
    exact (proceeds_nextState _ _ _ _ _).bind fun next => (ih next).bind fun hs => proceeds_pure _

/-- What follows the unrolling of a recurrence. -/
theorem proceeds_gather (summarize : Bool) (start : TensorId) (hs : List TensorId) :
    (if summarize then return [hs.getLastD start]
      else return [← Session.apply1 (.stack hs 1)] :
      Step TensorError (List TensorId)).Proceeds := by
  split
  · exact proceeds_pure _
  · exact (Session.proceeds_apply1 _).bind fun stacked => proceeds_pure _

theorem proceeds_add_zeros {shape : Shape} {zeros : Content}
    (filled : Content.zeros shape = .ok zeros) :
    (Step.add zeros none : Step TensorError TensorId).Proceeds := by
  obtain ⟨-, -, filled⟩ := Outcome.bind_eq_ok_iff.mp filled
  obtain ⟨count, -, made⟩ := Outcome.bind_eq_ok_iff.mp filled
  exact proceeds_add made none

theorem proceeds_forwardStates (x : TensorId) (inputShape : Shape) (summarize : Bool)
    (inputWeight stateWeight bias : TensorId) :
    (forwardStates x inputShape summarize inputWeight stateWeight bias).Proceeds :=
  (proceeds_batchSize _ _ _).bind fun _ => (proceeds_flatten _ _ _ _).bind fun _ =>
    (Session.proceeds_apply _).bind fun _ => (proceeds_tensor bias).bind fun _ =>
      proceeds_bind_lift fun _ filled => (proceeds_add_zeros filled).bind fun _ =>
        (proceeds_states _ _ _ _ _).bind fun _ => proceeds_gather _ _ _

theorem proceeds_forwardPooling (x : TensorId) (pooling : Pooling) (size : Nat)
    (inputShape : Shape) : (forwardPooling x pooling size inputShape).Proceeds :=
  (proceeds_batchSize _ _ _).bind fun _ => by
    split <;> exact (Session.proceeds_apply1 _).bind fun rows =>
      (Session.proceeds_apply1 _).bind fun pooled => proceeds_pure _

/-- The noise is drawn on the machine that the tensor was read from. -/
theorem proceeds_forwardDropout (x : TensorId) (keep : Float32) :
    (forwardDropout x keep).Proceeds := by
  intro m sound
  unfold forwardDropout
  rw [run_bind_ok (run_get m)]
  split
  · exact .refl
  rcases run_bind_tensor x _ m with ⟨failure, run⟩ | ⟨t, -, run⟩ <;> rw [run]
  have struck := ((Session.proceeds_apply1 (.dropout x keep (m.noise.units t.count).1)).bind
    fun y => proceeds_pure [y]) { m with noise := (m.noise.units t.count).2 }
  have drawn : Records m { m with noise := (m.noise.units t.count).2 } := .draw m _
  exact .head drawn (struck (sound.of_records drawn))

theorem proceeds_forwardLoss (x : TensorId) (loss : Loss) : (forwardLoss x loss).Proceeds :=
  fun m _ => .single (.loss m x loss)

/-- A layer, whatever it refers to and whatever it is run on. -/
theorem proceeds_forward (layer : Layer) (xs : List TensorId) : (layer.forward xs).Proceeds := by
  unfold forward
  cases layer with
  | input shape =>
    exact (proceeds_onlyInput _ _).bind fun x => (proceeds_batchSize _ _ _).bind fun _ =>
      proceeds_pure _
  | fullyConnected => exact (proceeds_onlyInput _ _).bind fun x => proceeds_forwardUnits _ _ _ _
  | convolution =>
    exact (proceeds_onlyInput _ _).bind fun x => (proceeds_batchSize _ _ _).bind fun _ =>
      Session.proceeds_apply _
  | pool => exact (proceeds_onlyInput _ _).bind fun x => proceeds_forwardPooling _ _ _ _
  | recurrent => exact (proceeds_onlyInput _ _).bind fun x => proceeds_forwardStates _ _ _ _ _ _
  | dropout => exact (proceeds_onlyInput _ _).bind fun x => proceeds_forwardDropout _ _
  | scale | normalization =>
    exact (proceeds_onlyInput _ _).bind fun x => Session.proceeds_apply _
  | split branches shape =>
    exact (proceeds_onlyInput _ _).bind fun x =>
      proceeds_mapM (fun _ => Session.proceeds_apply1 _) _
  | concat inputs shape =>
    dsimp only
    split
    · exact proceeds_fail _
    · exact Session.proceeds_apply _
  | activation a shape =>
    refine (proceeds_onlyInput _ _).bind fun x => ?_
    cases a <;> exact Session.proceeds_apply _
  | loss l shape => exact (proceeds_onlyInput _ _).bind fun x => proceeds_forwardLoss _ _

/-! ## Trainable layers consume -/

/-- The weight is multiplied with, then the bias is added. -/
theorem consumes_forwardUnits (x : TensorId) (inputShape : Shape) {weight bias id : TensorId}
    (parameter : id ∈ [weight, bias]) : (forwardUnits x inputShape weight bias).Consumes id := by
  refine (proceeds_batchSize _ _ _).consumes_bind fun _ =>
    (proceeds_flatten _ _ _ _).consumes_bind fun flat => ?_
  simp only [List.mem_cons, List.not_mem_nil, or_false] at parameter
  rcases parameter with rfl | rfl
  · refine (Session.consumes_apply1 (.matmul flat id) ?_).bind fun product =>
      (Session.proceeds_apply1 _).bind fun _ => proceeds_pure _
    exact List.mem_cons_of_mem _ (List.mem_singleton_self id)
  · refine (Session.proceeds_apply1 _).consumes_bind fun product =>
      (Session.consumes_apply1 (.addBias product id) ?_).bind fun _ => proceeds_pure _
    exact List.mem_cons_of_mem _ (List.mem_singleton_self id)

section Recurrent

variable {inputWeight stateWeight bias id : TensorId}
  (parameter : id ∈ [inputWeight, stateWeight, bias])
include parameter

/-- Each step of a recurrence takes all parameters. -/
theorem consumes_nextState (frame state : TensorId) :
    (nextState frame state inputWeight stateWeight bias).Consumes id := by
  have last (y : TensorId) : id ∈ [y, id] := List.mem_cons_of_mem y (List.mem_singleton_self id)
  simp only [List.mem_cons, List.not_mem_nil, or_false] at parameter
  rcases parameter with rfl | rfl | rfl
  · exact (Session.consumes_apply1 (.matmul frame id) (last frame)).bind fun _ =>
      (Session.proceeds_apply1 _).bind fun _ => (Session.proceeds_apply1 _).bind fun _ =>
        (Session.proceeds_apply1 _).bind fun _ => Session.proceeds_apply1 _
  · exact (Session.proceeds_apply1 _).consumes_bind fun _ =>
      (Session.consumes_apply1 (.matmul state id) (last state)).bind fun _ =>
        (Session.proceeds_apply1 _).bind fun _ => (Session.proceeds_apply1 _).bind fun _ =>
          Session.proceeds_apply1 _
  · exact (Session.proceeds_apply1 _).consumes_bind fun _ =>
      (Session.proceeds_apply1 _).consumes_bind fun _ =>
        (Session.proceeds_apply1 _).consumes_bind fun sum =>
          (Session.consumes_apply1 (.addBias sum id) (last sum)).bind fun _ =>
            Session.proceeds_apply1 _

/-- The first frame is enough. -/
theorem consumes_states (state : TensorId) {frames : List TensorId} (some? : frames ≠ []) :
    (states inputWeight stateWeight bias state frames).Consumes id := by
  cases frames with
  | nil => exact absurd rfl some?
  | cons frame rest =>
    exact (consumes_nextState parameter frame state).bind fun next =>
      (proceeds_states _ _ _ _ _).bind fun hs => proceeds_pure _

theorem consumes_forwardStates (x : TensorId) (inputShape : Shape) (summarize : Bool) :
    (forwardStates x inputShape summarize inputWeight stateWeight bias).Consumes id := by
  refine (proceeds_batchSize _ _ _).consumes_bind fun _ =>
    (proceeds_flatten _ _ _ _).consumes_bind fun sequence =>
      (Session.proceeds_apply _).consumes_bind_of_run fun m frames m' sound run => ?_
  have some? := Session.unstack_ne_nil sound.store run
  refine (proceeds_tensor bias).consumes_bind fun t =>
    (proceeds_lift _).consumes_bind_of_run fun m₁ zeros m₁' _ filled => ?_
  exact (proceeds_add_zeros (congrArg Prod.fst filled)).consumes_bind fun start =>
    (consumes_states parameter start some?).bind fun hs => proceeds_gather _ _ _

end Recurrent

/-- Wherever a layer runs through, it has consumed its parameters. -/
theorem consumes_forward {layer : Layer} (xs : List TensorId) {id : TensorId}
    (parameter : id ∈ layer.parameters) : (layer.forward xs).Consumes id := by
  unfold forward
  cases layer with
  | fullyConnected inputShape _ weight bias =>
    exact (proceeds_onlyInput _ _).consumes_bind fun x => consumes_forwardUnits x _ parameter
  | convolution inputShape _ windowing kernel bias =>
    exact (proceeds_onlyInput _ _).consumes_bind fun x =>
      (proceeds_batchSize _ _ _).consumes_bind fun _ =>
        Session.consumes_apply (.conv2d x kernel bias windowing)
          (List.mem_cons_of_mem x parameter)
  | recurrent inputShape _ summarize inputWeight stateWeight bias =>
    exact (proceeds_onlyInput _ _).consumes_bind fun x =>
      consumes_forwardStates parameter x _ summarize
  | _ => exact absurd parameter List.not_mem_nil

end Layer

end LayerNet
