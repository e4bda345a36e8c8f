import LayerNet.Layer.Basic
import LayerNet.Initial
import LayerNet.Session

/-!
# Running layers — one tensor per edge in, one per edge out

A layer checks how many tensors it is handed and, where its parameters depend on it, the shape of a
sample; then it runs its operations in the session at work. A layer that fails midway leaves the
operations recorded that it had run by then.
-/

namespace LayerNet

namespace Layer

open Session

/-- The only tensor that a layer of one input is handed. -/
def onlyInput (layer : String) : List TensorId → Step TensorError TensorId
  | [x] => pure x
  | xs => Step.fail (.internal (.arity layer 1 xs.length))

/-- The number of samples in a batch of samples of the given shape. -/
def batchSize (x : TensorId) (sample : Shape) (layer : String) : Step TensorError Nat := do
  let shape := (← Step.tensor x).shape
  if shape.drop 1 = sample ∧ shape ≠ [] then return shape.extent 0
  else Step.fail (.shapeMismatch (shape.headD 1 :: sample) shape layer)

/-- The tensor with samples flattened as the rows of a parameter ask, unless they are flat. -/
def flatten (x : TensorId) (leading : List Nat) (isFlat : Bool) (weight : TensorId) :
    Step TensorError TensorId := do
  if isFlat then return x
  else
    let features ← Step.lift (Outcome.get (← Step.tensor weight).shape.head?)
    apply1 (.reshape x (leading ++ [features]))

/-- A fully connected layer: `x · W + b`. -/
def forwardUnits (x : TensorId) (inputShape : Shape) (weight bias : TensorId) :
    Step TensorError (List TensorId) := do
  let batch ← batchSize x inputShape "fully_connected"
  let flat ← flatten x [batch] (inputShape.rank = 1) weight
  let product ← apply1 (.matmul flat weight)
  return [← apply1 (.addBias product bias)]

/-- One step of a recurrence: `tanh ((x · Wx + h · Wh) + b)`. -/
def nextState (frame state inputWeight stateWeight bias : TensorId) :
    Step TensorError TensorId := do
  let fromInput ← apply1 (.matmul frame inputWeight)
  let fromState ← apply1 (.matmul state stateWeight)
  let sum ← apply1 (.add fromInput fromState)
  let biased ← apply1 (.addBias sum bias)
  apply1 (.tanh biased)

/-- The states of a recurrence, from an initial one. -/
def states (inputWeight stateWeight bias : TensorId) (state : TensorId) :
    List TensorId → Step TensorError (List TensorId)
  | [] => pure []
  | frame :: rest => do
    let next ← nextState frame state inputWeight stateWeight bias
    return next :: (← states inputWeight stateWeight bias next rest)

/-- A recurrent layer, unrolled over the frames of a batch from a state of zeros. -/
def forwardStates (x : TensorId) (inputShape : Shape) (summarize : Bool)
    (inputWeight stateWeight bias : TensorId) : Step TensorError (List TensorId) := do
  let batch ← batchSize x inputShape "recurrent"
  let sequence ← flatten x [batch, inputShape.extent 0] (inputShape.rank = 2) inputWeight
  let frames ← apply (.unstack sequence 1)
  let units := (← Step.tensor bias).count
  let start ← Step.add (← Step.lift (Content.zeros [batch, units])) none
  let hs ← states inputWeight stateWeight bias start frames
  if summarize then return [hs.getLastD start] else return [← apply1 (.stack hs 1)]

/-- A pooling layer: the windows' rows first, then their columns. -/
def forwardPooling (x : TensorId) (pooling : Pooling) (size : Nat) (inputShape : Shape) :
    Step TensorError (List TensorId) := do
  let _ ← batchSize x inputShape "pool"
  match pooling with
  | .max =>
    let rows ← apply1 (.maxReduce x 1 size)
    return [← apply1 (.maxReduce rows 2 size)]
  | .average =>
    let rows ← apply1 (.meanReduce x 1 size)
    return [← apply1 (.meanReduce rows 2 size)]

/-- A dropout layer, which lets everything pass unless the session trains. -/
def forwardDropout (x : TensorId) (keep : Float32) : Step TensorError (List TensorId) := do
  let machine ← get
  if !machine.session.training then return [x]
  else
    let count := (← Step.tensor x).count
    let (samples, noise) := machine.noise.units count
    set { machine with noise }
    return [← apply1 (.dropout x keep samples)]

/-- A loss layer: the prediction, whose gradient goes to the input unchanged. -/
def forwardLoss (x : TensorId) (loss : Loss) : Step TensorError (List TensorId) := do
  let tensor ← Step.tensor x
  let values :=
    match loss with
    | .crossEntropy => tensor.values.softmax tensor.shape.width
    | .squared => tensor.values
  let output ← Step.lift (Content.make values tensor.shape)
  return [← record "loss" [x] output passThrough]

/-- An activation layer. -/
def forwardActivation (x : TensorId) : Activation → Step TensorError (List TensorId)
  | .relu => apply (.relu x)
  | .sigmoid => apply (.sigmoid x)
  | .tanh => apply (.tanh x)
  | .softmax => apply (.softmax x)

/-- Runs a layer on one tensor per incoming edge and gives one tensor per outgoing edge. -/
def forward (layer : Layer) (xs : List TensorId) : Step TensorError (List TensorId) := do
  match layer with
  | input shape =>
    let x ← onlyInput "input" xs
    let _ ← batchSize x shape "input"
    return [x]
  | fullyConnected inputShape _ weight bias =>
    forwardUnits (← onlyInput "fully_connected" xs) inputShape weight bias
  | convolution inputShape _ windowing kernel bias =>
    let x ← onlyInput "convolution" xs
    let _ ← batchSize x inputShape "convolution"
    apply (.conv2d x kernel bias windowing)
  | pool pooling size inputShape _ =>
    forwardPooling (← onlyInput "pool" xs) pooling size inputShape
  | recurrent inputShape _ summarize inputWeight stateWeight bias =>
    forwardStates (← onlyInput "recurrent" xs) inputShape summarize inputWeight stateWeight bias
  | dropout keep _ => forwardDropout (← onlyInput "dropout" xs) keep
  | scale factor _ => apply (.scale (← onlyInput "scale" xs) factor)
  | normalization settings _ => apply (.normalize (← onlyInput "lrn" xs) settings)
  | split branches _ =>
    let x ← onlyInput "split" xs
    (List.range branches).mapM fun _ => apply1 (.copy x)
  | concat inputs shape =>
    if xs.length ≠ inputs then Step.fail (.internal (.arity "concat" inputs xs.length))
    else apply (.concat xs shape.rank)
  | activation a _ => forwardActivation (← onlyInput "activation" xs) a
  | loss l _ => forwardLoss (← onlyInput "loss" xs) l

end Layer

/-! ## Losses -/

namespace Loss

/-- What one element adds to the loss. -/
def term (loss : Loss) (predicted expected : Float32) : Float32 :=
  match loss with
  | .crossEntropy => -expected * Float32.log (Scalar.max predicted 1e-12)
  | .squared => 0.5 * (predicted - expected) * (predicted - expected)

/-- The mean loss of a batch of predictions; the gradient `(prediction - target) / batch` is added
to the predictions. -/
def seed (loss : Loss) (output target : TensorId) : Step TensorError Float32 := do
  let predicted ← Step.tensor output
  let expected ← Step.tensor target
  if expected.shape ≠ predicted.shape then
    Step.fail (.shapeMismatch predicted.shape expected.shape "seed_gradient")
  else
    let batch := Float32.ofNat (predicted.shape.extent 0)
    let total := Buffer.sum (Buffer.combine loss.term predicted.values expected.values).toList
    let gradient := Buffer.combine (fun y t => (y - t) / batch) predicted.values expected.values
    let seeded ← Step.lift (predicted.accumulate gradient)
    Step.modifyStore fun s => s.put output seeded
    return total / batch

end Loss

end LayerNet
