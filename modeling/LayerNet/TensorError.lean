import LayerNet.Decimal.Layout
import LayerNet.Size
import LayerNet.Text.Quoted

/-!
# Tensor errors — why an operation refused its arguments

Each cause keeps the numbers that were wrong and the operation that refused them; the wording is
in one place, `TensorError.message`. Two causes have a vocabulary of their own: the settings that
are outside an operation's domain (`Unsupported`), and the promises between the parts of a network
that were not kept (`Internal`).
-/

namespace LayerNet

/-- Settings or operands outside an operation's domain. -/
inductive Unsupported where
  /-- A standard deviation that is not finite. -/
  | deviation (std : Float32)
  /-- An interval to draw from that is empty. -/
  | interval (low high : Float32)
  /-- Operands of a matrix product that are no matrices. -/
  | operands (left right : List Nat)
  /-- A response normalization without a window or with an offset that is not positive. -/
  | normalization (size : Nat) (alpha beta k : Float32)
  /-- A probability of keeping an element that is zero, negative or above one. -/
  | keep (probability : Float32)
  /-- A learning rate that is not positive or a momentum outside `[0, 1)`. -/
  | descent (rate momentum : Float32)
  /-- Outputs and targets that do not match the sinks one to one. -/
  | lossCounts (sinks outputs targets : Nat)
  /-- A sink that has no loss. -/
  | notLoss (key : String)

/-- A promise between the parts of a network that was not kept. -/
inductive Internal where
  /-- A layer was handed another number of tensors than it takes. -/
  | arity (layer : String) (expected actual : Nat)
  /-- A layer of one input was placed behind several. -/
  | inputShapes (layer : String) (actual : Nat)
  /-- A layer's turn came before its predecessors were built. -/
  | builtEarly (key : String)
  /-- A layer's turn never came. -/
  | neverBuilt (key : String)
  /-- No tensor arrived over an edge into a node. -/
  | missingTensor (key : String)
  /-- A node gave another number of tensors than it has outgoing edges. -/
  | outputCount (key : String) (tensors edges : Nat)
  /-- A network without a sink. -/
  | noSink
  /-- A backward rule of the caller's own failed. -/
  | custom (reason : String)

/-- Why a tensor, a session or an operation refused a call. -/
inductive TensorError where
  | invalidShape (shape : List Nat)
  | outOfRange (index : List Int) (shape : List Nat) (operation : String)
  | shapeMismatch (expected actual : List Nat) (operation : String)
  | negativeAxis (axis : Int) (operation : String)
  | axisOutOfRange (axis rank : Nat) (operation : String)
  | indivisibleSplit (length count : Nat) (operation : String)
  | notUnitAxis (axis size : Nat) (shape : List Nat)
  | rankTooLow (shape : List Nat) (operation : String)
  | emptyTensorList (operation : String)
  | sessionFinalized (operation : String)
  | nonFiniteValue (name : Option String) (position : Nat) (value : Float32)
  | unsupported (reason : Unsupported)
  | internal (reason : Internal)

/-- A computation on tensors: a value, an error or the fatal end. -/
abbrev Checked (α : Type) := Outcome TensorError α

open Text Decimal

/-- What was unsupported, in words. -/
def Unsupported.message : Unsupported → String
  | .deviation std =>
    "randn with std " ++ plain std
      ++ ": variation parameter is non-finite in (log)normal distribution"
  | .interval low high =>
    "uniform requires low < high, got [" ++ plain low ++ ", " ++ plain high ++ ")"
  | .operands left right =>
    "matmul expects rank-2 operands, got " ++ numbers left ++ " and " ++ numbers right
  | .normalization size alpha beta k =>
    "lrn requires size > 0 and k > 0, got LrnConfig \x7b size: " ++ toString size
      ++ ", alpha: " ++ pointed alpha ++ ", beta: " ++ pointed beta
      ++ ", k: " ++ pointed k ++ " \x7d"
  | .keep probability =>
    "dropout keep probability must be in (0, 1], got " ++ plain probability
  | .descent rate momentum =>
    "SGD requires learning_rate > 0 and momentum in [0, 1), got " ++ plain rate
      ++ " and " ++ plain momentum
  | .lossCounts sinks outputs targets =>
    s!"graph has {sinks} sinks but got {outputs} outputs and {targets} targets"
  | .notLoss key => s!"sink {key} is not a loss node"

/-- Which promise was broken, in words. -/
def Internal.message : Internal → String
  | .arity layer expected actual => s!"{layer} expects {expected} input tensor(s), got {actual}"
  | .inputShapes layer actual => s!"{layer} expects one input shape, got {actual}"
  | .builtEarly key => s!"{key} built before its inputs"
  | .neverBuilt key => s!"{key} was never built"
  | .missingTensor key => s!"no tensor on an edge into {key}"
  | .outputCount key tensors edges =>
    s!"{key} produced {tensors} tensors for {edges} outgoing edges"
  | .noSink => "layer graph has no sink"
  | .custom reason => reason

/-- The text of an error. -/
def TensorError.message : TensorError → String
  | .invalidShape shape =>
    "Invalid shape " ++ numbers shape ++ ": every axis must be positive and rank must be at least 1"
  | .outOfRange index shape operation =>
    "Index " ++ listed (index.map toString) ++ " out of range for shape " ++ numbers shape
      ++ " during " ++ operation
  | .shapeMismatch expected actual operation =>
    "Shape mismatch: expected " ++ numbers expected ++ ", got " ++ numbers actual
      ++ " during operation " ++ operation
  | .negativeAxis axis operation => s!"Negative axis index {axis} passed to {operation}"
  | .axisOutOfRange axis rank operation =>
    s!"Axis {axis} out of range for rank {rank} during {operation}"
  | .indivisibleSplit length count operation =>
    s!"Cannot split axis of length {length} into {count} equal parts during {operation}"
  | .notUnitAxis axis size shape =>
    s!"Axis {axis} of shape " ++ numbers shape ++ s!" has size {size}, expected 1"
  | .rankTooLow shape operation =>
    operation ++ " on shape " ++ numbers shape ++ " would produce a tensor of rank < 1"
  | .emptyTensorList operation => s!"Operation {operation} requires at least one input tensor"
  | .sessionFinalized operation =>
    s!"Session has already been finalized; create or reset a session before running {operation}"
  | .nonFiniteValue name position value =>
    "Tensor " ++ orNone (name.map quoted) ++ " holds a non-finite value " ++ plain value
      ++ s!" at position {position}"
  | .unsupported reason => "Unsupported operation: " ++ reason.message
  | .internal reason => "Internal error: " ++ reason.message

end LayerNet
