import LayerNet.Operation.Arithmetic
import LayerNet.Operation.Box
import LayerNet.Operation.Convolution
import LayerNet.Operation.Dropout
import LayerNet.Operation.Grouping
import LayerNet.Operation.Nonlinear
import LayerNet.Operation.Normalization
import LayerNet.Operation.Product
import LayerNet.Operation.Repetition
import LayerNet.Operation.Routing

/-!
# Calls — an operation with its operands and settings

`Operation α` is a call whose operands are of type `α`: identities when a session is asked for it,
contents when it is computed. What an operation does is a function of the operands' contents alone
(`Operation.compute`); tensors, traces and identities are the session's business.
-/

namespace LayerNet

/-- A call of an operation on operands. -/
inductive Operation (α : Type) where
  | copy (x : α)
  | concat (xs : List α) (axis : Int)
  | split (x : α) (axis : Int) (partition : Partition)
  | stack (xs : List α) (axis : Int)
  | unstack (x : α) (axis : Int)
  | tile (x : α) (axis : Int) (count : Nat)
  | untile (x : α) (axis : Int) (count : Nat)
  | maxReduce (x : α) (axis : Int) (count : Nat)
  | meanReduce (x : α) (axis : Int) (count : Nat)
  | squeeze (x : α) (axis : Int)
  | expand (x : α) (axis : Int)
  | reshape (x : α) (shape : Shape)
  | slice (x : α) (offsets sizes : List Nat)
  | add (a b : α)
  | addBias (x bias : α)
  | mul (a b : α)
  | scale (x : α) (factor : Float32)
  | matmul (a b : α)
  | relu (x : α)
  | sigmoid (x : α)
  | tanh (x : α)
  | softmax (x : α)
  | conv2d (x kernel bias : α) (windowing : Windowing)
  | normalize (x : α) (settings : Normalization)
  | dropout (x : α) (keep : Float32) (samples : Nat → Float32)

namespace Operation

variable {α β : Type}

/-- What traces and messages call the operation. -/
def name : Operation α → String
  | .copy .. => "copy"
  | .concat .. => "concat"
  | .split .. => "split"
  | .stack .. => "stack"
  | .unstack .. => "unstack"
  | .tile .. => "tile"
  | .untile .. => "untile"
  | .maxReduce .. => "max_reduce"
  | .meanReduce .. => "mean_reduce"
  | .squeeze .. => "squeeze"
  | .expand .. => "expand"
  | .reshape .. => "reshape"
  | .slice .. => "slice"
  | .add .. => "add"
  | .addBias .. => "add_bias"
  | .mul .. => "mul"
  | .scale .. => "scale"
  | .matmul .. => "matmul"
  | .relu .. => "relu"
  | .sigmoid .. => "sigmoid"
  | .tanh .. => "tanh"
  | .softmax .. => "softmax"
  | .conv2d .. => "conv2d"
  | .normalize .. => "lrn"
  | .dropout .. => "dropout"

/-- The operands in argument order. -/
def operands : Operation α → List α
  | .copy x | .split x _ _ | .unstack x _ | .tile x _ _ | .untile x _ _ | .maxReduce x _ _
  | .meanReduce x _ _ | .squeeze x _ | .expand x _ | .reshape x _ | .slice x _ _ | .scale x _
  | .relu x | .sigmoid x | .tanh x | .softmax x | .normalize x _ | .dropout x _ _ => [x]
  | .concat xs _ | .stack xs _ => xs
  | .add a b | .mul a b | .matmul a b => [a, b]
  | .addBias x bias => [x, bias]
  | .conv2d x kernel bias _ => [x, kernel, bias]

/-- The same call on the images of its operands. -/
def map (f : α → β) : Operation α → Operation β
  | .copy x => .copy (f x)
  | .concat xs axis => .concat (xs.map f) axis
  | .split x axis partition => .split (f x) axis partition
  | .stack xs axis => .stack (xs.map f) axis
  | .unstack x axis => .unstack (f x) axis
  | .tile x axis count => .tile (f x) axis count
  | .untile x axis count => .untile (f x) axis count
  | .maxReduce x axis count => .maxReduce (f x) axis count
  | .meanReduce x axis count => .meanReduce (f x) axis count
  | .squeeze x axis => .squeeze (f x) axis
  | .expand x axis => .expand (f x) axis
  | .reshape x shape => .reshape (f x) shape
  | .slice x offsets sizes => .slice (f x) offsets sizes
  | .add a b => .add (f a) (f b)
  | .addBias x bias => .addBias (f x) (f bias)
  | .mul a b => .mul (f a) (f b)
  | .scale x factor => .scale (f x) factor
  | .matmul a b => .matmul (f a) (f b)
  | .relu x => .relu (f x)
  | .sigmoid x => .sigmoid (f x)
  | .tanh x => .tanh (f x)
  | .softmax x => .softmax (f x)
  | .conv2d x kernel bias windowing => .conv2d (f x) (f kernel) (f bias) windowing
  | .normalize x settings => .normalize (f x) settings
  | .dropout x keep samples => .dropout (f x) keep samples

/-- The operands of a mapped call are the images of the operands. -/
theorem operands_map (f : α → β) (op : Operation α) : (op.map f).operands = op.operands.map f := by
  cases op <;> rfl

/-- Mapping keeps the operation. -/
theorem name_map (f : α → β) (op : Operation α) : (op.map f).name = op.name := by
  cases op <;> rfl

/-- Images that agree on the operands make the same call. -/
theorem map_congr {f g : α → β} {op : Operation α} (same : ∀ x ∈ op.operands, f x = g x) :
    op.map f = op.map g := by
  cases op with
  | concat xs axis => exact congrArg (concat · axis) (List.map_congr_left same)
  | stack xs axis => exact congrArg (stack · axis) (List.map_congr_left same)
  | _ => simp_all [operands, map]

/-- The results of an operation and its rule. -/
def compute : Operation Content → Checked Computed
  | .copy x => x.copy
  | .concat xs axis => Content.concat xs axis
  | .split x axis partition => x.split axis partition
  | .stack xs axis => Content.stack xs axis
  | .unstack x axis => x.unstack axis
  | .tile x axis count => x.tile axis count
  | .untile x axis count => x.untile axis count
  | .maxReduce x axis count => x.maxReduce axis count
  | .meanReduce x axis count => x.meanReduce axis count
  | .squeeze x axis => x.squeeze axis
  | .expand x axis => x.expand axis
  | .reshape x shape => x.reshaped shape
  | .slice x offsets sizes => x.slice offsets sizes
  | .add a b => a.add b
  | .addBias x bias => x.addBias bias
  | .mul a b => a.mul b
  | .scale x factor => x.scale factor
  | .matmul a b => a.matmul b
  | .relu x => Pointwise.relu.compute x
  | .sigmoid x => Pointwise.sigmoid.compute x
  | .tanh x => Pointwise.tanh.compute x
  | .softmax x => x.softmax
  | .conv2d x kernel bias windowing => x.conv2d kernel bias windowing
  | .normalize x settings => x.normalize settings
  | .dropout x keep samples => x.dropout keep samples

end Operation

end LayerNet
