import LayerNet.Tensor

/-!
# Rules — what an operation leaves behind for the way back

An operation on contents gives new contents and a rule (`Computed`). When the session is replayed,
the rule is shown the operands and results as they are by then, with the gradients of the results
(`Seen`), and answers what is to be added to the gradient of each operand, in argument order. A
rule only adds: it has no way to overwrite a gradient.

What the geometry of the call was is fixed in the rule when it is made.
-/

namespace LayerNet

instance : Inhabited Content := ⟨⟨[], [], #[]⟩⟩

/-- What is added to one gradient: an amount for every element, or amounts at some positions, one
after the other. -/
inductive Delta where
  | whole (amounts : Buffer)
  | sparse (amounts : List (Nat × Float32))

/-- What a rule is shown at replay: operands, results, and the gradients of the results. -/
structure Seen where
  inputs : List Content
  outputs : List Content
  gradients : List Buffer

namespace Seen

/-- An operand. -/
def input (s : Seen) (i : Nat) : Content := s.inputs.getD i default

/-- A result. -/
def output (s : Seen) (i : Nat) : Content := s.outputs.getD i default

/-- The gradient of a result. -/
def gradient (s : Seen) (i : Nat) : Buffer := s.gradients.getD i #[]

end Seen

/-- What is to be added to the gradient of each operand. -/
abbrev Rule := Seen → Checked (List Delta)

/-- What an operation gives: contents and a rule. The results of a view share the buffer of the
first operand. -/
structure Computed where
  outputs : List Content
  rule : Rule
  isView : Bool

namespace Computed

/-- One result with a buffer of its own. -/
def single (output : Content) (rule : Rule) : Computed := ⟨[output], rule, false⟩

end Computed

/-- Adds an amount to the gradient of a tensor. -/
def Tensor.add (t : Tensor) : Delta → Checked Tensor
  | .whole amounts => t.accumulate amounts
  | .sparse amounts => t.scatter amounts

end LayerNet
