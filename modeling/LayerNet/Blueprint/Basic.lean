import LayerNet.Layer.Kind
import LayerNet.Operation.Convolution

/-!
# Blueprints — what a token asks for

A blueprint is a recognized layer token: the kind of layer and its settings, before the shapes are
known that it will be built for. An input may leave axes open (`none`), to be taken from the shape
of the network's input.
-/

namespace LayerNet

/-- A layer asked for, with its settings. -/
inductive Blueprint where
  | input (dims : List (Option Nat))
  | fullyConnected (units : Nat)
  | convolution (filters size : Nat) (windowing : Windowing)
  | pool (pooling : Pooling) (size : Nat)
  | recurrent (units : Nat) (summarize : Bool)
  | dropout (keep : Float32)
  | scale (factor : Float32)
  | normalization (size : Option Nat)
  | split
  | concat
  | activation (activation : Activation)
  | loss (loss : Loss)

namespace Blueprint

/-- Whether a split is asked for. -/
def isSplit : Blueprint → Bool
  | split => true
  | _ => false

/-- Whether a concatenation is asked for. -/
def isConcat : Blueprint → Bool
  | concat => true
  | _ => false

/-- Whether an input is asked for. -/
def isInput : Blueprint → Bool
  | input _ => true
  | _ => false

/-- The blueprint's name in keys and messages. It leaves out what an input, a convolution or a
normalization may also say. -/
def title : Blueprint → String
  | input _ => "input"
  | fullyConnected units => s!"{units}N"
  | convolution filters size _ => s!"{filters}C{size}x{size}"
  | pool pooling size => s!"{size}x{size}" ++ pooling.token
  | recurrent units summarize => toString units ++ (if summarize then "RS" else "R")
  | dropout keep => "D" ++ Decimal.plain keep
  | scale factor => "S" ++ Decimal.plain factor
  | normalization _ => "LRN"
  | split => "SPLIT"
  | concat => "CONCAT"
  | activation a => a.token
  | loss l => l.token

end Blueprint

end LayerNet
