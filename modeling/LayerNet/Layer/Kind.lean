import LayerNet.Decimal.Layout

/-!
# Kinds — the closed vocabularies of layers

Which pooling, which non-linearity and which loss: three closed sets with their tokens, and the
names of the kinds of layer.
-/

namespace LayerNet

/-- What a pooling layer takes of its window. -/
inductive Pooling where
  | max
  | average
  deriving Repr, DecidableEq

/-- The last letters of a pooling token. -/
def Pooling.token : Pooling → String
  | .max => "MP"
  | .average => "AP"

/-- The non-linearities. -/
inductive Activation where
  | relu
  | sigmoid
  | tanh
  | softmax
  deriving Repr, DecidableEq

/-- The token of a non-linearity. -/
def Activation.token : Activation → String
  | .relu => "RELU"
  | .sigmoid => "SIGMOID"
  | .tanh => "TANH"
  | .softmax => "SOFTMAX"

/-- All non-linearities. -/
def Activation.all : List Activation := [.relu, .sigmoid, .tanh, .softmax]

/-- The losses: cross-entropy of the softmax, and half the squared error. -/
inductive Loss where
  | crossEntropy
  | squared
  deriving Repr, DecidableEq

/-- The token of a loss. -/
def Loss.token : Loss → String
  | .crossEntropy => "SM"
  | .squared => "L2"

/-- All losses. -/
def Loss.all : List Loss := [.crossEntropy, .squared]

/-- The kinds of layer. -/
inductive LayerKind where
  | input
  | fullyConnected
  | convolution
  | maxPool
  | averagePool
  | recurrent
  | dropout
  | scale
  | normalization
  | split
  | concat
  | activation
  | loss
  deriving Repr, DecidableEq

/-- A setting as tokens write it: whole numbers below ten million without a point. -/
def settingText (value : Float32) : String :=
  if value == value.floor && value.abs < 1e7 then Decimal.plain (Decimal.unsignedZero value)
  else Decimal.plain value

end LayerNet
