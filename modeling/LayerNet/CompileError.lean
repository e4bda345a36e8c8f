import LayerNet.TensorError

/-!
# Compile errors — why an architecture did not become a network

A text can be malformed, its statements can contradict each other, and a layer may not fit where it
stands. Each cause keeps what was wrong; the wording is in one place, `CompileError.message`.
-/

namespace LayerNet

/-- What is wrong with a piece of an architecture's text. -/
inductive Malformation where
  /-- A brace closes nothing; the offset counts bytes. -/
  | unmatched (offset : Nat)
  | unclosed
  | emptyStatement
  /-- The left side of a definition is no name. -/
  | badName (name : String)
  | manyEquals
  | emptySegment
  | emptyModule
  /-- Braces that do not enclose a whole segment. -/
  | strayBraces
  /-- A module that only defines. -/
  | noChains

/-- Why an architecture did not become a network. -/
inductive CompileError where
  | blank
  | noLayers
  | emptyChain
  | malformed (architecture : String) (fault : Malformation)
  | duplicateVertex (name : String)
  | duplicateEdge (source target : String)
  | unrecognized (token : String)
  | cyclic (key : String)
  | layer (key : String) (cause : TensorError)
  | tensor (cause : TensorError)

open Text

/-- What is wrong, in words. -/
def Malformation.message : Malformation → String
  | .unmatched offset => "unmatched '\x7d' at offset " ++ toString offset
  | .unclosed => "unclosed '\x7b'"
  | .emptyStatement => "empty statement"
  | .badName name => quoted name ++ " is not a valid definition name"
  | .manyEquals => "more than one '=' in a statement"
  | .emptySegment => "empty chain segment"
  | .emptyModule => "empty module"
  | .strayBraces => "braces must enclose a whole chain segment"
  | .noChains => "module declares no chains"

/-- The text of an error. -/
def CompileError.message : CompileError → String
  | .blank => "Invalid architecture: architecture string is empty"
  | .noLayers => "Invalid architecture: architecture declares no layers"
  | .emptyChain => "Invalid architecture: empty chain"
  | .malformed architecture fault =>
    "Malformed architecture " ++ quoted architecture ++ ": " ++ fault.message
  | .duplicateVertex name => "Vertex " ++ quoted name ++ " is defined more than once"
  | .duplicateEdge source target => s!"Edge {source} -> {target} is declared more than once"
  | .unrecognized token => "Unrecognized layer specification " ++ quoted token
  | .cyclic key => s!"Architecture contains a cycle through {key}"
  | .layer key cause => s!"Layer {key} could not be built: " ++ cause.message
  | .tensor cause => "Tensor error: " ++ cause.message

end LayerNet
