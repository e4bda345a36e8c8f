import LayerNet.Architecture.Syntax
import LayerNet.CompileError
import LayerNet.Text.Blank

/-!
# Reading architectures — text to statements

Commas separate statements, one equals sign separates a name from its value, tildes separate the
segments of a chain, and braces enclose a module; blanks around any part are dropped. A delimiter
counts only where no brace is open (`cut`), so a module is one piece however much it holds.

A reader of module bodies is a parameter of the readers of segments, chains and statements;
`readNested` ties the knot, down to a depth that braces in the text cannot exceed.
-/

namespace LayerNet

namespace Reader

open Text

/-- The text with a character put in front of its first piece. -/
def onFirst (c : Char) : List (List Char) → List (List Char)
  | [] => [[c]]
  | piece :: rest => (c :: piece) :: rest

/-- The pieces of a text between delimiters at brace depth zero, from a depth and an offset on. -/
def cut (delimiter : Char) (depth offset : Nat) : List Char → Except Malformation (List (List Char))
  | [] => if depth = 0 then .ok [[]] else .error .unclosed
  | c :: rest =>
    let next := offset + c.utf8Size
    if c = '\x7b' then (onFirst c) <$> cut delimiter (depth + 1) next rest
    else if c = '\x7d' then
      if depth = 0 then .error (.unmatched offset)
      else (onFirst c) <$> cut delimiter (depth - 1) next rest
    else if c = delimiter ∧ depth = 0 then ([] :: ·) <$> cut delimiter depth next rest
    else (onFirst c) <$> cut delimiter depth next rest

/-- A fault of a text. -/
def malformed {α : Type} (text : List Char) (fault : Malformation) : Except CompileError α :=
  .error (.malformed (String.ofList text) fault)

/-- The pieces of a text between delimiters, without the blanks around them. -/
def pieces (delimiter : Char) (text : List Char) : Except CompileError (List (List Char)) :=
  match cut delimiter 0 0 text with
  | .ok parts => .ok (parts.map trim)
  | .error fault => malformed text fault

/-- Whether braces are balanced from a depth on. -/
def isBalanced : Nat → List Char → Bool
  | depth, [] => depth = 0
  | depth, c :: rest =>
    if c = '\x7b' then isBalanced (depth + 1) rest
    else if c = '\x7d' then 0 < depth && isBalanced (depth - 1) rest
    else isBalanced depth rest

/-- The inside of a text that is one pair of braces around a balanced rest. -/
def moduleBody? (text : List Char) : Option (List Char) :=
  match text with
  | '\x7b' :: rest =>
    if rest.getLast? = some '\x7d' ∧ isBalanced 0 rest.dropLast then some rest.dropLast else none
  | _ => none

/-- Whether a character may begin a name. -/
def beginsName (c : Char) : Bool := ('a' ≤ c && c ≤ 'z') || ('A' ≤ c && c ≤ 'Z') || c = '_'

/-- Whether a character may stand in a name. -/
def continuesName (c : Char) : Bool := beginsName c || ('0' ≤ c && c ≤ '9')

/-- Whether a text is a name: ASCII letters, digits and underscores, no digit first. -/
def isName : List Char → Bool
  | [] => false
  | c :: rest => beginsName c && rest.all continuesName

/-- Reads the statements between the braces of a module. -/
abbrev BodyReader := List Char → Except CompileError (List Statement)

/-- Reads a segment of a chain. -/
def readSegment (readBody : BodyReader) (chain segment : List Char) : Except CompileError Segment :=
  if segment = [] then malformed chain .emptySegment
  else
    match moduleBody? segment with
    | some body =>
      if isBlankText body then malformed segment .emptyModule
      else .module <$> readBody body
    | none =>
      if '\x7b' ∈ segment ∨ '\x7d' ∈ segment then malformed segment .strayBraces
      else .ok (.token (String.ofList segment))

/-- Reads a chain. -/
def readChain (readBody : BodyReader) (chain : List Char) : Except CompileError (List Segment) := do
  (← pieces '~' chain).mapM (readSegment readBody chain)

/-- Reads a statement. -/
def readStatement (readBody : BodyReader) (text : List Char) : Except CompileError Statement := do
  match ← pieces '=' text with
  | [chain] => .chain <$> readChain readBody chain
  | [name, value] =>
    if isName name then .define (String.ofList name) <$> readChain readBody value
    else malformed text (.badName (String.ofList name))
  | _ => malformed text .manyEquals

/-- The statements of a text, not yet read. -/
def splitStatements (text : List Char) : Except CompileError (List (List Char)) := do
  let parts ← pieces ',' text
  if [] ∈ parts then malformed text .emptyStatement else return parts

/-- Reads a statement list. -/
def readStatements (readBody : BodyReader) (text : List Char) :
    Except CompileError (List Statement) := do
  (← splitStatements text).mapM (readStatement readBody)

/-- Reads a statement list with modules nested to a depth. -/
def readNested : Nat → BodyReader
  | 0 => fun text => malformed text .strayBraces
  | depth + 1 => readStatements (readNested depth)

end Reader

/-- Reads an architecture. Every module is shorter than the text around it, so the length of the
text bounds the depth. -/
def readArchitecture (text : String) : Except CompileError (List Statement) :=
  let cs := text.toList
  if Text.isBlankText cs then .error .blank else Reader.readNested (cs.length + 1) cs

/-- The top-level statements of an architecture, as they are written. -/
def splitArchitecture (text : String) : Except CompileError (List String) := do
  return (← Reader.splitStatements text.toList).map String.ofList

end LayerNet
