import LayerNet.Text.Quoted

/-!
# Architectures — statements, chains and modules

An architecture is a list of statements. A statement is a chain of segments or a definition that
gives a chain a name; a segment is a token or a module, a list of statements of its own. Whether a
token names a definition or asks for a layer is decided later, where the definitions in scope are
known.
-/

namespace LayerNet

mutual

/-- A link of a chain. -/
inductive Segment where
  | token (text : String)
  | module (body : List Statement)

/-- A chain, or a chain with a name. -/
inductive Statement where
  | define (name : String) (value : List Segment)
  | chain (segments : List Segment)

end

namespace Statement

/-- The segments of a chain. -/
def chain? : Statement → Option (List Segment)
  | .chain segments => some segments
  | .define .. => none

/-- The name and the value of a definition. -/
def definition? : Statement → Option (String × List Segment)
  | .define name value => some (name, value)
  | .chain _ => none

end Statement

/-- The chains of a statement list, in order. -/
def chains (statements : List Statement) : List (List Segment) :=
  statements.filterMap Statement.chain?

/-- The definitions of a statement list, in order. -/
def definitions (statements : List Statement) : List (String × List Segment) :=
  statements.filterMap Statement.definition?

/-! ## As messages show them -/

open Text

mutual

/-- A segment in a message. -/
def Segment.shown : Segment → String
  | .token text => "Token(" ++ quoted text ++ ")"
  | .module body => "Module(" ++ listed (Statement.shownAll body) ++ ")"

/-- The segments of a chain in a message. -/
def Segment.shownAll : List Segment → List String
  | [] => []
  | segment :: rest => segment.shown :: Segment.shownAll rest

/-- A statement in a message. -/
def Statement.shown : Statement → String
  | .define name value =>
    "Define \x7b name: " ++ quoted name ++ ", value: " ++ listed (Segment.shownAll value) ++ " \x7d"
  | .chain segments => "Chain(" ++ listed (Segment.shownAll segments) ++ ")"

/-- The statements of a list in a message. -/
def Statement.shownAll : List Statement → List String
  | [] => []
  | statement :: rest => statement.shown :: Statement.shownAll rest

end

/-! ## Sizes -/

mutual

/-- How many tokens, modules and names a segment is made of. -/
def Segment.size : Segment → Nat
  | .token _ => 1
  | .module body => 1 + Statement.sizeAll body

/-- How many tokens, modules and names the segments of a chain are made of. -/
def Segment.sizeAll : List Segment → Nat
  | [] => 0
  | segment :: rest => segment.size + Segment.sizeAll rest

/-- How many tokens, modules and names a statement is made of. -/
def Statement.size : Statement → Nat
  | .define _ value => 1 + Segment.sizeAll value
  | .chain segments => 1 + Segment.sizeAll segments

/-- How many tokens, modules and names a statement list is made of. -/
def Statement.sizeAll : List Statement → Nat
  | [] => 0
  | statement :: rest => statement.size + Statement.sizeAll rest

end

end LayerNet
