import LayerNet.Text.Unprintable

/-!
# Shown values — how messages write texts, lists and optional values

A text in a message stands in double quotes. The quote and the backslash are written after a
backslash, four controls have a letter of their own, and every other character that has no picture
is written by its number in braces.
-/

namespace LayerNet.Text

/-- The hexadecimal digits of a number. -/
def hexDigits (n : Nat) : String :=
  String.ofList (Nat.toDigits 16 n)

/-- A character inside quotes. -/
def quotedChar (c : Char) : String :=
  if c = '"' then "\\\""
  else if c = '\\' then "\\\\"
  else if c = '\n' then "\\n"
  else if c = '\r' then "\\r"
  else if c = '\t' then "\\t"
  else if c.toNat = 0 then "\\0"
  else if isUnprintable c then "\\u\x7b" ++ hexDigits c.toNat ++ "\x7d"
  else String.singleton c

/-- A text in quotes. -/
def quoted (s : String) : String :=
  "\"" ++ String.join (s.toList.map quotedChar) ++ "\""

/-- A list in brackets. -/
def listed (items : List String) : String :=
  "[" ++ ", ".intercalate items ++ "]"

/-- A list of numbers in brackets. -/
def numbers (ns : List Nat) : String :=
  listed (ns.map toString)

/-- A value that may be absent. -/
def orNone : Option String → String
  | none => "None"
  | some text => "Some(" ++ text ++ ")"

end LayerNet.Text
