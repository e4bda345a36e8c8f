import LayerNet.Blueprint.Basic
import LayerNet.Decimal.Reading
import LayerNet.Size
import LayerNet.Text.Pieces

/-!
# Reading tokens — the vocabulary of layers

Each kind of layer has a recognizer that accepts a whole token or refuses it (`Blueprint.read?`):

* `8N`: fully connected; `8R`, `8RS`: recurrent, all states or the last.
* `8C5x5`: convolution, with `+2(S)` or `+2x1(S)` for steps and then `+1(P)` or `+1x0(P)` for rims.
* `2x2MP`, `2x2AP`: pooling; `D0.5`: dropout; `S2`: scale; `LRN`, `LRN3`: response normalization.
* `SPLIT`, `CONCAT`, the non-linearities and the losses by name.
* `28x28x1`: input, with `-1` for an axis left open.

Counts are runs of decimal digits that fit a word; where a layer cannot be without, zero is refused.
A mark for steps that cannot be taken, because the steps were zero or had been given, is passed over
if a mark for rims follows it.
-/

namespace LayerNet

/-- A reader of the beginning of a token. -/
abbrev Scan := StateT (List Char) Option

namespace Scan

/-- A text that has to follow. -/
def literal (text : String) : Scan Unit := fun cs =>
  if text.toList.isPrefixOf cs then some ((), cs.drop text.length) else none

/-- Whether a text follows; it is taken if it does. -/
def optionally (text : String) : Scan Bool := fun cs =>
  if text.toList.isPrefixOf cs then some (true, cs.drop text.length) else some (false, cs)

/-- A run of digits that fits a word. -/
def number : Scan Nat := fun cs =>
  let digits := cs.takeWhile Decimal.isDigit
  let value := Decimal.ofDigits digits
  if digits.isEmpty ∨ Size.limit ≤ value then none else some (value, cs.dropWhile Decimal.isDigit)

/-- A number above zero. -/
def positive : Scan Nat := do
  let n ← number
  if n = 0 then failure else return n

/-- Two equal extents. -/
def square : Scan Nat := do
  let rows ← positive
  literal "x"
  let columns ← positive
  if rows = columns then return rows else failure

/-- An extent for both axes, or one for each. -/
def extents : Scan (Nat × Nat) := do
  let rows ← number
  if ← optionally "x" then return (rows, ← number) else return (rows, rows)

/-- A finite number up to the end. -/
def finite : Scan Float32 := fun cs =>
  match Decimal.read? cs with
  | some value => if value.isFinite then some (value, []) else none
  | none => none

/-- The steps and rims of a convolution. -/
def windowing : Scan Windowing := do
  if !(← optionally "+") then return Windowing.dense
  else
    let first ← extents
    if (← optionally "(S)") && 0 < first.1 && 0 < first.2 then
      if !(← optionally "+") then return ⟨first, (0, 0)⟩
      else
        let second ← extents
        let _ ← optionally "(S)"
        literal "(P)"
        return ⟨first, second⟩
    else
      literal "(P)"
      return ⟨(1, 1), first⟩

/-- What a reader makes of a whole token. -/
def whole {α : Type} (scan : Scan α) (token : List Char) : Option α :=
  match scan token with
  | some (a, []) => some a
  | _ => none

end Scan

namespace Blueprint

open Scan

/-- A fully connected layer. -/
def scanUnits : Scan Blueprint := do
  let units ← positive
  literal "N"
  return fullyConnected units

/-- A convolution. -/
def scanFilters : Scan Blueprint := do
  let filters ← positive
  literal "C"
  let size ← square
  return convolution filters size (← windowing)

/-- A pooling. -/
def scanPooling : Scan Blueprint := do
  let size ← square
  if ← optionally "MP" then return pool .max size
  else
    literal "AP"
    return pool .average size

/-- A recurrence. -/
def scanStates : Scan Blueprint := do
  let units ← positive
  literal "R"
  return recurrent units (← optionally "S")

/-- A dropout. -/
def scanKeep : Scan Blueprint := do
  literal "D"
  let keep ← finite
  if 0 < keep ∧ keep ≤ 1 then return dropout keep else failure

/-- A scale. -/
def scanFactor : Scan Blueprint := do
  literal "S"
  return scale (← finite)

/-- A response normalization. -/
def scanNormalization : Scan Blueprint := do
  literal "LRN"
  if (← get).isEmpty then return normalization none else return normalization (some (← positive))

/-- The layers that are named by a word. -/
def keywords : List (String × Blueprint) :=
  [("SPLIT", split), ("CONCAT", concat)]
    ++ Activation.all.map (fun a => (a.token, activation a))
    ++ Loss.all.map (fun l => (l.token, loss l))

/-- A layer named by a word. -/
def readKeyword (token : List Char) : Option Blueprint :=
  (keywords.find? fun (word, _) => word.toList = token).map Prod.snd

/-- An axis of an input: a length, or open. -/
def readAxis (piece : List Char) : Option (Option Nat) :=
  if piece = ['-', '1'] then some none else (whole positive piece).map some

/-- An input. -/
def readInput (token : List Char) : Option Blueprint :=
  ((Text.splitOn 'x' token).mapM readAxis).map input

/-- The recognizers, in the order in which they are tried. -/
def recognizers : List (List Char → Option Blueprint) :=
  [whole scanUnits, whole scanFilters, whole scanPooling, whole scanStates, whole scanKeep,
    whole scanFactor, whole scanNormalization, readKeyword, readInput]

/-- The blueprint of a token, by the first recognizer that accepts it. -/
def read? (token : String) : Option Blueprint :=
  recognizers.findSome? fun recognize => recognize token.toList

end Blueprint

end LayerNet
