import LayerNet.Decimal.Shortest

/-!
# Written numbers — three ways to lay out a decimal

* `plain`: positional, with a point only where there are decimals (`0.1`, `3`, `-2.5`).
* `pointed`: always with a point and a decimal, and with an exponent for a leading digit below the
  fourth decimal or from the seventeenth place on (`3.0`, `1e-5`, `1.5e16`).
* `places`: a fixed number of decimals, a half going to the even neighbour.

All three write a minus sign for every number whose sign bit is set, zero included; `unsignedZero`
is for outputs that do not tell the two zeros apart.
-/

namespace LayerNet.Decimal

namespace Numeral

/-- The written digits. -/
def digitText (d : Numeral) : String := toString d.digits

/-- The power of ten of the leading digit. -/
def leading (d : Numeral) : Int := d.place + d.digitText.length - 1

/-- Zeros in a row. -/
def zeros (n : Nat) : String := String.ofList (List.replicate n '0')

/-- Positional notation. -/
def positional (d : Numeral) : String :=
  let text := d.digitText
  if 0 ≤ d.place then
    text ++ zeros d.place.toNat
  else
    let decimals := (-d.place).toNat
    let padded := zeros (decimals + 1 - text.length) ++ text
    let whole := padded.length - decimals
    (padded.take whole).toString ++ "." ++ (padded.drop whole).toString

/-- One digit, the decimals if there are any, and the exponent. -/
def scientific (d : Numeral) : String :=
  let text := d.digitText
  let decimals := (text.drop 1).toString
  let fraction := if decimals.isEmpty then "" else "." ++ decimals
  (text.take 1).toString ++ fraction ++ "e" ++ toString d.leading

/-- Positional notation with at least one decimal, or an exponent where the leading digit is far
from the point. -/
def pointed (d : Numeral) : String :=
  if d.digits = 0 then "0.0"
  else if -4 ≤ d.leading ∧ d.leading < 16 then
    if 0 ≤ d.place then d.positional ++ ".0" else d.positional
  else d.scientific

end Numeral

/-- A quotient rounded to a whole number, a half going to the even neighbour. -/
def roundHalfEven (numerator denominator : Nat) : Nat :=
  let quotient := numerator / denominator
  let twice := 2 * (numerator % denominator)
  if twice < denominator then quotient
  else if denominator < twice then quotient + 1
  else if quotient % 2 = 0 then quotient else quotient + 1

/-- The number rounded to `n` decimals, in positional notation with all of them. -/
def Magnitude.places (n : Nat) (m : Magnitude) : String :=
  let rounded := roundHalfEven (m.numerator (-n)) (m.denominator (-n))
  Numeral.positional ⟨rounded, -n⟩

/-- The text of a bit pattern, by a way to lay out its magnitude. -/
def Format.write (f : Format) (layout : Magnitude → String) (bits : Nat) : String :=
  match f.classify bits with
  | .nan => "NaN"
  | .infinite => if f.negative bits then "-inf" else "inf"
  | .finite m => if f.negative bits then "-" ++ layout m else layout m

/-- The shortest decimal of a single, positional. -/
def plain (x : Float32) : String :=
  Format.single.write (fun m => (Format.single.shortest m).positional) x.toBits.toNat

/-- The shortest decimal of a single, with a point. -/
def pointed (x : Float32) : String :=
  Format.single.write (fun m => (Format.single.shortest m).pointed) x.toBits.toNat

/-- The shortest decimal of a double, with a point. -/
def pointedDouble (x : Float) : String :=
  Format.double.write (fun m => (Format.double.shortest m).pointed) x.toBits.toNat

/-- A single with `n` decimals. -/
def places (n : Nat) (x : Float32) : String :=
  Format.single.write (Magnitude.places n) x.toBits.toNat

/-- Zero without its sign, and every other number unchanged. -/
def unsignedZero (x : Float32) : Float32 :=
  if x == 0 then 0 else x

end LayerNet.Decimal
