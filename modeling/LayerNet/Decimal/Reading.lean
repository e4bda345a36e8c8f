import LayerNet.Decimal.Layout

/-!
# Read numbers — decimal text to the nearest single

A number is an optional sign, digits with at most one point among or around them, and an optional
exponent (`2`, `.5`, `3.`, `1e-3`, `+7E2`); at least one digit is needed, and one in the exponent
if it has a mark. The value is the single nearest to the decimal, a half going to the even
neighbour, and infinite where it is too large (`nearest`).
-/

namespace LayerNet.Decimal

/-- The single nearest to `digits · 10 ^ place`. With `top` the binary place of the leading bit, the
significand is the quotient by the unit `2 ^ unit`, and a carry out of it moves to the exponent
field by itself. -/
def nearest (digits : Nat) (place : Int) : Float32 :=
  if digits = 0 then 0
  else
    let leading : Int := place + (toString digits).length
    if 60 < leading then Float32.ofBits 0x7f800000
    else if leading < -60 then 0
    else
      let numerator := digits * tenTo place.toNat
      let denominator := tenTo (-place).toNat
      let estimate : Int := (Nat.log2 numerator : Int) - Nat.log2 denominator
      let top : Int :=
        if denominator * twoTo estimate.toNat ≤ numerator * twoTo (-estimate).toNat then estimate
        else estimate - 1
      let unit : Int := max (top - 23) (-149)
      let significand :=
        roundHalfEven (numerator * twoTo (-unit).toNat) (denominator * twoTo unit.toNat)
      let bits := (unit + 149).toNat * twoTo 23 + significand
      if 0x7f800000 ≤ bits then Float32.ofBits 0x7f800000 else Float32.ofBits (UInt32.ofNat bits)

/-- The value of a digit. -/
def digit? (c : Char) : Option Nat :=
  if '0' ≤ c ∧ c ≤ '9' then some (c.toNat - '0'.toNat) else none

/-- Whether a character is one of the ten ASCII digits. -/
def isDigit (c : Char) : Bool := '0' ≤ c && c ≤ '9'

/-- The number that a run of digits writes. -/
def ofDigits (cs : List Char) : Nat :=
  cs.foldl (fun n c => 10 * n + (c.toNat - '0'.toNat)) 0

/-- A sign, and what follows it. -/
def sign : List Char → Bool × List Char
  | '-' :: rest => (true, rest)
  | '+' :: rest => (false, rest)
  | cs => (false, cs)

/-- The exponent after a mark, or zero where the text ends. -/
def exponent? : List Char → Option Int
  | [] => some 0
  | mark :: rest =>
    if mark = 'e' ∨ mark = 'E' then
      let (negative, ds) := sign rest
      if ds.isEmpty ∨ ¬ ds.all isDigit then none
      else some (if negative then -(ofDigits ds : Int) else ofDigits ds)
    else none

/-- The number that a text writes, if it writes one. -/
def read? (cs : List Char) : Option Float32 := do
  let (negative, body) := sign cs
  let whole := body.takeWhile isDigit
  let afterWhole := body.dropWhile isDigit
  let (decimals, afterDecimals) :=
    match afterWhole with
    | '.' :: rest => (rest.takeWhile isDigit, rest.dropWhile isDigit)
    | rest => ([], rest)
  if whole.isEmpty ∧ decimals.isEmpty then none
  else
    let shift ← exponent? afterDecimals
    let magnitude := nearest (ofDigits (whole ++ decimals)) (shift - decimals.length)
    some (if negative then -magnitude else magnitude)

end LayerNet.Decimal
