/-!
# Magnitudes — binary floating-point numbers as exact rationals

A finite floating-point number is `significand · 2 ^ exponent`. The real numbers that round to it
form an interval around it, whose ends are half way to its neighbours and belong to it when the
significand is even. Below a power of two the numbers lie half as far apart, so there the interval
is shorter (`narrowBelow`).

Bit patterns are read by the format's widths (`Format`), so one definition serves both widths.
-/

namespace LayerNet.Decimal

/-- The widths of a binary interchange format: bits of the fraction and of the exponent field. -/
structure Format where
  fractionBits : Nat
  exponentBits : Nat
  deriving Repr, DecidableEq

/-- The 32-bit format. -/
def Format.single : Format := ⟨23, 8⟩

/-- The 64-bit format. -/
def Format.double : Format := ⟨52, 11⟩

/-- A power of two. -/
def twoTo (n : Nat) : Nat := Nat.pow 2 n

/-- A power of ten. -/
def tenTo (n : Nat) : Nat := Nat.pow 10 n

/-- A finite number without its sign, `significand · 2 ^ exponent`. -/
structure Magnitude where
  significand : Nat
  exponent : Int
  /-- The next number below is half as far away as the next above. -/
  narrowBelow : Bool
  deriving Repr, DecidableEq

/-- What a bit pattern stands for, apart from its sign. -/
inductive Class where
  | nan
  | infinite
  | finite (value : Magnitude)
  deriving Repr, DecidableEq

namespace Format

/-- What is subtracted from the exponent field. -/
def bias (f : Format) : Nat := twoTo (f.exponentBits - 1) - 1

/-- The sign bit. -/
def negative (f : Format) (bits : Nat) : Bool :=
  bits / twoTo (f.fractionBits + f.exponentBits) % 2 = 1

/-- The number that a bit pattern stands for. An exponent field of zero has no hidden bit; a field
of ones is infinite, or no number when the fraction is not zero. -/
def classify (f : Format) (bits : Nat) : Class :=
  let fraction := bits % twoTo f.fractionBits
  let field := bits / twoTo f.fractionBits % twoTo f.exponentBits
  let scale : Int := (f.bias : Int) + f.fractionBits
  if field = twoTo f.exponentBits - 1 then
    if fraction = 0 then .infinite else .nan
  else if field = 0 then
    .finite ⟨fraction, 1 - scale, false⟩
  else
    .finite ⟨twoTo f.fractionBits + fraction, field - scale, fraction = 0 && 1 < field⟩

end Format

namespace Magnitude

/-- Numerator of the number counted in units of `10 ^ place`. -/
def numerator (m : Magnitude) (place : Int) : Nat :=
  m.significand * twoTo m.exponent.toNat * tenTo (-place).toNat

/-- Denominator of the number counted in units of `10 ^ place`. -/
def denominator (m : Magnitude) (place : Int) : Nat :=
  twoTo (-m.exponent).toNat * tenTo place.toNat

end Magnitude

end LayerNet.Decimal
