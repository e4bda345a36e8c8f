import LayerNet.Decimal.Magnitude

/-!
# Shortest decimals — the fewest digits that read back

Of all decimals that round to a given number, the written one lies on the coarsest grid of powers
of ten that has such a decimal; of two on that grid the nearer is taken, and of two equally near
the upper. The search goes from coarse to fine, so that no coarser grid has a decimal that reads
back (`Magnitude.shortest?`), and it ends at a grid that holds the number itself.
-/

namespace LayerNet.Decimal

/-- The number `digits · 10 ^ place`. -/
structure Numeral where
  digits : Nat
  place : Int
  deriving Repr, DecidableEq

namespace Magnitude

/-- Whether `count` units of `10 ^ place` round to the number. Quarters of the last binary place
make both ends of the interval integral. -/
def readsBack (m : Magnitude) (place : Int) (count : Nat) : Bool :=
  let step := twoTo m.exponent.toNat * tenTo (-place).toNat
  let low := (4 * m.significand - if m.narrowBelow then 1 else 2) * step
  let high := (4 * m.significand + 2) * step
  let point := 4 * count * m.denominator place
  if m.significand % 2 = 0 then low ≤ point && point ≤ high else low < point && point < high

/-- The nearest decimal of the grid `10 ^ place` that rounds to the number. Only the grid's two
neighbours of the number can, since the interval holds the number. -/
def onGrid? (m : Magnitude) (place : Int) : Option Nat :=
  let below := m.numerator place / m.denominator place
  let rest := m.numerator place % m.denominator place
  match m.readsBack place below, m.readsBack place (below + 1) with
  | true, true => if 2 * rest < m.denominator place then some below else some (below + 1)
  | true, false => some below
  | false, true => some (below + 1)
  | false, false => none

/-- The grids from `10 ^ top` down to one that holds the number itself. -/
def grids (m : Magnitude) (top : Nat) : List Int :=
  (List.range (top + 1 + (-m.exponent).toNat)).map fun (i : Nat) => (top : Int) - i

/-- The decimal with the fewest digits that reads back, sought from the grid `10 ^ top` on. -/
def shortest? (m : Magnitude) (top : Nat) : Option Numeral :=
  (m.grids top).findSome? fun place => (m.onGrid? place).map (⟨·, place⟩)

end Magnitude

/-- No finite number of the format reaches ten to this power. -/
def Format.top (f : Format) : Nat := f.bias * 30103 / 100000 + 2

/-- The decimal to write for a finite number. Zero is written with the digit zero; for any other
number the search ends with a hit, at the latest on the grid that holds the number. -/
def Format.shortest (f : Format) (m : Magnitude) : Numeral :=
  if m.significand = 0 then ⟨0, 0⟩ else (m.shortest? f.top).getD ⟨0, 0⟩

end LayerNet.Decimal
