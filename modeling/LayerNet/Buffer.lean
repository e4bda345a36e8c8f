import LayerNet.Size

/-!
# Buffers — flat arrays of singles

The elements of a tensor, of a gradient or of a weight stand in one flat array. All arithmetic is
in 32-bit floating point, and sums are taken from the left, starting at zero: another order would
give other last digits.
-/

namespace LayerNet

/-- A flat array of singles. -/
abbrev Buffer := Array Float32

namespace Buffer

/-- The element at a position, zero outside. -/
def element (b : Buffer) (position : Nat) : Float32 := b.getD position 0

/-- The buffer whose elements a function gives. -/
def tabulate (size : Nat) (f : Nat → Float32) : Buffer := (Array.range size).map f

/-- A buffer of equal elements. -/
def filled (size : Nat) (value : Float32) : Buffer := Array.replicate size value

/-- A buffer of zeros. -/
def zeros (size : Nat) : Buffer := filled size 0

/-- The sum from the left. It starts at negative zero, which changes no number it is added to; so a
sum of negative zeros is one, too. -/
def sum (values : List Float32) : Float32 := values.foldl (· + ·) (-0.0)

/-- The sum from the left, added to a zero that stands already. It is never a negative zero. -/
def tally (values : List Float32) : Float32 := values.foldl (· + ·) 0

/-- The positionwise combination of two buffers. -/
def combine (f : Float32 → Float32 → Float32) (a b : Buffer) : Buffer := Array.zipWith f a b

/-- The position of the first element that is infinite or no number. -/
def nonFinite? (b : Buffer) : Option Nat := b.findIdx? fun x => !x.isFinite

/-- Adds at one position. -/
def addAt (b : Buffer) (position : Nat) (value : Float32) : Buffer := b.modify position (· + value)

/-- Additions at positions, made one after the other. -/
def addAll (b : Buffer) (additions : List (Nat × Float32)) : Buffer :=
  additions.foldl (fun b (position, value) => b.addAt position value) b

/-- The positions of row `row` in a buffer of rows of `width` elements. -/
def row (b : Buffer) (width row : Nat) : List Float32 :=
  (List.range width).map fun i => b.element (row * width + i)

/-- A buffer changed row by row. -/
def mapRows (width : Nat) (f : Nat → List Float32 → List Float32) (b : Buffer) : Buffer :=
  (List.range (b.size / width)).foldl (fun out r => out ++ (f r (b.row width r)).toArray) #[]

@[simp] theorem size_tabulate (size : Nat) (f : Nat → Float32) : (tabulate size f).size = size := by
  simp [tabulate]

@[simp] theorem size_filled (size : Nat) (value : Float32) : (filled size value).size = size := by
  simp [filled]

@[simp] theorem size_zeros (size : Nat) : (zeros size).size = size := by
  simp [zeros]

@[simp] theorem size_addAt (b : Buffer) (position : Nat) (value : Float32) :
    (b.addAt position value).size = b.size := by
  simp [addAt]

/-- Additions keep the number of elements. -/
@[simp] theorem size_addAll (b : Buffer) (additions : List (Nat × Float32)) :
    (b.addAll additions).size = b.size := by
  induction additions generalizing b with
  | nil => rfl
  | cons a rest ih => simpa [addAll] using ih (b.addAt a.1 a.2)

/-- A tabulated buffer has the function's value at every position below its size. -/
theorem element_tabulate (f : Nat → Float32) {size i : Nat} (h : i < size) :
    (tabulate size f).element i = f i := by
  simp [Buffer.element, tabulate, h]

theorem element_of_lt {b : Buffer} {i : Nat} (inside : i < b.size) : b.element i = b[i] := by
  simp [element, inside]

theorem element_zeros (size i : Nat) : (zeros size).element i = 0 := by
  rw [zeros, filled, element, Array.getD_eq_getD_getElem?, Array.getElem?_replicate]
  split <;> rfl

/-- What additions make of one element: those at its position, one after the other. -/
theorem element_addAll {b : Buffer} {i : Nat} (inside : i < b.size)
    (additions : List (Nat × Float32)) : (b.addAll additions).element i
      = ((additions.filter (·.1 = i)).map Prod.snd).foldl (· + ·) (b.element i) := by
  induction additions generalizing b with
  | nil => rfl
  | cons addition rest ih =>
    obtain ⟨position, value⟩ := addition
    show ((b.addAt position value).addAll rest).element i = _
    rw [ih (by rwa [size_addAt])]
    have step : (b.addAt position value).element i
        = if position = i then b.element i + value else b.element i := by
      rw [element_of_lt inside, element_of_lt (by rwa [size_addAt])]
      simp only [addAt, Array.getElem_modify]
    rw [step, List.filter_cons]
    split <;> simp_all

end Buffer

end LayerNet
