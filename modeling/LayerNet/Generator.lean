import LayerNet.Buffer

/-!
# Generators — where random numbers come from

A generator is an endless sequence of 32-bit words and a place in it. It can be given as a list that
repeats, or grown from a seed by mixing the place into it. Samples are read off the words:

* `unit`: a word's upper 24 bits as a fraction of one.
* `spread`: its upper 23 bits as a fraction of an interval's width.
* `deviate`: two words as a sample of the standard normal distribution.
-/

namespace LayerNet

/-- An endless sequence of words, and a place in it. -/
structure Generator where
  word : Nat → UInt32
  place : Nat

namespace Generator

/-- The words of a list over and over, or zeros if it is empty. -/
def ofList (words : List UInt32) : Generator :=
  let table := words.toArray
  ⟨fun k => table.getD (k % table.size) 0, 0⟩

/-- A number whose bits depend on all bits of another. -/
def mix (x : UInt64) : UInt64 :=
  let x := (x ^^^ (x >>> 30)) * 0xbf58476d1ce4e5b9
  let x := (x ^^^ (x >>> 27)) * 0x94d049bb133111eb
  x ^^^ (x >>> 31)

/-- The words grown from a seed. -/
def ofSeed (seed : UInt64) : Generator :=
  ⟨fun k => (mix (seed + 0x9e3779b97f4a7c15 * (UInt64.ofNat k + 1)) >>> 32).toUInt32, 0⟩

/-- The word a number of places ahead. -/
def ahead (g : Generator) (k : Nat) : UInt32 := g.word (g.place + k)

/-- The generator a number of places further on. -/
def skip (g : Generator) (k : Nat) : Generator := { g with place := g.place + k }

/-- A number from zero up to, but not including, one. -/
def unit (word : UInt32) : Float32 :=
  (word >>> 8).toFloat32 * Float32.ofScientific 59604644775390625 true 24

/-- A number from zero up to, but not including, one, in coarser steps. -/
def fraction (word : UInt32) : Float32 :=
  (word >>> 9).toFloat32 * Float32.ofScientific 11920928955078125 true 23

/-- A standard normal sample from two words: a radius from the first, an angle from the second. -/
def deviate (first second : UInt32) : Float32 :=
  let radius := Float32.sqrt (-2 * Float32.log (1 - unit first))
  radius * Float32.cos (6.2831855 * unit second)

/-- The largest fraction. -/
def topFraction : Float32 := fraction 0xffffffff

/-- The widest interval, from a given width downwards, whose topmost sample stays below the upper
end; the sum may round up to it. -/
def narrow (low high : Float32) : Nat → Float32 → Float32
  | 0, width => width
  | steps + 1, width =>
    if high ≤ width * topFraction + low then
      narrow low high steps (Float32.ofBits (width.toBits - 1))
    else width

/-- The width by which fractions of an interval are scaled. -/
def width (low high : Float32) : Float32 :=
  narrow low high (high - low).toBits.toNat (high - low)

/-- Samples from an interval, one word each. -/
def uniform (g : Generator) (low high : Float32) (count : Nat) : Buffer × Generator :=
  let width := width low high
  (Buffer.tabulate count fun i => fraction (g.ahead i) * width + low, g.skip count)

/-- Normal samples of mean zero, two words each. The mean is added, so no sample is a negative
zero. -/
def normal (g : Generator) (std : Float32) (count : Nat) : Buffer × Generator :=
  let sample (i : Nat) : Float32 := 0 + std * deviate (g.ahead (2 * i)) (g.ahead (2 * i + 1))
  (Buffer.tabulate count sample, g.skip (2 * count))

/-- Samples between zero and one, one word each. -/
def units (g : Generator) (count : Nat) : (Nat → Float32) × Generator :=
  (fun i => unit (g.ahead i), g.skip count)

end Generator

end LayerNet
