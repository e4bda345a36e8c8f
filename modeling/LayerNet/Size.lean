/-!
# Sizes — the counts a machine word can hold

Axis lengths, element counts and offsets are natural numbers below `Size.limit`, the number of
values of a 64-bit word. A result that leaves the range is not an error of the caller's data but
the end of the run: it is `Failure.fatal`, as is a value that is not finite and every other broken
promise (a division by zero, an element that is not there). The end tells which of these it was
(`Fatality`).

A computation therefore has three results (`Outcome`): a value, an error that tells its cause, or
the fatal end.
-/

namespace LayerNet

/-- Why a run ends: a number left its range, a value is not finite, or a promise was broken. -/
inductive Fatality where
  | overflow
  | nonFinite
  | broken
  deriving Repr, DecidableEq

/-- What stops a computation: an error with its cause, or the fatal end of the run, for whatever
reason. -/
inductive Failure (ε : Type) where
  | error (cause : ε)
  | fatal {reason : Fatality}
  deriving Repr, DecidableEq

/-- A value, an error or the fatal end. -/
abbrev Outcome (ε α : Type) := Except (Failure ε) α

namespace Outcome

/-- An error with its cause. -/
def fail {ε α : Type} (cause : ε) : Outcome ε α :=
  .error (.error cause)

/-- The end of the run for a reason. -/
def stop {ε α : Type} (reason : Fatality) : Outcome ε α :=
  .error (@Failure.fatal ε reason)

/-- The end of the run because a promise was broken. -/
def fatal {ε α : Type} : Outcome ε α := stop .broken

/-- The same result, with each cause seen from a wider vocabulary; the fatal end stays fatal. -/
def mapCause {ε δ α : Type} (f : ε → δ) : Outcome ε α → Outcome δ α
  | .ok a => .ok a
  | .error (.error cause) => .error (.error (f cause))
  | .error (@Failure.fatal _ reason) => stop reason

/-- A value that has to be there. -/
def get {ε α : Type} : Option α → Outcome ε α
  | some a => .ok a
  | none => fatal

/-- A sequence of two computations has a value exactly when both have one. -/
theorem bind_eq_ok_iff {ε α β : Type} {x : Outcome ε α} {f : α → Outcome ε β} {b : β} :
    (x >>= f) = .ok b ↔ ∃ a, x = .ok a ∧ f a = .ok b := by
  cases x with
  | error e => simp [bind, Except.bind]
  | ok a => simp [bind, Except.bind]

/-- A wider vocabulary of causes changes no value. -/
theorem mapCause_eq_ok_iff {ε δ α : Type} {f : ε → δ} {x : Outcome ε α} {a : α} :
    mapCause f x = .ok a ↔ x = .ok a := by
  match x with
  | .ok b => simp [mapCause]
  | .error (.error cause) => simp [mapCause]
  | .error .fatal => simp [mapCause, stop]

/-- A value that has to be there is the one that is. -/
theorem get_eq_ok_iff {ε α : Type} {o : Option α} {a : α} :
    (get o : Outcome ε α) = .ok a ↔ o = some a := by
  cases o <;> simp [get, fatal, stop]

end Outcome

namespace Size

/-- The number of values of a 64-bit word. -/
def limit : Nat := 18446744073709551616

/-- The largest signed 64-bit number, which bounds offsets and buffer lengths in bytes. -/
def signedMax : Nat := 9223372036854775807

/-- A number that fits the word. -/
def check {ε : Type} (n : Nat) : Outcome ε Nat :=
  if n < limit then .ok n else Outcome.stop .overflow

/-- The sum of two sizes. -/
def add {ε : Type} (a b : Nat) : Outcome ε Nat :=
  check (a + b)

/-- The product of two sizes. -/
def mul {ε : Type} (a b : Nat) : Outcome ε Nat :=
  check (a * b)

/-- The difference of two sizes, which must not go below zero. -/
def sub {ε : Type} (a b : Nat) : Outcome ε Nat :=
  if b ≤ a then .ok (a - b) else Outcome.stop .overflow

/-- The sum of a list, whatever its size. -/
def total : List Nat → Nat
  | [] => 0
  | n :: ns => n + total ns

/-- The sum of a list, added from the left; every partial sum has to fit. -/
def sum {ε : Type} (ns : List Nat) : Outcome ε Nat :=
  ns.foldlM add 0

/-- The product of a list, multiplied from the left; every partial product has to fit, also when
a later factor is zero. -/
def product {ε : Type} (ns : List Nat) : Outcome ε Nat :=
  ns.foldlM mul 1

/-- Two sizes whose sum stays below the limit add as natural numbers. -/
theorem add_of_lt {ε : Type} {a b : Nat} (h : a + b < limit) :
    (add a b : Outcome ε Nat) = .ok (a + b) := by
  simp [add, check, h]

/-- Two sizes whose product stays below the limit multiply as natural numbers. -/
theorem mul_of_lt {ε : Type} {a b : Nat} (h : a * b < limit) :
    (mul a b : Outcome ε Nat) = .ok (a * b) := by
  simp [mul, check, h]

end Size

end LayerNet
