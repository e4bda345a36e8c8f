import LayerNet.Proofs.Outcome

/-!
# Failures — what a computation can fail with

A computation fails only with certain failures when all its parts do (`FailsOnly`). The second of
two parts is only asked about the values that the first gives, so what a value promises can be used
to rule out a failure later. A computation with a state is `Confined` to certain failures when it
fails only with these from every state.
-/

namespace LayerNet

/-- The cause of an error has a property, or the reason for the fatal end has one. -/
def Failure.Has {ε : Type} (P : ε → Prop) (Q : Fatality → Prop) : Failure ε → Prop
  | .error cause => P cause
  | @Failure.fatal _ reason => Q reason

/-- The cause of a failure has a property. The fatal end has no cause. -/
abbrev Failure.Blames {ε : Type} (P : ε → Prop) : Failure ε → Prop := Failure.Has P fun _ => True

/-- The cause of a failure has a property, and the fatal end is not that of a broken promise: a
number left its range, or a value is not finite. -/
abbrev Failure.Excused {ε : Type} (P : ε → Prop) : Failure ε → Prop :=
  Failure.Has P fun reason => reason ≠ .broken

theorem Failure.Has.mono {ε : Type} {P P' : ε → Prop} {Q Q' : Fatality → Prop}
    (causes : ∀ cause, P cause → P' cause) (reasons : ∀ reason, Q reason → Q' reason) :
    ∀ failure : Failure ε, failure.Has P Q → failure.Has P' Q'
  | .error cause, has => causes cause has
  | @Failure.fatal _ reason, has => reasons reason has

/-- Whenever a computation fails, the failure has a property. -/
def FailsOnly {δ α : Type} (P : δ → Prop) (x : Except δ α) : Prop :=
  ∀ failure, x = .error failure → P failure

namespace FailsOnly

variable {δ ε α β : Type} {P Q : δ → Prop}

theorem ok (a : α) : FailsOnly P (.ok a) := nofun

theorem error {failure : δ} (fits : P failure) : FailsOnly P (.error failure : Except δ α) := by
  intro other same
  cases same
  exact fits

theorem mono {x : Except δ α} (only : FailsOnly P x) (weaker : ∀ failure, P failure → Q failure) :
    FailsOnly Q x :=
  fun failure failed => weaker failure (only failure failed)

theorem bind {x : Except δ α} {f : α → Except δ β} (first : FailsOnly P x)
    (second : ∀ a, x = .ok a → FailsOnly P (f a)) : FailsOnly P (x >>= f) := by
  cases x with
  | error failure => exact error (first failure rfl)
  | ok a => exact second a rfl

theorem map {x : Except δ α} (f : α → β) (only : FailsOnly P x) : FailsOnly P (f <$> x) := by
  cases x with
  | error failure => exact error (only failure rfl)
  | ok a => exact ok (f a)

theorem mapM {f : α → Except δ β} (xs : List α) (each : ∀ x ∈ xs, FailsOnly P (f x)) :
    FailsOnly P (xs.mapM f) := by
  induction xs with
  | nil =>
    rw [List.mapM_nil]
    exact ok []
  | cons x xs ih =>
    obtain ⟨first, rest⟩ := List.forall_mem_cons.mp each
    rw [List.mapM_cons]
    exact first.bind fun y _ => (ih rest).bind fun ys _ => ok (y :: ys)

theorem foldlM {f : β → α → Except δ β} (xs : List α) (each : ∀ b, ∀ x ∈ xs, FailsOnly P (f b x))
    (b : β) : FailsOnly P (xs.foldlM f b) := by
  induction xs generalizing b with
  | nil => exact ok b
  | cons x xs ih =>
    rw [List.foldlM_cons]
    exact (each b x List.mem_cons_self).bind fun b' _ =>
      ih (fun b x member => each b x (List.mem_cons_of_mem _ member)) b'

/-! ### Causes and reasons -/

variable {R : ε → Prop} {F : Fatality → Prop}

theorem fail {cause : ε} (fits : R cause) :
    FailsOnly (Failure.Has R F) (Outcome.fail cause : Outcome ε α) := error fits

theorem stop {reason : Fatality} (fits : F reason) :
    FailsOnly (Failure.Has R F) (Outcome.stop reason : Outcome ε α) := error fits

theorem mapCause {S : δ → Prop} {x : Outcome ε α} {f : ε → δ}
    (only : FailsOnly (Failure.Has R F) x) (carries : ∀ cause, R cause → S (f cause)) :
    FailsOnly (Failure.Has S F) (Outcome.mapCause f x) := by
  match x with
  | .ok a => exact ok a
  | .error (.error cause) => exact fail (carries cause (only _ rfl))
  | .error .fatal => exact stop (only _ rfl)

end FailsOnly

/-! ## Computations with a state -/

/-- From whatever state a computation is run, it fails only with failures that have a property. -/
def Confined {σ δ α : Type} (P : δ → Prop) (x : StateT σ (Except δ) α) : Prop :=
  ∀ s, FailsOnly P (x.run s)

namespace Confined

variable {σ δ α β : Type} {P : δ → Prop}

theorem pure (a : α) : Confined P (pure a : StateT σ (Except δ) α) := fun s => .ok (a, s)

theorem modifyGet (f : σ → α × σ) : Confined P (modifyGet f : StateT σ (Except δ) α) :=
  fun s => .ok (f s)

theorem get : Confined P (get : StateT σ (Except δ) σ) := fun s => .ok (s, s)

theorem set (s : σ) : Confined P (set s : StateT σ (Except δ) Unit) := fun _ => .ok ((), s)

theorem modify (f : σ → σ) : Confined P (modify f : StateT σ (Except δ) Unit) :=
  modifyGet fun s => ((), f s)

theorem lift {x : Except δ α} (only : FailsOnly P x) :
    Confined P (liftM x : StateT σ (Except δ) α) :=
  fun s => only.bind fun a _ => .ok (a, s)

theorem bind {x : StateT σ (Except δ) α} {f : α → StateT σ (Except δ) β} (first : Confined P x)
    (second : ∀ a, Confined P (f a)) : Confined P (x >>= f) :=
  fun s => (first s).bind fun p _ => second p.1 p.2

theorem mapM {f : α → StateT σ (Except δ) β} (xs : List α) (each : ∀ x ∈ xs, Confined P (f x)) :
    Confined P (xs.mapM f) := by
  induction xs with
  | nil =>
    rw [List.mapM_nil]
    exact pure []
  | cons x xs ih =>
    obtain ⟨first, rest⟩ := List.forall_mem_cons.mp each
    rw [List.mapM_cons]
    exact first.bind fun y => (ih rest).bind fun ys => pure (y :: ys)

theorem foldlM {f : β → α → StateT σ (Except δ) β} (xs : List α)
    (each : ∀ b, ∀ x ∈ xs, Confined P (f b x)) (b : β) : Confined P (xs.foldlM f b) := by
  induction xs generalizing b with
  | nil => exact pure b
  | cons x xs ih =>
    rw [List.foldlM_cons]
    exact (each b x List.mem_cons_self).bind fun b' =>
      ih (fun b x member => each b x (List.mem_cons_of_mem _ member)) b'

theorem forM {f : α → StateT σ (Except δ) PUnit} (xs : List α)
    (each : ∀ x ∈ xs, Confined P (f x)) : Confined P (xs.forM f) := by
  induction xs with
  | nil => exact pure ()
  | cons x xs ih =>
    obtain ⟨first, rest⟩ := List.forall_mem_cons.mp each
    exact first.bind fun _ => ih rest

end Confined

end LayerNet
