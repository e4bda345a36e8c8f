import LayerNet.Size
import Mathlib.Data.List.Forall2

/-!
# Agreement — two computations side by side

Two computations on states of two kinds agree, for a relation between the states, when from related
states both fail, or both give the same answer and related states (`Agree`). There is one lemma for
each way to combine computations.
-/

namespace LayerNet

/-- From related states two computations both fail, or give the same answer and related states. -/
def Agree {σ τ ε α : Type} (R : σ → τ → Prop) (x : StateT σ (Outcome ε) α)
    (y : StateT τ (Outcome ε) α) : Prop :=
  ∀ s t, R s t → (∃ failure failure', x.run s = .error failure ∧ y.run t = .error failure')
    ∨ ∃ a s' t', x.run s = .ok (a, s') ∧ y.run t = .ok (a, t') ∧ R s' t'

namespace Agree

variable {σ τ ε α β γ : Type} {R : σ → τ → Prop}

theorem pure (a : α) : Agree R (Pure.pure a : StateT σ (Outcome ε) α) (Pure.pure a) :=
  fun s t related => .inr ⟨a, s, t, rfl, rfl, related⟩

theorem error (failure failure' : Failure ε) :
    Agree R (liftM (.error failure : Outcome ε α) : StateT σ (Outcome ε) α)
      (liftM (.error failure' : Outcome ε α)) :=
  fun _ _ _ => .inl ⟨failure, failure', rfl, rfl⟩

theorem bind {x : StateT σ (Outcome ε) α} {y : StateT τ (Outcome ε) α}
    {f : α → StateT σ (Outcome ε) β} {g : α → StateT τ (Outcome ε) β} (first : Agree R x y)
    (second : ∀ a, Agree R (f a) (g a)) : Agree R (x >>= f) (y >>= g) := by
  intro s t related
  rw [StateT.run_bind, StateT.run_bind]
  obtain ⟨_, _, failed, failed'⟩ | ⟨a, s₁, t₁, ran, ran', related₁⟩ := first s t related
  · rw [failed, failed']
    exact .inl ⟨_, _, rfl, rfl⟩
  · rw [ran, ran']
    exact second a s₁ t₁ related₁

/-- Computations may look at the states that they start from. -/
theorem get_bind {f : σ → StateT σ (Outcome ε) β} {g : τ → StateT τ (Outcome ε) β}
    (next : ∀ s t, R s t → Agree R (f s) (g t)) : Agree R (get >>= f) (get >>= g) :=
  fun s t related => next s t related s t related

theorem foldlM {f : β → α → StateT σ (Outcome ε) β} {g : β → γ → StateT τ (Outcome ε) β}
    {xs : List α} {ys : List γ}
    (step : List.Forall₂ (fun x y => ∀ b, Agree R (f b x) (g b y)) xs ys) (b : β) :
    Agree R (xs.foldlM f b) (ys.foldlM g b) := by
  induction step generalizing b with
  | nil => exact .pure b
  | cons first _ ih => exact (first b).bind ih

theorem mapM {f : α → StateT σ (Outcome ε) β} {g : γ → StateT τ (Outcome ε) β} {xs : List α}
    {ys : List γ} (step : List.Forall₂ (fun x y => Agree R (f x) (g y)) xs ys) :
    Agree R (xs.mapM f) (ys.mapM g) := by
  induction step with
  | nil =>
    rw [List.mapM_nil, List.mapM_nil]
    exact .pure []
  | cons first _ ih =>
    rw [List.mapM_cons, List.mapM_cons]
    exact first.bind fun _ => ih.bind fun _ => .pure _

theorem forM {f : α → StateT σ (Outcome ε) Unit} {g : α → StateT τ (Outcome ε) Unit}
    (xs : List α) (step : ∀ x, Agree R (f x) (g x)) : Agree R (xs.forM f) (xs.forM g) := by
  induction xs with
  | nil => exact .pure ()
  | cons x xs ih => exact (step x).bind fun _ => ih

end Agree

end LayerNet
