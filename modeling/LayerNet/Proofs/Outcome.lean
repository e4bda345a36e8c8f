import LayerNet.Size
import Mathlib.Data.List.Forall2

/-!
# Outcomes — computations over lists, and computations without errors

A computation over a list gives a list exactly when it gives a value for every element
(`Outcome.mapM_eq_ok_iff`).

Where a run may end for the size of its numbers, but for nothing else, a computation is right when
its value has a property unless it ends so (`Outcome.Ensures`). There is one rule for each way to
combine computations.
-/

namespace LayerNet

section

variable {ε α β : Type}

theorem except_bind_eq_ok_iff {x : Except ε α} {f : α → Except ε β} {b : β} :
    (x >>= f) = .ok b ↔ ∃ a, x = .ok a ∧ f a = .ok b := by
  cases x with
  | error e => exact ⟨(nomatch ·), fun ⟨_, failure, _⟩ => nomatch failure⟩
  | ok a =>
    constructor
    · intro success
      exact ⟨a, rfl, success⟩
    · rintro ⟨a', value, success⟩
      cases value
      exact success

theorem except_map_eq_ok_iff {x : Except ε α} {f : α → β} {b : β} :
    (f <$> x) = .ok b ↔ ∃ a, x = .ok a ∧ f a = b := by
  cases x with
  | error e => exact ⟨(nomatch ·), fun ⟨_, failure, _⟩ => nomatch failure⟩
  | ok a =>
    constructor
    · intro success
      exact ⟨a, rfl, Except.ok.inj success⟩
    · rintro ⟨-, ⟨⟩, rfl⟩
      rfl

theorem except_map_eq_error_iff {x : Except ε α} {f : α → β} {e : ε} :
    (f <$> x) = .error e ↔ x = .error e := by
  cases x with
  | error e' => exact ⟨fun same => congrArg _ (Except.error.inj same),
      fun same => congrArg _ (Except.error.inj same)⟩
  | ok a => exact ⟨(nomatch ·), (nomatch ·)⟩

/-- A run whose result passes a test gives a result that does. -/
theorem except_exists_of_any {x : Except ε α} {test : α → Bool}
    (passes : x.toOption.any test = true) : ∃ a, x = .ok a ∧ test a = true := by
  cases x with
  | error failure => cases passes
  | ok a => exact ⟨a, rfl, passes⟩

theorem except_mapM_eq_ok_iff {f : α → Except ε β} {xs : List α} {ys : List β} :
    xs.mapM f = .ok ys ↔ List.Forall₂ (fun x y => f x = .ok y) xs ys := by
  induction xs generalizing ys with
  | nil =>
    rw [List.mapM_nil, List.forall₂_nil_left_iff]
    exact ⟨fun same => (Except.ok.inj same).symm, fun same => same ▸ rfl⟩
  | cons x xs ih =>
    rw [List.mapM_cons, except_bind_eq_ok_iff, List.forall₂_cons_left_iff]
    constructor
    · rintro ⟨y, first, run⟩
      obtain ⟨rest, others, run⟩ := except_bind_eq_ok_iff.mp run
      exact ⟨y, rest, first, ih.mp others, (Except.ok.inj run).symm⟩
    · rintro ⟨y, rest, first, others, rfl⟩
      exact ⟨y, first, except_bind_eq_ok_iff.mpr ⟨rest, ih.mpr others, rfl⟩⟩

theorem forall₂_imp_of_mem {R S : α → β → Prop} {xs : List α} {ys : List β}
    (pairs : List.Forall₂ R xs ys) (weaker : ∀ x ∈ xs, ∀ y, R x y → S x y) :
    List.Forall₂ S xs ys := by
  induction pairs with
  | nil => exact .nil
  | cons first _ ih =>
    obtain ⟨here, weaker⟩ := List.forall_mem_cons.mp weaker
    exact .cons (here _ first) (ih weaker)

/-- Every member of the second list is related to one of the first. -/
theorem exists_rel_of_mem {R : α → β → Prop} {xs : List α} {ys : List β}
    (pairs : List.Forall₂ R xs ys) {y : β} (member : y ∈ ys) : ∃ x ∈ xs, R x y := by
  induction pairs with
  | nil => cases member
  | @cons x y' xs ys first _ ih =>
    rcases List.mem_cons.mp member with rfl | member
    · exact ⟨x, List.mem_cons_self, first⟩
    · obtain ⟨x', member', related⟩ := ih member
      exact ⟨x', List.mem_cons_of_mem x member', related⟩

/-- What holds of the members of a list holds of those related to them. -/
theorem forall_mem_of_forall₂ {R : α → β → Prop} {P : α → Prop} {Q : β → Prop} {xs : List α}
    {ys : List β} (pairs : List.Forall₂ R xs ys) (left : ∀ x ∈ xs, P x)
    (right : ∀ x y, R x y → P x → Q y) : ∀ y ∈ ys, Q y := by
  intro y member
  obtain ⟨x, among, related⟩ := exists_rel_of_mem pairs member
  exact right x y related (left x among)

/-- Lists that are related to one list are related to each other. -/
theorem forall₂_of_common {γ : Type} {P : γ → α → Prop} {Q : γ → β → Prop} {T : α → β → Prop}
    {zs : List γ} {xs : List α} {ys : List β} (left : List.Forall₂ P zs xs)
    (right : List.Forall₂ Q zs ys) (related : ∀ z x y, P z x → Q z y → T x y) :
    List.Forall₂ T xs ys := by
  induction left generalizing ys with
  | nil =>
    cases right
    exact .nil
  | cons first _ ih =>
    rcases right with _ | ⟨first', right⟩
    exact .cons (related _ _ _ first first') (ih right)

/-- Related lists have related members in one place. -/
theorem rel_of_getElem? {R : α → β → Prop} {xs : List α} {ys : List β}
    (pairs : List.Forall₂ R xs ys) {i : Nat} {x : α} {y : β} (first : xs[i]? = some x)
    (second : ys[i]? = some y) : R x y := by
  obtain ⟨inside, rfl⟩ := List.getElem?_eq_some_iff.mp first
  obtain ⟨inside', rfl⟩ := List.getElem?_eq_some_iff.mp second
  exact pairs.get inside inside'

/-- To every member of a list there is a related one in its place. -/
theorem exists_rel_of_getElem? {R : α → β → Prop} {xs : List α} {ys : List β}
    (pairs : List.Forall₂ R xs ys) {i : Nat} {x : α} (first : xs[i]? = some x) :
    ∃ y, ys[i]? = some y ∧ R x y := by
  obtain ⟨inside, -⟩ := List.getElem?_eq_some_iff.mp first
  have second := List.getElem?_eq_getElem (pairs.length_eq ▸ inside)
  exact ⟨_, second, rel_of_getElem? pairs first second⟩

/-- Members that are related through something in between, which makes a list. -/
theorem exists_between {γ : Type} {P : α → γ → Prop} {Q : β → γ → Prop} {xs : List α} {ys : List β}
    (pairs : List.Forall₂ (fun x y => ∃ z, P x z ∧ Q y z) xs ys) :
    ∃ zs, List.Forall₂ P xs zs ∧ List.Forall₂ Q ys zs := by
  induction pairs with
  | nil => exact ⟨[], .nil, .nil⟩
  | cons first _ ih =>
    obtain ⟨z, left, right⟩ := first
    obtain ⟨zs, lefts, rights⟩ := ih
    exact ⟨z :: zs, .cons left lefts, .cons right rights⟩

end

namespace Outcome

variable {ε α β : Type}

/-- A sequence of two computations with a state has a value exactly when both have one. -/
theorem run_bind_eq_ok {σ : Type} {x : StateT σ (Outcome ε) α} {f : α → StateT σ (Outcome ε) β}
    {s s' : σ} {b : β} : (x >>= f).run s = .ok (b, s') ↔
      ∃ a s₁, x.run s = .ok (a, s₁) ∧ (f a).run s₁ = .ok (b, s') := by
  rw [StateT.run_bind]
  exact bind_eq_ok_iff.trans Prod.exists

theorem mapM_eq_ok_iff {f : α → Outcome ε β} {xs : List α} {ys : List β} :
    xs.mapM f = .ok ys ↔ List.Forall₂ (fun x y => f x = .ok y) xs ys :=
  except_mapM_eq_ok_iff

/-- Computations that agree on every member of a list agree on the list. -/
theorem mapM_congr {f g : α → Outcome ε β} {xs : List α} (same : ∀ x ∈ xs, f x = g x) :
    xs.mapM f = xs.mapM g := by
  induction xs with
  | nil => rfl
  | cons x xs ih =>
    obtain ⟨first, rest⟩ := List.forall_mem_cons.mp same
    rw [List.mapM_cons, List.mapM_cons, first, ih rest]

/-- Every member of the result was made of a member of the list. -/
theorem exists_of_mapM_eq_ok {f : α → Outcome ε β} {xs : List α} {ys : List β}
    (success : xs.mapM f = .ok ys) {y : β} (member : y ∈ ys) : ∃ x ∈ xs, f x = .ok y :=
  exists_rel_of_mem (mapM_eq_ok_iff.mp success) member

/-! ## Computations without errors -/

/-- The run ends because a number leaves its range or is not finite. -/
def OutOfRange (x : Outcome ε α) : Prop := x = stop .overflow ∨ x = stop .nonFinite

theorem OutOfRange.bind {x : Outcome ε α} {f : α → Outcome ε β} (out : x.OutOfRange) :
    (x >>= f).OutOfRange := by
  rcases out with rfl | rfl
  · exact .inl rfl
  · exact .inr rfl

/-- A computation ends out of range or gives a value with a property. It does not give an error, and
breaks no promise. -/
def Ensures (x : Outcome ε α) (Q : α → Prop) : Prop := x.OutOfRange ∨ ∃ a, x = .ok a ∧ Q a

namespace Ensures

variable {Q R : α → Prop}

theorem of_ok {a : α} (fits : Q a) : Ensures (.ok a : Outcome ε α) Q := .inr ⟨a, rfl, fits⟩

theorem of_overflow : Ensures (stop .overflow : Outcome ε α) Q := .inl (.inl rfl)

theorem of_nonFinite : Ensures (stop .nonFinite : Outcome ε α) Q := .inl (.inr rfl)

theorem mono {x : Outcome ε α} (ensures : x.Ensures Q) (weaker : ∀ a, x = .ok a → Q a → R a) :
    x.Ensures R := by
  rcases ensures with out | ⟨a, value, fits⟩
  · exact .inl out
  · exact .inr ⟨a, value, weaker a value fits⟩

theorem bind {x : Outcome ε α} {f : α → Outcome ε β} {R : β → Prop} (first : x.Ensures Q)
    (second : ∀ a, Q a → (f a).Ensures R) : (x >>= f).Ensures R := by
  rcases first with out | ⟨a, value, fits⟩
  · exact .inl out.bind
  · rw [value]
    exact second a fits

theorem mapM {f : α → Outcome ε β} {R : α → β → Prop} (xs : List α)
    (each : ∀ x ∈ xs, (f x).Ensures (R x)) : (xs.mapM f).Ensures (List.Forall₂ R xs) := by
  induction xs with
  | nil =>
    rw [List.mapM_nil]
    exact of_ok .nil
  | cons x xs ih =>
    rw [List.mapM_cons]
    refine (each x List.mem_cons_self).bind fun y first => ?_
    refine (ih fun x' member => each x' (List.mem_cons_of_mem x member)).bind fun ys rest => ?_
    exact of_ok (.cons first rest)

theorem foldlM {f : β → α → Outcome ε β} {I : β → Prop} (xs : List α)
    (step : ∀ b, ∀ x ∈ xs, I b → (f b x).Ensures I) {b : β} (start : I b) :
    (xs.foldlM f b).Ensures I := by
  induction xs generalizing b with
  | nil => exact of_ok start
  | cons x xs ih =>
    rw [List.foldlM_cons]
    exact (step b x List.mem_cons_self start).bind fun b' next =>
      ih (fun b'' x' member => step b'' x' (List.mem_cons_of_mem x member)) next

end Ensures

end Outcome

end LayerNet
