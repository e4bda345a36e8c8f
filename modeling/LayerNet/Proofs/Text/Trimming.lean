import LayerNet.Text.Blank
import Mathlib.Data.List.Basic

/-!
# Trimming — a text and the blanks around it

A text is a bare core with blanks around it in one way only: the core is what trimming leaves
(`pads_trim`, `trim_of_pads`). So texts that differ in the blanks around them are trimmed alike.
-/

namespace LayerNet

namespace Text

/-- The text does not begin or end with a blank. -/
def Bare (cs : List Char) : Prop :=
  (∀ c ∈ cs.head?, isBlank c = false) ∧ ∀ c ∈ cs.getLast?, isBlank c = false

/-- The longer text has blanks around the shorter one, and nothing else. -/
def Pads (core padded : List Char) : Prop :=
  ∃ before after, isBlankText before ∧ isBlankText after ∧ padded = before ++ core ++ after

theorem isBlankText_append {before after : List Char} :
    isBlankText (before ++ after) ↔ isBlankText before ∧ isBlankText after := by
  simp [isBlankText]

theorem isBlankText_reverse {cs : List Char} : isBlankText cs.reverse ↔ isBlankText cs := by
  simp [isBlankText]

theorem not_mem_of_blank {c : Char} (visible : isBlank c = false) {cs : List Char}
    (blank : isBlankText cs) : c ∉ cs := by
  intro member
  have space : isBlank c = true := List.all_eq_true.mp blank c member
  exact absurd space (by simp [visible])

theorem Pads.refl (cs : List Char) : Pads cs cs := ⟨[], [], rfl, rfl, by simp⟩

theorem Pads.trans {core padded wider : List Char} (outer : Pads padded wider)
    (inner : Pads core padded) : Pads core wider := by
  obtain ⟨before, after, blank, blank', rfl⟩ := outer
  obtain ⟨before', after', blank₁, blank₁', rfl⟩ := inner
  exact ⟨before ++ before', after' ++ after, isBlankText_append.mpr ⟨blank, blank₁⟩,
    isBlankText_append.mpr ⟨blank₁', blank'⟩, by simp⟩

theorem Pads.mem {core padded : List Char} (pads : Pads core padded) {c : Char}
    (inside : c ∈ core) : c ∈ padded := by
  obtain ⟨before, after, -, -, rfl⟩ := pads
  exact List.mem_append_left after (List.mem_append_right before inside)

theorem Pads.length_le {core padded : List Char} (pads : Pads core padded) :
    core.length ≤ padded.length := by
  obtain ⟨before, after, -, -, rfl⟩ := pads
  simp only [List.length_append]
  omega

/-- What is dropped at the start is blank, and what is left does not begin with a blank. -/
theorem trimStart_spec (cs : List Char) : ∃ before, isBlankText before
    ∧ cs = before ++ trimStart cs ∧ ∀ c ∈ (trimStart cs).head?, isBlank c = false := by
  induction cs with
  | nil => exact ⟨[], rfl, rfl, fun c first => nomatch first⟩
  | cons c cs ih =>
    obtain ⟨before, blank, split, first⟩ := ih
    by_cases dropped : isBlank c = true
    · have step : trimStart (c :: cs) = trimStart cs := List.dropWhile_cons_of_pos dropped
      rw [step]
      refine ⟨c :: before, ?_, by rw [List.cons_append, ← split], first⟩
      rw [isBlankText, List.all_cons, dropped]
      exact blank
    · have step : trimStart (c :: cs) = c :: cs := List.dropWhile_cons_of_neg dropped
      rw [step]
      refine ⟨[], rfl, rfl, fun c' head => ?_⟩
      obtain rfl := Option.some.inj head
      simpa using dropped

theorem trimStart_append {before : List Char} (blank : isBlankText before) {cs : List Char}
    (first : ∀ c ∈ cs.head?, isBlank c = false) : trimStart (before ++ cs) = cs := by
  induction before with
  | nil =>
    cases cs with
    | nil => rfl
    | cons c cs =>
      have stays : isBlank c = false := first c rfl
      exact List.dropWhile_cons_of_neg (by simp [stays])
  | cons b before ih =>
    obtain ⟨dropped, blank⟩ : isBlank b = true ∧ isBlankText before := by
      simpa [isBlankText] using blank
    exact (List.dropWhile_cons_of_pos dropped).trans (ih blank)

/-- The text is the trimmed one with blanks around it. -/
theorem pads_trim (cs : List Char) : Pads (trim cs) cs := by
  obtain ⟨before, blank, start, -⟩ := trimStart_spec cs
  obtain ⟨after, blank', finish, -⟩ := trimStart_spec (trimStart cs).reverse
  refine ⟨before, after.reverse, blank, isBlankText_reverse.mpr blank', ?_⟩
  have reversed := congrArg List.reverse finish
  rw [List.reverse_reverse, List.reverse_append] at reversed
  rw [List.append_assoc, trim, ← reversed, ← start]

/-- A trimmed text is bare. -/
theorem bare_trim (cs : List Char) : Bare (trim cs) := by
  obtain ⟨-, -, -, first⟩ := trimStart_spec cs
  obtain ⟨after, -, finish, last⟩ := trimStart_spec (trimStart cs).reverse
  refine ⟨fun c head => ?_, fun c end' => ?_⟩
  · have reversed := congrArg List.reverse finish
    rw [List.reverse_reverse, List.reverse_append] at reversed
    refine first c ?_
    rw [reversed]
    change c ∈ (trim cs).head? at head
    rw [Option.mem_def] at head ⊢
    rw [List.head?_append, show (trimStart (trimStart cs).reverse).reverse.head? = some c from head]
    rfl
  · rw [trim, List.getLast?_reverse] at end'
    exact last c end'

/-- A bare text with blanks around it is what trimming leaves. -/
theorem trim_of_pads {core padded : List Char} (pads : Pads core padded) (bare : Bare core) :
    trim padded = core := by
  obtain ⟨before, after, blank, blank', rfl⟩ := pads
  by_cases empty : core = []
  · subst empty
    have all : isBlankText (before ++ [] ++ after) := by
      rw [List.append_nil]
      exact isBlankText_append.mpr ⟨blank, blank'⟩
    have nothing : trimStart (before ++ [] ++ after ++ []) = [] :=
      trimStart_append all fun c first => nomatch first
    rw [List.append_nil] at nothing
    rw [trim, nothing]
    rfl
  · obtain ⟨c, rest, rfl⟩ := List.exists_cons_of_ne_nil empty
    have start : trimStart (before ++ (c :: rest ++ after)) = c :: rest ++ after :=
      trimStart_append blank fun c' head => bare.1 c' head
    rw [trim, List.append_assoc, start, List.reverse_append,
      trimStart_append (isBlankText_reverse.mpr blank') ?_, List.reverse_reverse]
    intro c' head
    rw [List.head?_reverse] at head
    exact bare.2 c' head

theorem trim_eq_of_pads {core padded : List Char} (pads : Pads core padded) :
    trim padded = trim core :=
  trim_of_pads (pads.trans (pads_trim core)) (bare_trim core)

end Text

end LayerNet
