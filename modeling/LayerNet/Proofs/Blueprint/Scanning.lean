import LayerNet.Blueprint.Reader
import LayerNet.Proofs.Decimal.Rounding

/-!
# Scanning — what the readers of a token's parts accept

Each reader takes what it is for from the front of a text and leaves the rest: a literal, a number,
a square (`number_iff`, `square_iff`). The steps and rims of a convolution are read exactly when
they are spelled by a rule (`Windowed`), but for one corner. Steps that are zero, or that are told
twice, are no steps and refused, unless a mark for rims follows the mark for steps: then the numbers
are taken for rims (`PassedOver`).
-/

namespace LayerNet

open Decimal (Stops digits_append)

namespace Scan

variable {α β : Type}

/-! ## Figures -/

/-- A run of digits that writes a number below the limit. -/
structure Figures (ds : List Char) (n : Nat) : Prop where
  nonempty : ds ≠ []
  digits : ∀ c ∈ ds, Decimal.isDigit c = true
  value : Decimal.ofDigits ds = n
  fits : n < Size.limit

/-! ## Readers -/

theorem run_bind_eq_some {scan : Scan α} {f : α → Scan β} {cs rest : List Char} {b : β} :
    (scan >>= f).run cs = some (b, rest) ↔
      ∃ a cs', scan.run cs = some (a, cs') ∧ (f a).run cs' = some (b, rest) := by
  rw [StateT.run_bind]
  exact Option.bind_eq_some_iff.trans Prod.exists

/-- What a reader makes of a whole token is what it gives with nothing left. -/
theorem whole_eq_some_iff {scan : Scan α} {cs : List Char} {a : α} :
    whole scan cs = some a ↔ scan.run cs = some (a, []) := by
  unfold whole
  constructor
  · intro read
    split at read
    next run =>
      cases read
      exact run
    · cases read
  · intro run
    rw [show scan cs = some (a, []) from run]

theorem literal_iff {text : String} {cs rest : List Char} {u : Unit} :
    (literal text).run cs = some (u, rest) ↔ cs = text.toList ++ rest := by
  show (if text.toList.isPrefixOf cs then some ((), cs.drop text.length) else none) = _ ↔ _
  split
  next here =>
    obtain ⟨behind, rfl⟩ := List.isPrefixOf_iff_prefix.mp here
    have dropped : (text.toList ++ behind).drop text.length = behind := List.drop_left
    rw [dropped]
    constructor
    · rintro ⟨⟩
      rfl
    · intro same
      rw [List.append_cancel_left same]
  next absent =>
    refine ⟨nofun, fun same => absurd ?_ absent⟩
    rw [same]
    exact List.isPrefixOf_iff_prefix.mpr (List.prefix_append _ _)

theorem optionally_iff {text : String} {cs rest : List Char} {taken : Bool} :
    (optionally text).run cs = some (taken, rest) ↔
      if taken then cs = text.toList ++ rest else rest = cs ∧ ¬ text.toList <+: cs := by
  show (if text.toList.isPrefixOf cs then some (true, cs.drop text.length)
    else some (false, cs)) = _ ↔ _
  split
  next here =>
    obtain ⟨behind, rfl⟩ := List.isPrefixOf_iff_prefix.mp here
    have dropped : (text.toList ++ behind).drop text.length = behind := List.drop_left
    rw [dropped]
    cases taken with
    | false => exact ⟨nofun, fun absent => absurd (List.prefix_append _ _) absent.2⟩
    | true =>
      constructor
      · rintro ⟨⟩
        rfl
      · intro same
        rw [List.append_cancel_left same]
  next absent =>
    have absent : ¬ text.toList <+: cs := absent ∘ List.isPrefixOf_iff_prefix.mpr
    cases taken with
    | true =>
      refine ⟨nofun, fun same => absurd ?_ absent⟩
      rw [same]
      exact List.prefix_append _ _
    | false =>
      constructor
      · rintro ⟨⟩
        exact ⟨rfl, absent⟩
      · rintro ⟨rfl, -⟩
        rfl

theorem number_iff {cs rest : List Char} {n : Nat} :
    number.run cs = some (n, rest) ↔ ∃ ds, Figures ds n ∧ cs = ds ++ rest ∧ Stops rest := by
  show (if (cs.takeWhile Decimal.isDigit).isEmpty
      ∨ Size.limit ≤ Decimal.ofDigits (cs.takeWhile Decimal.isDigit) then none
    else some (Decimal.ofDigits (cs.takeWhile Decimal.isDigit), cs.dropWhile Decimal.isDigit))
      = _ ↔ _
  constructor
  · intro read
    split at read
    · cases read
    next fits =>
      cases read
      obtain ⟨nonempty, small⟩ := not_or.mp fits
      refine ⟨cs.takeWhile Decimal.isDigit,
        ⟨by simpa using nonempty, List.all_eq_true.mp List.all_takeWhile, rfl,
          Nat.lt_of_not_le small⟩,
        List.takeWhile_append_dropWhile.symm, fun c first => ?_⟩
      have := List.head?_dropWhile_not Decimal.isDigit cs
      rw [Option.mem_def.mp first] at this
      simpa using this
  · rintro ⟨ds, figures, rfl, stops⟩
    obtain ⟨taken, left⟩ := digits_append figures.digits stops
    rw [taken, left, figures.value, if_neg]
    rintro (empty | large)
    · exact figures.nonempty (List.isEmpty_iff.mp empty)
    · exact absurd figures.fits (Nat.not_lt_of_le large)

theorem positive_iff {cs rest : List Char} {n : Nat} : positive.run cs = some (n, rest) ↔
    ∃ ds, Figures ds n ∧ 0 < n ∧ cs = ds ++ rest ∧ Stops rest := by
  refine run_bind_eq_some.trans ⟨?_, ?_⟩
  · rintro ⟨m, cs', read, run⟩
    split at run
    · cases run
    next nonzero =>
      cases run
      obtain ⟨ds, figures, here, stops⟩ := number_iff.mp read
      exact ⟨ds, figures, Nat.pos_of_ne_zero nonzero, here, stops⟩
  · rintro ⟨ds, figures, above, here, stops⟩
    refine ⟨n, rest, number_iff.mpr ⟨ds, figures, here, stops⟩, ?_⟩
    rw [if_neg (Nat.ne_of_gt above)]
    rfl

theorem square_iff {cs rest : List Char} {n : Nat} : square.run cs = some (n, rest) ↔
    ∃ ds es, Figures ds n ∧ Figures es n ∧ 0 < n ∧ cs = ds ++ 'x' :: (es ++ rest)
      ∧ Stops rest := by
  constructor
  · intro run
    obtain ⟨rows, cs₁, first, run⟩ := run_bind_eq_some.mp run
    obtain ⟨_, cs₂, between, run⟩ := run_bind_eq_some.mp run
    obtain ⟨columns, cs₃, second, run⟩ := run_bind_eq_some.mp run
    split at run
    next same =>
      cases run
      subst same
      obtain ⟨ds, figures, above, rfl, -⟩ := positive_iff.mp first
      obtain rfl := literal_iff.mp between
      obtain ⟨es, figures', -, rfl, stops⟩ := positive_iff.mp second
      exact ⟨ds, es, figures, figures', above, rfl, stops⟩
    · cases run
  · rintro ⟨ds, es, figures, figures', above, rfl, stops⟩
    refine run_bind_eq_some.mpr ⟨n, _, positive_iff.mpr ⟨ds, figures, above, rfl, ?_⟩, ?_⟩
    · exact .cons (by decide) _
    refine run_bind_eq_some.mpr ⟨(), es ++ rest, literal_iff.mpr rfl, ?_⟩
    refine run_bind_eq_some.mpr ⟨n, rest, positive_iff.mpr ⟨es, figures', above, rfl, stops⟩, ?_⟩
    rw [if_pos rfl]
    rfl

/-! ## Windowings -/

/-- One number for both axes, or one for each. -/
inductive Extents : List Char → Nat × Nat → Prop
  | both {ds : List Char} {n : Nat} : Figures ds n → Extents ds (n, n)
  | each {ds es : List Char} {m n : Nat} : Figures ds m → Figures es n →
    Extents (ds ++ 'x' :: es) (m, n)

/-- The steps and rims that are not told are those of a dense windowing. -/
inductive Windowed : List Char → Windowing → Prop
  | dense : Windowed [] .dense
  | steps {cs : List Char} {p : Nat × Nat} : Extents cs p → 0 < p.1 ∧ 0 < p.2 →
    Windowed ('+' :: (cs ++ "(S)".toList)) ⟨p, (0, 0)⟩
  | rims {cs : List Char} {p : Nat × Nat} : Extents cs p →
    Windowed ('+' :: (cs ++ "(P)".toList)) ⟨(1, 1), p⟩
  | both {cs cs' : List Char} {p q : Nat × Nat} : Extents cs p → 0 < p.1 ∧ 0 < p.2 →
    Extents cs' q → Windowed ('+' :: (cs ++ "(S)+".toList ++ (cs' ++ "(P)".toList))) ⟨p, q⟩

/-- A mark for steps that are zero, or were told before, with a mark for rims behind it. -/
inductive PassedOver : List Char → Windowing → Prop
  | zero {cs : List Char} {p : Nat × Nat} : Extents cs p → ¬ (0 < p.1 ∧ 0 < p.2) →
    PassedOver ('+' :: (cs ++ "(S)(P)".toList)) ⟨(1, 1), p⟩
  | again {cs cs' : List Char} {p q : Nat × Nat} : Extents cs p → 0 < p.1 ∧ 0 < p.2 →
    Extents cs' q → PassedOver ('+' :: (cs ++ "(S)+".toList ++ (cs' ++ "(S)(P)".toList))) ⟨p, q⟩

/-- What is spelled out as steps and rims, and what is taken for it. -/
def Accepted (cs : List Char) (windowing : Windowing) : Prop :=
  Windowed cs windowing ∨ PassedOver cs windowing

/-- Extents in front of a mark are read to the mark. -/
theorem extents_run {cs : List Char} {p : Nat × Nat} (spelled : Extents cs p) (rest : List Char) :
    extents.run (cs ++ '(' :: rest) = some (p, '(' :: rest) := by
  have stops : Stops ('(' :: rest) := .cons (by decide) rest
  cases spelled with
  | both figures =>
    refine run_bind_eq_some.mpr ⟨_, _, number_iff.mpr ⟨_, figures, rfl, stops⟩, ?_⟩
    refine run_bind_eq_some.mpr ⟨false, _, optionally_iff.mpr ⟨rfl, ?_⟩, rfl⟩
    rintro ⟨behind, same⟩
    exact absurd (List.cons.inj same).1 (by decide)
  | @each ds es m n figures figures' =>
    rw [List.append_assoc]
    refine run_bind_eq_some.mpr ⟨m, _, number_iff.mpr ⟨ds, figures, rfl, ?_⟩, ?_⟩
    · exact .cons (by decide) _
    refine run_bind_eq_some.mpr ⟨true, es ++ '(' :: rest, optionally_iff.mpr rfl, ?_⟩
    exact run_bind_eq_some.mpr ⟨n, _, number_iff.mpr ⟨es, figures', rfl, stops⟩, rfl⟩

theorem extents_inv {cs rest : List Char} {p : Nat × Nat} (run : extents.run cs = some (p, rest)) :
    ∃ ds, Extents ds p ∧ cs = ds ++ rest := by
  obtain ⟨rows, cs₁, first, run₁⟩ := run_bind_eq_some.mp run
  obtain ⟨taken, cs₂, between, run₂⟩ := run_bind_eq_some.mp run₁
  obtain ⟨ds, figures, rfl, -⟩ := number_iff.mp first
  cases taken with
  | false =>
    obtain ⟨rfl, -⟩ := optionally_iff.mp between
    cases run₂
    exact ⟨ds, .both figures, rfl⟩
  | true =>
    obtain rfl : cs₁ = "x".toList ++ cs₂ := optionally_iff.mp between
    obtain ⟨columns, cs₃, second, run₃⟩ := run_bind_eq_some.mp run₂
    cases run₃
    obtain ⟨es, figures', rfl, -⟩ := number_iff.mp second
    exact ⟨ds ++ 'x' :: es, .each figures figures', by simp⟩

/-- The steps and rims that are read are those that are accepted. -/
theorem windowing_inv {cs : List Char} {w : Windowing} (run : windowing.run cs = some (w, [])) :
    Accepted cs w := by
  obtain ⟨more, cs₁, plus, run₁⟩ := run_bind_eq_some.mp run
  cases more with
  | false =>
    obtain ⟨rfl, -⟩ := optionally_iff.mp plus
    cases run₁
    exact .inl .dense
  | true =>
    obtain rfl : cs = "+".toList ++ cs₁ := optionally_iff.mp plus
    obtain ⟨p, cs₂, first, run₂⟩ := run_bind_eq_some.mp run₁
    obtain ⟨marked, cs₃, steps, run₃⟩ := run_bind_eq_some.mp run₂
    obtain ⟨ds, extents, rfl⟩ := extents_inv first
    split at run₃
    next taken =>
      obtain ⟨⟨rfl, above⟩, above'⟩ : (marked = true ∧ 0 < p.1) ∧ 0 < p.2 := by simpa using taken
      obtain rfl : cs₂ = "(S)".toList ++ cs₃ := optionally_iff.mp steps
      obtain ⟨more, cs₄, plus', run₄⟩ := run_bind_eq_some.mp run₃
      cases more with
      | false =>
        obtain ⟨rfl, -⟩ := optionally_iff.mp plus'
        cases run₄
        exact .inl (.steps extents ⟨above, above'⟩)
      | true =>
        obtain rfl : cs₃ = "+".toList ++ cs₄ := optionally_iff.mp plus'
        obtain ⟨q, cs₅, second, run₅⟩ := run_bind_eq_some.mp run₄
        obtain ⟨again, cs₆, steps', run₆⟩ := run_bind_eq_some.mp run₅
        obtain ⟨_, cs₇, rims, run₇⟩ := run_bind_eq_some.mp run₆
        cases run₇
        obtain ⟨es, extents', rfl⟩ := extents_inv second
        obtain rfl := literal_iff.mp rims
        cases again with
        | false =>
          obtain ⟨rfl, -⟩ := optionally_iff.mp steps'
          have spelled := Windowed.both extents ⟨above, above'⟩ extents'
          exact .inl (by simpa using spelled)
        | true =>
          obtain rfl : cs₅ = "(S)".toList ++ _ := optionally_iff.mp steps'
          have spelled := PassedOver.again extents ⟨above, above'⟩ extents'
          exact .inr (by simpa using spelled)
    next refused =>
      obtain ⟨_, cs₄, rims, run₄⟩ := run_bind_eq_some.mp run₃
      cases run₄
      obtain rfl := literal_iff.mp rims
      cases marked with
      | false =>
        obtain ⟨rfl, -⟩ := optionally_iff.mp steps
        exact .inl (.rims extents)
      | true =>
        obtain rfl : cs₂ = "(S)".toList ++ _ := optionally_iff.mp steps
        exact .inr (.zero extents (by simpa using refused))

/-- What is accepted does not go on with a digit. -/
theorem Accepted.stops {cs : List Char} {w : Windowing} (accepted : Accepted cs w) : Stops cs := by
  rcases accepted with spelled | spelled <;> cases spelled
  · exact .nil
  all_goals exact .cons (by decide) _

/-- A mark for rims is not one for steps. -/
theorem steps_absent : (optionally "(S)").run "(P)".toList = some (false, "(P)".toList) := by
  decide

/-- What is accepted is read. -/
theorem windowing_run {cs : List Char} {w : Windowing} (accepted : Accepted cs w) :
    windowing.run cs = some (w, []) := by
  have plus (rest : List Char) : (optionally "+").run ('+' :: rest) = some (true, rest) :=
    optionally_iff.mpr rfl
  have steps (rest : List Char) :
      (optionally "(S)").run ('(' :: 'S' :: ')' :: rest) = some (true, rest) :=
    optionally_iff.mpr rfl
  have rims : (literal "(P)").run "(P)".toList = some ((), []) := literal_iff.mpr rfl
  rcases accepted with spelled | spelled
  · cases spelled with
    | dense => rfl
    | @steps cs p extents above =>
      refine run_bind_eq_some.mpr ⟨true, _, plus _, ?_⟩
      refine run_bind_eq_some.mpr ⟨p, _, extents_run extents _, ?_⟩
      refine run_bind_eq_some.mpr ⟨true, _, steps _, ?_⟩
      rw [if_pos (by simpa using above)]
      rfl
    | @rims cs p extents =>
      refine run_bind_eq_some.mpr ⟨true, _, plus _, ?_⟩
      refine run_bind_eq_some.mpr ⟨p, _, extents_run extents _, ?_⟩
      refine run_bind_eq_some.mpr ⟨false, _, steps_absent, ?_⟩
      rw [if_neg (by simp)]
      exact run_bind_eq_some.mpr ⟨(), [], rims, rfl⟩
    | @both cs cs' p q extents above extents' =>
      refine run_bind_eq_some.mpr ⟨true, _, plus _, ?_⟩
      rw [List.append_assoc]
      refine run_bind_eq_some.mpr ⟨p, _, extents_run extents _, ?_⟩
      refine run_bind_eq_some.mpr ⟨true, _, steps _, ?_⟩
      rw [if_pos (by simpa using above)]
      refine run_bind_eq_some.mpr ⟨true, _, plus _, ?_⟩
      refine run_bind_eq_some.mpr ⟨q, _, extents_run extents' _, ?_⟩
      refine run_bind_eq_some.mpr ⟨false, _, steps_absent, ?_⟩
      exact run_bind_eq_some.mpr ⟨(), [], rims, rfl⟩
  · cases spelled with
    | @zero cs p extents none =>
      refine run_bind_eq_some.mpr ⟨true, _, plus _, ?_⟩
      refine run_bind_eq_some.mpr ⟨p, _, extents_run extents _, ?_⟩
      refine run_bind_eq_some.mpr ⟨true, _, steps _, ?_⟩
      rw [if_neg (by simpa using none)]
      exact run_bind_eq_some.mpr ⟨(), [], rims, rfl⟩
    | @again cs cs' p q extents above extents' =>
      refine run_bind_eq_some.mpr ⟨true, _, plus _, ?_⟩
      rw [List.append_assoc]
      refine run_bind_eq_some.mpr ⟨p, _, extents_run extents _, ?_⟩
      refine run_bind_eq_some.mpr ⟨true, _, steps _, ?_⟩
      rw [if_pos (by simpa using above)]
      refine run_bind_eq_some.mpr ⟨true, _, plus _, ?_⟩
      refine run_bind_eq_some.mpr ⟨q, _, extents_run extents' _, ?_⟩
      refine run_bind_eq_some.mpr ⟨true, _, steps _, ?_⟩
      exact run_bind_eq_some.mpr ⟨(), [], rims, rfl⟩

end Scan

namespace Text

/-- A text without the separator is its own piece. -/
theorem splitOn_of_not_mem {separator : Char} {cs : List Char} (absent : separator ∉ cs) :
    splitOn separator cs = [cs] := by
  induction cs with
  | nil => rfl
  | cons c cs ih =>
    obtain ⟨other, absent⟩ := not_or.mp (absent ∘ List.mem_cons.mpr)
    rw [splitOn, ih absent, if_neg (Ne.symm other)]

/-- What stands before the first separator is the first piece. -/
theorem splitOn_append {separator : Char} {piece : List Char} (absent : separator ∉ piece)
    (cs : List Char) :
    splitOn separator (piece ++ separator :: cs) = piece :: splitOn separator cs := by
  induction piece with
  | nil =>
    show splitOn separator (separator :: cs) = _
    rw [splitOn, if_pos rfl]
  | cons c piece ih =>
    obtain ⟨other, absent⟩ := not_or.mp (absent ∘ List.mem_cons.mpr)
    rw [List.cons_append, splitOn, ih absent, if_neg (Ne.symm other)]

/-- A text is its first piece, or goes on with a separator behind it and the other pieces. -/
theorem eq_of_splitOn_eq_cons {separator : Char} {cs piece : List Char} {others : List (List Char)}
    (pieces : splitOn separator cs = piece :: others) :
    (cs = piece ∧ others = [])
      ∨ ∃ rest, cs = piece ++ separator :: rest ∧ splitOn separator rest = others := by
  induction cs generalizing piece others with
  | nil =>
    cases pieces
    exact .inl ⟨rfl, rfl⟩
  | cons c cs ih =>
    rw [splitOn] at pieces
    split at pieces
    next same =>
      cases pieces
      exact .inr ⟨cs, same ▸ rfl, rfl⟩
    next other =>
      split at pieces
      next none => exact absurd none (splitOn_ne_nil separator cs)
      next first others' split' =>
        cases pieces
        rcases ih split' with ⟨rfl, rfl⟩ | ⟨rest, rfl, behind⟩
        · exact .inl ⟨rfl, rfl⟩
        · exact .inr ⟨rest, rfl, behind⟩

end Text

end LayerNet
