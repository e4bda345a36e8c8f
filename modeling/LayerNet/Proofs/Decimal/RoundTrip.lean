import LayerNet.Proofs.Decimal.Rounding
import Mathlib

/-!
# Written and read — a finite single is read as what was written

A grid has a decimal to write when one of the number's two neighbours on it rounds to the number
(`Magnitude.readsBack_iff`). The last grid holds the number itself (`onGrid?_last`), so the search
for the shortest decimal has a result, and the result is covered by the number
(`Format.covers_shortest`).

The bits of a finite single without the sign bit tell the significand and the exponent of its
magnitude (`exists_magnitude`), and are put together from them again (`Magnitude.bits`). The sign
bit makes a number the negative of the one without (`neg_ofBits`).

Positional notation writes the shortest decimal as digits whose number, at the place of the last of
them, is the decimal again. So what is written for a finite single is read as this single, to the
last bit and with the sign of a zero (`read?_plain`).
-/

namespace LayerNet.Decimal

/-! ## What is written rounds to the number -/

namespace Magnitude

variable {m : Magnitude}

/-- Quarters of the last binary place compared with units of a decimal place, without fractions. -/
theorem quarters_le_iff (quarters count : ℕ) (e place : ℤ) :
    (quarters / 4 : ℚ) * 2 ^ e ≤ count * 10 ^ place
      ↔ quarters * (twoTo e.toNat * tenTo (-place).toNat)
        ≤ 4 * count * (twoTo (-e).toNat * tenTo place.toNat) := by
  have two : (0 : ℚ) < 4 * 2 ^ (-e).toNat := by positivity
  have ten : (0 : ℚ) < 10 ^ (-place).toNat := by positivity
  rw [zpow_eq_div two_ne_zero, zpow_eq_div (by norm_num : (10 : ℚ) ≠ 0), div_mul_div_comm,
    mul_div_assoc', div_le_div_iff₀ two ten, ← Nat.cast_le (α := ℚ)]
  push_cast
  rw [cast_twoTo, cast_twoTo, cast_tenTo, cast_tenTo]
  constructor <;> intro le <;> linarith

theorem le_quarters_iff (quarters count : ℕ) (e place : ℤ) :
    (count : ℚ) * 10 ^ place ≤ quarters / 4 * 2 ^ e
      ↔ 4 * count * (twoTo (-e).toNat * tenTo place.toNat)
        ≤ quarters * (twoTo e.toNat * tenTo (-place).toNat) := by
  have two : (0 : ℚ) < 4 * 2 ^ (-e).toNat := by positivity
  have ten : (0 : ℚ) < 10 ^ (-place).toNat := by positivity
  rw [zpow_eq_div two_ne_zero, zpow_eq_div (by norm_num : (10 : ℚ) ≠ 0), div_mul_div_comm,
    mul_div_assoc', div_le_div_iff₀ ten two, ← Nat.cast_le (α := ℚ)]
  push_cast
  rw [cast_twoTo, cast_twoTo, cast_tenTo, cast_tenTo]
  constructor <;> intro le <;> linarith

/-- A number of units reads back exactly when the number covers it. -/
theorem readsBack_iff (nonzero : m.significand ≠ 0) (place : ℤ) (count : ℕ) :
    m.readsBack place count = true ↔ m.Covers (count * 10 ^ place) := by
  have low : (m.significand : ℚ) - m.reach
      = ((4 * m.significand - if m.narrowBelow then 1 else 2 : ℕ) : ℚ) / 4 := by
    unfold reach
    split
    · rw [Nat.cast_sub (by omega)]
      push_cast
      ring
    · rw [Nat.cast_sub (by omega)]
      push_cast
      ring
  have high : (m.significand : ℚ) + 1 / 2 = ((4 * m.significand + 2 : ℕ) : ℚ) / 4 := by
    push_cast
    ring
  unfold readsBack Covers denominator
  dsimp only
  rw [low, high]
  generalize (4 * m.significand - if m.narrowBelow then 1 else 2) = quarters
  by_cases even : m.significand % 2 = 0
  · rw [if_pos even, if_pos even, quarters_le_iff, le_quarters_iff, Bool.and_eq_true,
      decide_eq_true_iff, decide_eq_true_iff]
  · rw [if_neg even, if_neg even, Bool.and_eq_true, decide_eq_true_iff, decide_eq_true_iff,
      ← Nat.not_le, ← Nat.not_le, ← le_quarters_iff, ← quarters_le_iff, not_le, not_le]

/-- What is chosen on a grid reads back. -/
theorem readsBack_of_onGrid {place : ℤ} {count : ℕ} (chosen : m.onGrid? place = some count) :
    m.readsBack place count = true := by
  unfold onGrid? at chosen
  dsimp only at chosen
  split at chosen
  next below above =>
    split at chosen <;> cases chosen
    · exact below
    · exact above
  next below above =>
    cases chosen
    exact below
  next below above =>
    cases chosen
    exact above
  · cases chosen

/-- The last grid that is tried holds the number, so there is a choice on it. -/
theorem onGrid?_last (nonzero : m.significand ≠ 0) :
    (m.onGrid? (-((-m.exponent).toNat : ℤ))).isSome := by
  generalize digits : (-m.exponent).toNat = k
  have place : (-(-(k : ℤ))).toNat = k := by omega
  have whole : (-(k : ℤ)).toNat = 0 := by omega
  have ten : tenTo k = twoTo k * 5 ^ k := Nat.mul_pow 2 5 k
  have denominator : m.denominator (-(k : ℤ)) = twoTo k := by
    rw [Magnitude.denominator, whole, digits]
    exact Nat.mul_one _
  have numerator : m.numerator (-(k : ℤ))
      = twoTo k * (m.significand * twoTo m.exponent.toNat * 5 ^ k) := by
    rw [Magnitude.numerator, place, ten]
    exact Nat.mul_left_comm _ _ _
  have itself : m.readsBack (-(k : ℤ)) (m.numerator (-(k : ℤ)) / m.denominator (-(k : ℤ)))
      = true := by
    rw [readsBack_iff nonzero, numerator, denominator, Nat.mul_div_cancel_left _ (twoTo_pos k)]
    have same : ((m.significand * twoTo m.exponent.toNat * 5 ^ k : ℕ) : ℚ) * 10 ^ (-(k : ℤ))
        = m.significand * 2 ^ m.exponent := by
      rw [zpow_eq_div two_ne_zero m.exponent, digits, zpow_neg, zpow_natCast]
      push_cast
      rw [cast_twoTo, (by norm_num : (10 : ℚ) = 2 * 5), mul_pow]
      field_simp
    exact same ▸ m.covers_self
  unfold onGrid?
  dsimp only
  rw [itself]
  cases m.readsBack (-(k : ℤ)) (m.numerator (-(k : ℤ)) / m.denominator (-(k : ℤ)) + 1) with
  | true =>
    dsimp only
    split <;> rfl
  | false => rfl

/-- The search for the shortest decimal has a result, and it reads back. -/
theorem exists_shortest (nonzero : m.significand ≠ 0) (top : ℕ) :
    ∃ d, m.shortest? top = some d ∧ m.Covers (d.digits * 10 ^ d.place) := by
  have last : (-((-m.exponent).toNat : ℤ)) ∈ m.grids top :=
    List.mem_map.mpr ⟨top + (-m.exponent).toNat, List.mem_range.mpr (by omega), by omega⟩
  cases found : m.shortest? top with
  | none =>
    have none := List.findSome?_eq_none_iff.mp found _ last
    obtain ⟨count, chosen⟩ := Option.isSome_iff_exists.mp (onGrid?_last nonzero)
    rw [chosen] at none
    cases none
  | some d =>
    obtain ⟨place, -, chosen⟩ := List.exists_of_findSome?_eq_some found
    obtain ⟨count, picked, rfl⟩ := Option.map_eq_some_iff.mp chosen
    exact ⟨_, rfl, (readsBack_iff nonzero place count).mp (readsBack_of_onGrid picked)⟩

end Magnitude

/-- The shortest decimal of a number rounds to it. -/
theorem Format.covers_shortest (f : Format) {m : Magnitude} (nonzero : m.significand ≠ 0) :
    m.Covers ((f.shortest m).digits * 10 ^ (f.shortest m).place) := by
  obtain ⟨d, found, covers⟩ := Magnitude.exists_shortest nonzero f.top
  rw [shortest, if_neg nonzero, found]
  exact covers

/-! ## The bits of a magnitude -/

section Bits

open Float.Model Float.Model.UnpackedFloat

/-- The three fields of a bit pattern. -/
theorem fields (b : BitVec 32) :
    (@unpackMantissa Format.binary32 b).toNat = b.toNat % 2 ^ 23
      ∧ (@unpackExponent Format.binary32 b).toNat = b.toNat / 2 ^ 23 % 2 ^ 8
      ∧ (@unpackSign Format.binary32 b).toNat = b.toNat / 2 ^ 31 % 2 := by
  rw [unpackMantissa_def, unpackExponent_def, unpackSign_def]
  refine ⟨?_, ?_, ?_⟩
  · rw [BitVec.extractLsb'_toNat, Nat.shiftRight_zero]
  · rw [BitVec.extractLsb'_toNat, Nat.shiftRight_eq_div_pow]
  · rw [BitVec.extractLsb'_toNat, Nat.shiftRight_eq_div_pow]
    rfl

/-- The sign bit negates. -/
theorem unpack_neg {b c : BitVec 32} (sign : b.toNat = c.toNat + 2 ^ 31) :
    UnpackedFloat.unpack Format.binary32 b = (UnpackedFloat.unpack Format.binary32 c).neg := by
  have bound := b.isLt
  obtain ⟨mantissa, exponent, signBit⟩ := fields b
  obtain ⟨mantissa', exponent', signBit'⟩ := fields c
  have same : @unpackMantissa Format.binary32 b
      = @unpackMantissa Format.binary32 c :=
    BitVec.eq_of_toNat_eq (by omega)
  have same' : @unpackExponent Format.binary32 b
      = @unpackExponent Format.binary32 c :=
    BitVec.eq_of_toNat_eq (by omega)
  have negative : @unpackSign Format.binary32 b = 1#1 :=
    BitVec.eq_of_toNat_eq (by rw [signBit]; simp; omega)
  have positive : @unpackSign Format.binary32 c = 0#1 :=
    BitVec.eq_of_toNat_eq (by rw [signBit']; simp; omega)
  unfold UnpackedFloat.unpack
  dsimp only
  simp only [same, same', negative, positive]
  split
  · split <;> rfl
  · split
    · split <;> rfl
    · rfl

/-- A number with the sign bit is the negative of the number without. -/
theorem neg_ofBits {x : Float32} {c : ℕ} (bits : x.toBits.toNat = c + 2 ^ 31)
    (isFinite : c < 0x7f800000) : -Float32.ofBits (UInt32.ofNat c) = x := by
  have value : (UInt32.ofNat c).toBitVec.toNat = c := by
    rw [UInt32.toNat_toBitVec, UInt32.toNat_ofNat_of_lt' (isFinite.trans (by decide))]
  have number : @isNaNBits Format.binary32 (UInt32.ofNat c).toBitVec = false := by
    refine decide_eq_false fun isNaN => ?_
    have exponent := (fields (UInt32.ofNat c).toBitVec).2.1
    rw [isNaN.1, value] at exponent
    simp at exponent
    omega
  rw [← Float32.toBits_inj, ← UInt32.toBitVec_inj]
  show UnpackedFloat.pack Format.binary32 (UnpackedFloat.unpack Format.binary32
    (UnpackedFloat.pack Format.binary32 (UnpackedFloat.unpack Format.binary32
      (UInt32.ofNat c).toBitVec))).neg = x.toModel.toBits.toBitVec
  rw [pack_unpack, number, if_neg Bool.false_ne_true, ← unpack_neg (b := x.toModel.toBits.toBitVec)]
  · exact pack_unpack_of_valid x.toModel.valid
  · rw [value]
    exact bits

/-- The magnitude of a finite number: its significand and exponent, and the bits without the
sign. -/
theorem exists_magnitude {x : Float32} (isFinite : x.isFinite = true) :
    ∃ m : Magnitude, Format.single.classify x.toBits.toNat = .finite m ∧ m.IsSingle
      ∧ m.bits = x.toBits.toNat % 2 ^ 31 := by
  have notAll : x.toBits.toNat / 2 ^ 23 % 2 ^ 8 ≠ 2 ^ 8 - 1 := by
    intro all
    have exponent : @unpackExponent Format.binary32 x.toBits.toBitVec = -1#8 := by
      refine BitVec.eq_of_toNat_eq ?_
      rw [(fields _).2.1]
      exact all
    have : (UnpackedFloat.unpack Format.binary32 x.toBits.toBitVec).isFinite = false := by
      unfold UnpackedFloat.unpack
      dsimp only
      rw [if_pos exponent]
      split <;> rfl
    exact absurd (isFinite.symm.trans this) (by decide)
  have small : x.toBits.toNat < 2 ^ 32 := x.toBits.toNat_lt
  have fraction : twoTo Format.single.fractionBits = 2 ^ 23 := rfl
  have field : twoTo Format.single.exponentBits = 2 ^ 8 := rfl
  have bias : (Format.single.bias : ℤ) + Format.single.fractionBits = 150 := rfl
  have lowest : (1 : ℤ) - 150 = -149 := rfl
  unfold Format.classify
  dsimp only
  rw [fraction, field, bias, lowest, if_neg notAll]
  generalize x.toBits.toNat = n at *
  split
  · refine ⟨_, rfl, ⟨?_, le_rfl, ?_, .inl rfl, fun _ least => absurd least (lt_irrefl _)⟩, ?_⟩
    · show n % 2 ^ 23 < 2 ^ 24
      omega
    · show (-149 : ℤ) ≤ 104
      omega
    · have field : (-149 + 149 : ℤ).toNat = 0 := rfl
      unfold Magnitude.bits
      dsimp only
      rw [field]
      omega
  next hidden =>
    refine ⟨_, rfl, ⟨?_, ?_, ?_, .inr (Nat.le_add_right _ _), fun power least => ?_⟩, ?_⟩
    · show 2 ^ 23 + n % 2 ^ 23 < 2 ^ 24
      omega
    · show -149 ≤ ((n / 2 ^ 23 % 2 ^ 8 : ℕ) : ℤ) - 150
      omega
    · show ((n / 2 ^ 23 % 2 ^ 8 : ℕ) : ℤ) - 150 ≤ 104
      omega
    · dsimp only at power least
      simp only [Bool.and_eq_true, decide_eq_true_iff]
      omega
    · unfold Magnitude.bits
      dsimp only
      omega

end Bits

/-! ## What is written is read -/

/-- A number in positional notation: digits, and decimals behind a point or none. -/
inductive Positional : List Char → List Char → List Char → Prop
  | whole {ds : List Char} : ds ≠ [] → (∀ c ∈ ds, isDigit c = true) → Positional ds ds []
  | point {ds es : List Char} : ds ≠ [] → (∀ c ∈ ds, isDigit c = true) →
    (∀ c ∈ es, isDigit c = true) → Positional (ds ++ '.' :: es) ds es

namespace Positional

variable {cs ds es : List Char}

/-- Positional notation has no sign of its own. -/
theorem sign_eq (text : Positional cs ds es) : sign cs = (false, cs) := by
  have first {c : Char} {rest : List Char} (digit : isDigit c = true) :
      sign (c :: rest) = (false, c :: rest) := by
    have noMinus : c ≠ '-' := fun same => absurd (same ▸ digit) (by decide)
    have noPlus : c ≠ '+' := fun same => absurd (same ▸ digit) (by decide)
    unfold sign
    split <;> simp_all
  cases text with
  | whole nonempty digits =>
    obtain ⟨c, ds, rfl⟩ := List.exists_cons_of_ne_nil nonempty
    exact first (digits c List.mem_cons_self)
  | point nonempty digits =>
    obtain ⟨c, ds, rfl⟩ := List.exists_cons_of_ne_nil nonempty
    exact first (digits c List.mem_cons_self)

/-- Positional notation is read as the number that its digits write, at the place of the last. -/
theorem read?_eq (text : Positional cs ds es) (negative : Bool) :
    read? (if negative then '-' :: cs else cs)
      = some (if negative then -nearest (ofDigits (ds ++ es)) (-(es.length : ℤ))
        else nearest (ofDigits (ds ++ es)) (-(es.length : ℤ))) := by
  have signed : sign (if negative then '-' :: cs else cs) = (negative, cs) := by
    cases negative with
    | false => exact text.sign_eq
    | true => rfl
  unfold read?
  rw [signed]
  dsimp only
  cases text with
  | whole nonempty digits =>
    obtain ⟨taken, left⟩ := digits_append digits .nil
    rw [List.append_nil] at taken left
    rw [taken, left]
    dsimp only
    rw [if_neg (by simpa using nonempty)]
    rfl
  | point nonempty digits digits' =>
    obtain ⟨taken, left⟩ := digits_append digits (.cons (by decide) es : Stops ('.' :: es))
    obtain ⟨taken', left'⟩ := digits_append digits' .nil
    rw [List.append_nil] at taken' left'
    rw [taken, left]
    simp only [taken', left']
    rw [if_neg (by simp [nonempty]), ← zero_sub]
    rfl

end Positional

namespace Numeral

variable (d : Numeral)

theorem toList_zeros (n : ℕ) : (zeros n).toList = List.replicate n '0' := String.toList_ofList

/-- Digits and zeros are digits. -/
theorem isDigit_of_mem (n : ℕ) {c : Char}
    (member : c ∈ (toString d.digits).toList ∨ c ∈ List.replicate n '0') : isDigit c = true := by
  rcases member with among | zero
  · exact isDigit_of_mem_toString among
  · rw [List.eq_of_mem_replicate zero]
    rfl

/-- A numeral of whole units is written with zeros behind. -/
theorem positional_of_nonneg (whole : 0 ≤ d.place) :
    Positional d.positional.toList d.positional.toList []
      ∧ (ofDigits d.positional.toList : ℚ) = d.digits * 10 ^ d.place := by
  have text : d.positional.toList
      = (toString d.digits).toList ++ List.replicate d.place.toNat '0' := by
    rw [positional, digitText, if_pos whole, String.toList_append, toList_zeros]
  rw [text]
  refine ⟨.whole (List.append_ne_nil_of_left_ne_nil (toString_ne_nil _) _) fun c member => ?_, ?_⟩
  · exact d.isDigit_of_mem _ (List.mem_append.mp member)
  · have place : d.place = (d.place.toNat : ℤ) := by omega
    rw [ofDigits_append_zeros, ofDigits_toString]
    conv_rhs => rw [place, zpow_natCast]
    push_cast
    exact mul_comm _ _

/-- A numeral with decimals is written with zeros in front and a point between. -/
theorem positional_of_neg (fraction : ¬ 0 ≤ d.place) :
    ∃ ds es, Positional d.positional.toList ds es ∧ ofDigits (ds ++ es) = d.digits
      ∧ d.place = -(es.length : ℤ) := by
  generalize decimals : (-d.place).toNat = n
  generalize shape : zeros (n + 1 - (toString d.digits).length) ++ toString d.digits = padded
  have chars : padded.toList = List.replicate (n + 1 - (toString d.digits).length) '0'
      ++ (toString d.digits).toList := by
    rw [← shape, String.toList_append, toList_zeros]
  have length : n + 1 ≤ padded.toList.length := by
    rw [chars, List.length_append, List.length_replicate, String.length_toList]
    omega
  have digits : ∀ c ∈ padded.toList, isDigit c = true := by
    rw [chars]
    exact fun c member => d.isDigit_of_mem _ (List.mem_append.mp member).symm
  have text : d.positional.toList = padded.toList.take (padded.toList.length - n)
      ++ '.' :: padded.toList.drop (padded.toList.length - n) := by
    rw [positional, digitText, if_neg fraction]
    dsimp only
    rw [decimals, shape, String.toList_append, String.toList_append]
    show (String.Slice.copy _).toList ++ ['.'] ++ (String.Slice.copy _).toList = _
    rw [String.toList_copy_take, String.toList_copy_drop, String.length_toList, List.append_assoc]
    rfl
  refine ⟨padded.toList.take (padded.toList.length - n),
    padded.toList.drop (padded.toList.length - n), ?_, ?_, ?_⟩
  · rw [text]
    refine .point (fun empty => ?_) (fun c member => digits c (List.mem_of_mem_take member))
      fun c member => digits c (List.mem_of_mem_drop member)
    have none := congrArg List.length empty
    rw [List.length_take, List.length_nil] at none
    omega
  · rw [List.take_append_drop, chars, ofDigits_zeros_append, ofDigits_toString]
  · rw [List.length_drop]
    omega

/-- Positional notation writes digits whose number is the numeral's. -/
theorem positional_spec : ∃ ds es, Positional d.positional.toList ds es
    ∧ (ofDigits (ds ++ es) : ℚ) * 10 ^ (-(es.length : ℤ)) = d.digits * 10 ^ d.place := by
  by_cases whole : 0 ≤ d.place
  · obtain ⟨text, value⟩ := d.positional_of_nonneg whole
    refine ⟨_, [], text, ?_⟩
    rw [List.append_nil, ← value, List.length_nil, Nat.cast_zero, neg_zero, zpow_zero, mul_one]
  · obtain ⟨ds, es, text, value, place⟩ := d.positional_of_neg whole
    exact ⟨ds, es, text, by rw [value, place]⟩

end Numeral

/-- Digits that stand for the shortest decimal of a single are read as its bits. -/
theorem nearest_of_shortest {m : Magnitude} (single : m.IsSingle) {digits : ℕ} {place : ℤ}
    (same : (digits : ℚ) * 10 ^ place
      = (Format.single.shortest m).digits * 10 ^ (Format.single.shortest m).place) :
    nearest digits place = Float32.ofBits (UInt32.ofNat m.bits) := by
  by_cases zero : m.significand = 0
  · have bits : m.bits = 0 := by
      have := single.normal
      unfold Magnitude.bits
      rw [zero]
      omega
    have shortest : (Format.single.shortest m).digits = 0 := by rw [Format.shortest, if_pos zero]
    rw [shortest, Nat.cast_zero, zero_mul] at same
    have none : digits = 0 := by
      exact_mod_cast (mul_eq_zero.mp same).resolve_right (by positivity)
    rw [bits, none, nearest_eq, if_pos rfl]
    decide +kernel
  · exact nearest_of_covers single zero (same ▸ Format.single.covers_shortest zero)

/-- A finite single is read as what was written. -/
theorem read?_plain {x : Float32} (isFinite : x.isFinite = true) :
    read? (plain x).toList = some x := by
  obtain ⟨m, classified, single, bits⟩ := exists_magnitude isFinite
  obtain ⟨ds, es, text, value⟩ := (Format.single.shortest m).positional_spec
  have written : (plain x).toList
      = if Format.single.negative x.toBits.toNat
        then '-' :: (Format.single.shortest m).positional.toList
        else (Format.single.shortest m).positional.toList := by
    unfold plain Format.write
    rw [classified]
    dsimp only
    split
    · exact String.toList_append
    · rfl
  have small : x.toBits.toNat < 2 ^ 32 := x.toBits.toNat_lt
  have signBit : Format.single.negative x.toBits.toNat
      = decide (x.toBits.toNat / 2 ^ 31 % 2 = 1) := rfl
  rw [written, text.read?_eq, nearest_of_shortest single value, signBit]
  split
  next negative =>
    rw [decide_eq_true_iff] at negative
    have split : x.toBits.toNat = m.bits + 2 ^ 31 := by omega
    rw [neg_ofBits split single.bits_lt]
  next positive =>
    rw [decide_eq_true_iff] at positive
    have whole : m.bits = x.toBits.toNat := by omega
    rw [whole, UInt32.ofNat_toNat, Float32.ofBits_toBits]

/-- The sign of a zero is kept, and the smallest number of all. -/
example : read? (plain (-0.0)).toList = some (-0.0)
    ∧ read? (plain (Float32.ofBits 1)).toList = some (Float32.ofBits 1) := by decide +kernel

end LayerNet.Decimal
