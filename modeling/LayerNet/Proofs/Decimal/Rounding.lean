import LayerNet.Decimal.Reading
import Mathlib.Algebra.Group.Nat.Defs
import Mathlib.Algebra.Order.Field.Power
import Mathlib.Algebra.Order.Ring.Rat
import Mathlib.Tactic.Linarith
import Mathlib.Tactic.NormNum
import Mathlib.Tactic.Positivity
import Mathlib.Tactic.FieldSimp
import Mathlib.Tactic.Ring

/-!
# Rounding — digits, and a decimal near a single that is read as that single

A number is written as a run of digits that reads back as the number (`ofDigits_toString`), also
with zeros in front; zeros behind multiply it by powers of ten. A run of digits ends where no digit
follows (`digits_append`).

A magnitude covers the rational numbers around it that round to it (`Magnitude.Covers`): those up to
half way to its neighbours, the ends included when its significand is even. A decimal that a single
covers is read as the bits of this single (`nearest_of_covers`). The one case that is not a plain
rounding is a decimal just below a power of two. It is counted in units half as large, and rounds up
to a significand that is one bit too long; the carry into the exponent field sets this right.
-/

namespace LayerNet.Decimal

/-! ## Digits -/

/-- A text that does not go on with a digit. -/
def Stops (cs : List Char) : Prop := ∀ c ∈ cs.head?, isDigit c = false

theorem Stops.nil : Stops [] := fun _ first => nomatch first

theorem Stops.cons {c : Char} (other : isDigit c = false) (cs : List Char) :
    Stops (c :: cs) := by
  rintro _ ⟨⟩
  exact other

/-- Digits end where they stop. -/
theorem digits_append {ds cs : List Char} (digits : ∀ c ∈ ds, isDigit c = true)
    (stops : Stops cs) : (ds ++ cs).takeWhile isDigit = ds ∧ (ds ++ cs).dropWhile isDigit = cs := by
  rw [List.takeWhile_append_of_pos digits, List.dropWhile_append_of_pos digits]
  cases cs with
  | nil => exact ⟨List.append_nil ds, rfl⟩
  | cons c cs =>
    have other : ¬ isDigit c = true := by simp [stops c rfl]
    rw [List.takeWhile_cons_of_neg other, List.dropWhile_cons_of_neg other]
    exact ⟨List.append_nil ds, rfl⟩

theorem ofDigits_append (ds es : List Char) :
    ofDigits (ds ++ es) = Nat.ofDigitChars 10 es (ofDigits ds) :=
  Nat.ofDigitChars_append 0

theorem ofDigits_zeros_append (n : Nat) (ds : List Char) :
    ofDigits (List.replicate n '0' ++ ds) = ofDigits ds := by
  have zeros : ofDigits (List.replicate n '0') = 0 := Nat.ofDigitChars_replicate_zero
  rw [ofDigits_append, zeros]
  rfl

theorem ofDigits_append_zeros (ds : List Char) (n : Nat) :
    ofDigits (ds ++ List.replicate n '0') = 10 ^ n * ofDigits ds :=
  (ofDigits_append _ _).trans Nat.ofDigitChars_replicate_zero

/-- The digits of a number write the number. -/
theorem ofDigits_toString (n : Nat) : ofDigits (toString n).toList = n := by
  show ofDigits n.repr.toList = n
  rw [Nat.toList_repr]
  exact Nat.ofDigitChars_ten_toDigits

theorem isDigit_of_mem_toString {n : Nat} {c : Char} (member : c ∈ (toString n).toList) :
    isDigit c = true := by
  have member : c ∈ n.repr.toList := member
  rw [Nat.toList_repr] at member
  exact Nat.isDigit_of_mem_toDigits (by decide) (by decide) member

theorem toString_ne_nil (n : Nat) : (toString n).toList ≠ [] := by
  intro empty
  have : n.repr.toList = [] := empty
  rw [Nat.toList_repr] at this
  exact absurd (congrArg List.length this) (Nat.ne_of_gt Nat.length_toDigits_pos)

/-! ## Powers as rationals -/

/-- A power with an integral exponent is a quotient of two with natural ones. -/
theorem zpow_eq_div {b : ℚ} (nonzero : b ≠ 0) (e : ℤ) :
    b ^ e = b ^ e.toNat / b ^ (-e).toNat := by
  have split : e = (e.toNat : ℤ) - ((-e).toNat : ℤ) := by omega
  conv_lhs => rw [split, zpow_sub₀ nonzero, zpow_natCast, zpow_natCast]

theorem cast_twoTo (n : ℕ) : (twoTo n : ℚ) = 2 ^ n := by
  rw [twoTo]
  exact Nat.cast_pow 2 n

theorem cast_tenTo (n : ℕ) : (tenTo n : ℚ) = 10 ^ n := by
  rw [tenTo]
  exact Nat.cast_pow 10 n

theorem twoTo_pos (n : ℕ) : 0 < twoTo n := Nat.pow_pos (by decide)

theorem tenTo_pos (n : ℕ) : 0 < tenTo n := Nat.pow_pos (by decide)

/-- The binary place of a positive number is the only power of two with it between it and the
next. -/
theorem place_unique {q : ℚ} {a b : ℤ} (low : (2 : ℚ) ^ a ≤ q) (high : q < 2 ^ (a + 1))
    (low' : (2 : ℚ) ^ b ≤ q) (high' : q < 2 ^ (b + 1)) : a = b := by
  have below := (zpow_lt_zpow_iff_right₀ (one_lt_two : (1 : ℚ) < 2)).mp (low.trans_lt high')
  have above := (zpow_lt_zpow_iff_right₀ (one_lt_two : (1 : ℚ) < 2)).mp (low'.trans_lt high)
  omega

/-! ## Whole numbers -/

/-- A whole number is nearest: it is less than a half away, or a half and even. -/
def IsNearest (n : ℕ) (q : ℚ) : Prop :=
  if n % 2 = 0 then n - 1 / 2 ≤ q ∧ q ≤ n + 1 / 2 else n - 1 / 2 < q ∧ q < n + 1 / 2

theorem IsNearest.le {n : ℕ} {q : ℚ} (near : IsNearest n q) : n - 1 / 2 ≤ q ∧ q ≤ n + 1 / 2 := by
  unfold IsNearest at near
  split at near
  · exact near
  · exact ⟨near.1.le, near.2.le⟩

/-- A quotient is rounded to the nearest whole number. -/
theorem roundHalfEven_eq {N D n : ℕ} (positive : 0 < D) (near : IsNearest n (N / D)) :
    roundHalfEven N D = n := by
  have positive' : (0 : ℚ) < D := Nat.cast_pos.mpr positive
  have low : 2 * (D * n) ≤ 2 * N + D := by
    have := near.le.1
    rw [le_div_iff₀ positive'] at this
    have scaled : (2 * (D * n) : ℚ) ≤ 2 * N + D := by linarith
    exact_mod_cast scaled
  have high : 2 * N ≤ 2 * (D * n) + D := by
    have := near.le.2
    rw [div_le_iff₀ positive'] at this
    have scaled : (2 * N : ℚ) ≤ 2 * (D * n) + D := by linarith
    exact_mod_cast scaled
  have strict : n % 2 ≠ 0 → 2 * (D * n) < 2 * N + D ∧ 2 * N < 2 * (D * n) + D := by
    intro odd
    rw [IsNearest, if_neg odd, lt_div_iff₀ positive', div_lt_iff₀ positive'] at near
    have low : (2 * (D * n) : ℚ) < 2 * N + D := by linarith
    have high : (2 * N : ℚ) < 2 * (D * n) + D := by linarith
    exact ⟨by exact_mod_cast low, by exact_mod_cast high⟩
  have parts : D * (N / D) + N % D = N := Nat.div_add_mod N D
  have rest : N % D < D := Nat.mod_lt N positive
  unfold roundHalfEven
  dsimp only
  -- the quotient, rounded down, is the number or the one below it
  generalize N / D = k at parts
  generalize N % D = r at parts rest
  have below : k ≤ n := by
    by_contra beyond
    have := Nat.mul_le_mul_left D (Nat.succ_le_of_lt (Nat.lt_of_not_le beyond))
    rw [Nat.mul_succ] at this
    omega
  have above : n ≤ k + 1 := by
    by_contra beyond
    have := Nat.mul_le_mul_left D (Nat.succ_le_of_lt (Nat.lt_of_not_le beyond))
    rw [Nat.mul_succ, Nat.mul_succ] at this
    omega
  obtain rfl | rfl : n = k ∨ n = k + 1 := by omega
  · split_ifs <;> omega
  · rw [Nat.mul_succ] at low high strict
    split_ifs <;> omega

/-! ## Magnitudes -/

namespace Magnitude

/-- The distance to the lower end of the interval of what rounds to the number, in units of its last
binary place. -/
def reach (m : Magnitude) : ℚ := if m.narrowBelow then 1 / 4 else 1 / 2

/-- The rational numbers that round to the number. -/
def Covers (m : Magnitude) (q : ℚ) : Prop :=
  if m.significand % 2 = 0 then
    (m.significand - m.reach) * 2 ^ m.exponent ≤ q
      ∧ q ≤ (m.significand + 1 / 2) * 2 ^ m.exponent
  else
    (m.significand - m.reach) * 2 ^ m.exponent < q
      ∧ q < (m.significand + 1 / 2) * 2 ^ m.exponent

/-- A finite number of the 32-bit format, in the one way to write it. -/
structure IsSingle (m : Magnitude) : Prop where
  fits : m.significand < 2 ^ 24
  least : -149 ≤ m.exponent
  greatest : m.exponent ≤ 104
  normal : m.exponent = -149 ∨ 2 ^ 23 ≤ m.significand
  narrow : m.significand = 2 ^ 23 → -149 < m.exponent → m.narrowBelow = true

/-- The bits of a finite number without the sign: the significand, its hidden bit carried into the
exponent field. -/
def bits (m : Magnitude) : ℕ := (m.exponent + 149).toNat * 2 ^ 23 + m.significand

variable {m : Magnitude} {q : ℚ}

theorem IsSingle.bits_lt (single : m.IsSingle) : m.bits < 0x7f800000 := by
  have := single.fits
  have := single.greatest
  have small : (m.exponent + 149).toNat ≤ 253 := by omega
  unfold bits
  omega

theorem reach_le (m : Magnitude) : m.reach ≤ 1 / 2 := by
  unfold reach
  split <;> norm_num

theorem reach_pos (m : Magnitude) : 0 < m.reach := by
  unfold reach
  split <;> norm_num

theorem Covers.le (covers : m.Covers q) : (m.significand - m.reach) * 2 ^ m.exponent ≤ q
    ∧ q ≤ (m.significand + 1 / 2) * 2 ^ m.exponent := by
  unfold Covers at covers
  split at covers
  · exact covers
  · exact ⟨covers.1.le, covers.2.le⟩

/-- What rounds to a number has it as the nearest whole number of its last binary places. -/
theorem Covers.isNearest (covers : m.Covers q) : IsNearest m.significand (q / 2 ^ m.exponent) := by
  have unit : (0 : ℚ) < 2 ^ m.exponent := by positivity
  have reach := m.reach_le
  unfold Covers at covers
  unfold IsNearest
  rw [le_div_iff₀ unit, div_le_iff₀ unit, lt_div_iff₀ unit, div_lt_iff₀ unit]
  have wider : (m.significand - 1 / 2) * 2 ^ m.exponent
      ≤ (m.significand - m.reach) * (2 : ℚ) ^ m.exponent :=
    mul_le_mul_of_nonneg_right (by linarith) unit.le
  split at covers
  next even =>
    rw [if_pos even]
    exact ⟨wider.trans covers.1, covers.2⟩
  next odd =>
    rw [if_neg odd]
    exact ⟨wider.trans_lt covers.1, covers.2⟩

/-- The number itself rounds to it. -/
theorem covers_self (m : Magnitude) : m.Covers (m.significand * 2 ^ m.exponent) := by
  have unit : (0 : ℚ) < 2 ^ m.exponent := by positivity
  have low : ((m.significand : ℚ) - m.reach) * 2 ^ m.exponent < m.significand * 2 ^ m.exponent :=
    mul_lt_mul_of_pos_right (sub_lt_self _ m.reach_pos) unit
  have high : (m.significand : ℚ) * 2 ^ m.exponent < (m.significand + 1 / 2) * 2 ^ m.exponent :=
    mul_lt_mul_of_pos_right (by linarith) unit
  unfold Covers
  split
  · exact ⟨low.le, high.le⟩
  · exact ⟨low, high⟩

/-- Bounds of all that rounds to a number other than zero. -/
theorem IsSingle.bounds (single : m.IsSingle) (nonzero : m.significand ≠ 0)
    (covers : m.Covers q) : (10 : ℚ) ^ (-46 : ℤ) < q ∧ q < 10 ^ (39 : ℤ) := by
  have reach := m.reach_le
  have one : (1 : ℚ) ≤ m.significand := by exact_mod_cast Nat.pos_of_ne_zero nonzero
  have fits : (m.significand : ℚ) + 1 / 2 < 2 ^ 24 := by
    have : (m.significand : ℚ) + 1 ≤ 2 ^ 24 := by exact_mod_cast single.fits
    linarith
  have unit : (0 : ℚ) < 2 ^ m.exponent := by positivity
  constructor
  · calc (10 : ℚ) ^ (-46 : ℤ) < 1 / 2 * 2 ^ (-149 : ℤ) := by norm_num
      _ ≤ 1 / 2 * 2 ^ m.exponent :=
        mul_le_mul_of_nonneg_left (zpow_le_zpow_right₀ one_le_two single.least) (by norm_num)
      _ ≤ (m.significand - m.reach) * 2 ^ m.exponent :=
        mul_le_mul_of_nonneg_right (by linarith) unit.le
      _ ≤ q := covers.le.1
  · calc q ≤ (m.significand + 1 / 2) * 2 ^ m.exponent := covers.le.2
      _ ≤ 2 ^ 24 * 2 ^ m.exponent := mul_le_mul_of_nonneg_right fits.le unit.le
      _ ≤ 2 ^ 24 * 2 ^ (104 : ℤ) :=
        mul_le_mul_of_nonneg_left (zpow_le_zpow_right₀ one_le_two single.greatest) (by norm_num)
      _ < 10 ^ (39 : ℤ) := by norm_num

/-- In units of the last place that a single can have at the size of `q`, the nearest whole number
makes the bits of the single that `q` rounds to. -/
theorem IsSingle.exists_nearest (single : m.IsSingle) (covers : m.Covers q) {top : ℤ}
    (low : (2 : ℚ) ^ top ≤ q) (high : q < 2 ^ (top + 1)) :
    ∃ n, IsNearest n (q / 2 ^ max (top - 23) (-149))
      ∧ (max (top - 23) (-149) + 149).toNat * 2 ^ 23 + n = m.bits := by
  have unit : (0 : ℚ) < 2 ^ m.exponent := by positivity
  have fits : (m.significand : ℚ) + 1 ≤ 2 ^ 24 := by exact_mod_cast single.fits
  have below : q < 2 ^ (m.exponent + 24) := by
    calc q ≤ (m.significand + 1 / 2) * 2 ^ m.exponent := covers.le.2
      _ < 2 ^ 24 * 2 ^ m.exponent := mul_lt_mul_of_pos_right (by linarith) unit
      _ = 2 ^ (m.exponent + 24) := by
        rw [zpow_add₀ two_ne_zero, mul_comm]
        norm_num
  have top_lt : top < m.exponent + 24 :=
    (zpow_lt_zpow_iff_right₀ (one_lt_two : (1 : ℚ) < 2)).mp (low.trans_lt below)
  by_cases plain : m.exponent = -149 ∨ (2 : ℚ) ^ (m.exponent + 23) ≤ q
  · -- the unit is the last place of the number itself
    have same : max (top - 23) (-149) = m.exponent := by
      rcases plain with least | above
      · omega
      · have : m.exponent + 23 < top + 1 :=
          (zpow_lt_zpow_iff_right₀ (one_lt_two : (1 : ℚ) < 2)).mp (above.trans_lt high)
        have := single.least
        omega
    rw [same]
    exact ⟨m.significand, covers.isNearest, rfl⟩
  · -- just below a power of two, where the last place is half as large
    obtain ⟨notLeast, under⟩ := not_or.mp plain
    have under := lt_of_not_ge under
    have least := lt_of_le_of_ne single.least (Ne.symm notLeast)
    have normal := single.normal.resolve_left notLeast
    have normal' : (2 : ℚ) ^ 23 ≤ m.significand := by exact_mod_cast normal
    have above := covers.le.1
    have scaled : (2 : ℚ) ^ (m.exponent + 23) = 2 ^ 23 * 2 ^ m.exponent := by
      rw [zpow_add₀ two_ne_zero, mul_comm]
      norm_num
    rw [scaled] at under
    have near : (m.significand : ℚ) - m.reach < 2 ^ 23 :=
      lt_of_mul_lt_mul_right (above.trans_lt under) unit.le
    have power : m.significand = 2 ^ 23 := by
      have reach := m.reach_le
      have : (m.significand : ℚ) < 2 ^ 23 + 1 := by linarith
      have : m.significand < 2 ^ 23 + 1 := by exact_mod_cast this
      omega
    have power' : (m.significand : ℚ) = 2 ^ 23 := by exact_mod_cast power
    have quarter : m.reach = 1 / 4 := if_pos (single.narrow power least)
    have halved : (2 : ℚ) ^ m.exponent = 2 * 2 ^ (m.exponent - 1) := by
      rw [zpow_sub_one₀ two_ne_zero]
      ring
    have place : top = m.exponent + 22 := by
      refine place_unique low high ?_ (lt_of_lt_of_eq under ?_)
      · calc (2 : ℚ) ^ (m.exponent + 22) = 2 ^ 22 * 2 ^ m.exponent := by
              rw [zpow_add₀ two_ne_zero, mul_comm]
              norm_num
          _ ≤ (m.significand - m.reach) * 2 ^ m.exponent := by
              refine mul_le_mul_of_nonneg_right ?_ unit.le
              rw [power', quarter]
              norm_num
          _ ≤ q := above
      · rw [← scaled]
        ring_nf
    have same : max (top - 23) (-149) = m.exponent - 1 := by omega
    rw [same]
    refine ⟨2 ^ 24, ?_, ?_⟩
    · have unit' : (0 : ℚ) < 2 ^ (m.exponent - 1) := by positivity
      rw [IsNearest, if_pos (by norm_num), le_div_iff₀ unit', div_le_iff₀ unit']
      rw [power', quarter, halved] at above
      rw [halved] at under
      push_cast
      constructor <;> linarith
    · unfold bits
      omega

end Magnitude

/-! ## Reading -/

/-- The binary place of the leading bit of a quotient. -/
def leadingPlace (N D : ℕ) : ℤ :=
  let estimate : ℤ := (Nat.log2 N : ℤ) - Nat.log2 D
  if D * twoTo estimate.toNat ≤ N * twoTo (-estimate).toNat then estimate else estimate - 1

/-- A quotient compared with a power of two, without fractions. -/
theorem pow_le_div_iff {N D : ℕ} (positive : 0 < D) (e : ℤ) :
    (2 : ℚ) ^ e ≤ N / D ↔ D * twoTo e.toNat ≤ N * twoTo (-e).toNat := by
  have positive' : (0 : ℚ) < D := Nat.cast_pos.mpr positive
  have power : (0 : ℚ) < 2 ^ (-e).toNat := by positivity
  rw [zpow_eq_div two_ne_zero, div_le_div_iff₀ power positive', mul_comm]
  rw [← cast_twoTo, ← cast_twoTo]
  exact_mod_cast Iff.rfl

theorem leadingPlace_spec {N D : ℕ} (numerator : N ≠ 0) (denominator : D ≠ 0) :
    (2 : ℚ) ^ leadingPlace N D ≤ N / D ∧ (N : ℚ) / D < 2 ^ (leadingPlace N D + 1) := by
  have positive := Nat.pos_of_ne_zero denominator
  have positive' : (0 : ℚ) < D := Nat.cast_pos.mpr positive
  have lowN : (2 : ℚ) ^ N.log2 ≤ N := by exact_mod_cast Nat.log2_self_le numerator
  have highN : (N : ℚ) < 2 ^ (N.log2 + 1) := by exact_mod_cast Nat.lt_log2_self
  have lowD : (2 : ℚ) ^ D.log2 ≤ D := by exact_mod_cast Nat.log2_self_le denominator
  have highD : (D : ℚ) < 2 ^ (D.log2 + 1) := by exact_mod_cast Nat.lt_log2_self
  have high : (N : ℚ) / D < 2 ^ ((N.log2 : ℤ) - D.log2 + 1) := by
    rw [div_lt_iff₀ positive']
    calc (N : ℚ) < 2 ^ (N.log2 + 1) := highN
      _ = 2 ^ ((N.log2 : ℤ) - D.log2 + 1) * 2 ^ D.log2 := by
        rw [← zpow_natCast, ← zpow_natCast, ← zpow_add₀ two_ne_zero]
        congr 1
        push_cast
        ring
      _ ≤ 2 ^ ((N.log2 : ℤ) - D.log2 + 1) * D := mul_le_mul_of_nonneg_left lowD (by positivity)
  have low : (2 : ℚ) ^ ((N.log2 : ℤ) - D.log2 - 1) ≤ N / D := by
    rw [le_div_iff₀ positive']
    calc (2 : ℚ) ^ ((N.log2 : ℤ) - D.log2 - 1) * D
        ≤ 2 ^ ((N.log2 : ℤ) - D.log2 - 1) * 2 ^ (D.log2 + 1) :=
          mul_le_mul_of_nonneg_left highD.le (by positivity)
      _ = 2 ^ N.log2 := by
        rw [← zpow_natCast, ← zpow_natCast, ← zpow_add₀ two_ne_zero]
        congr 1
        push_cast
        ring
      _ ≤ N := lowN
  unfold leadingPlace
  dsimp only
  split
  next reached => exact ⟨(pow_le_div_iff positive _).mpr reached, high⟩
  next short =>
    refine ⟨low, ?_⟩
    rw [sub_add_cancel]
    exact lt_of_not_ge fun reached => short ((pow_le_div_iff positive _).mp reached)

/-- A quotient counted in units of a power of two, without fractions. -/
theorem div_pow_eq (N D : ℕ) (e : ℤ) :
    (N / D : ℚ) / 2 ^ e = (N * twoTo (-e).toNat : ℕ) / (D * twoTo e.toNat : ℕ) := by
  rw [zpow_eq_div two_ne_zero]
  push_cast
  rw [cast_twoTo, cast_twoTo, div_div_div_eq]

/-- The number that digits at a place stand for, as the quotient that is rounded. -/
theorem quotient_eq (digits : ℕ) (place : ℤ) :
    ((digits * tenTo place.toNat : ℕ) : ℚ) / (tenTo (-place).toNat : ℕ)
      = digits * 10 ^ place := by
  rw [zpow_eq_div (by norm_num)]
  push_cast
  rw [cast_tenTo, cast_tenTo, mul_div_assoc]

/-- The decimal place of a number's leading digit lies just above it. -/
theorem leading_bounds {digits : ℕ} (nonzero : digits ≠ 0) (place : ℤ) :
    (10 : ℚ) ^ (place + (toString digits).length - 1) ≤ digits * 10 ^ place
      ∧ digits * 10 ^ place < (10 : ℚ) ^ (place + (toString digits).length) := by
  have unit : (0 : ℚ) < 10 ^ place := by positivity
  have ten : (10 : ℚ) ≠ 0 := by norm_num
  have length : 0 < (toString digits).length := Nat.length_repr_pos
  have high : digits < 10 ^ (toString digits).length :=
    (Nat.length_repr_le_iff length).mp le_rfl
  have low : 10 ^ ((toString digits).length - 1) ≤ digits := by
    rcases Nat.eq_or_lt_of_le (Nat.succ_le_of_lt length) with single | several
    · rw [← single]
      exact Nat.pos_of_ne_zero nonzero
    · by_contra short
      have := (Nat.length_repr_le_iff (Nat.sub_pos_of_lt several)).mpr (Nat.lt_of_not_le short)
      have : (toString digits).length ≤ (toString digits).length - 1 := this
      omega
  constructor
  · calc (10 : ℚ) ^ (place + (toString digits).length - 1)
        = ((10 ^ ((toString digits).length - 1) : ℕ) : ℚ) * 10 ^ place := by
          push_cast
          rw [← zpow_natCast, ← zpow_add₀ ten, Nat.cast_sub length]
          congr 1
          push_cast
          ring
      _ ≤ digits * 10 ^ place := mul_le_mul_of_nonneg_right (by exact_mod_cast low) unit.le
  · calc (digits : ℚ) * 10 ^ place
        < ((10 ^ (toString digits).length : ℕ) : ℚ) * 10 ^ place :=
          mul_lt_mul_of_pos_right (by exact_mod_cast high) unit
      _ = 10 ^ (place + (toString digits).length) := by
          push_cast
          rw [← zpow_natCast, ← zpow_add₀ ten, add_comm]

/-- The bits that a quotient is rounded to, whether or not they are those of a finite number. -/
def roundedBits (N D : ℕ) : ℕ :=
  let unit : ℤ := max (leadingPlace N D - 23) (-149)
  (unit + 149).toNat * twoTo 23 + roundHalfEven (N * twoTo (-unit).toNat) (D * twoTo unit.toNat)

theorem roundedBits_eq {N D : ℕ} (numerator : N ≠ 0) (denominator : D ≠ 0) {m : Magnitude}
    (single : m.IsSingle) (covers : m.Covers (N / D)) : roundedBits N D = m.bits := by
  obtain ⟨low, high⟩ := leadingPlace_spec numerator denominator
  obtain ⟨n, near, sum⟩ := single.exists_nearest covers low high
  rw [div_pow_eq] at near
  unfold roundedBits
  dsimp only
  rw [roundHalfEven_eq (Nat.mul_pos (Nat.pos_of_ne_zero denominator) (twoTo_pos _)) near]
  exact sum

theorem nearest_eq (digits : ℕ) (place : ℤ) : nearest digits place =
    if digits = 0 then 0
    else if 60 < place + (toString digits).length then Float32.ofBits 0x7f800000
    else if place + (toString digits).length < -60 then 0
    else
      let bits := roundedBits (digits * tenTo place.toNat) (tenTo (-place).toNat)
      if 0x7f800000 ≤ bits then Float32.ofBits 0x7f800000
      else Float32.ofBits (UInt32.ofNat bits) := rfl

/-- A decimal that rounds to a single is read as this single. -/
theorem nearest_of_covers {m : Magnitude} (single : m.IsSingle) (nonzero : m.significand ≠ 0)
    {digits : ℕ} {place : ℤ} (covers : m.Covers (digits * 10 ^ place)) :
    nearest digits place = Float32.ofBits (UInt32.ofNat m.bits) := by
  obtain ⟨above, below⟩ := single.bounds nonzero covers
  have some : digits ≠ 0 := by
    rintro rfl
    rw [Nat.cast_zero, zero_mul] at above
    exact absurd above (not_lt_of_ge (by positivity))
  obtain ⟨first, last⟩ := leading_bounds some place
  have ten : (1 : ℚ) < 10 := by norm_num
  have small : ¬ 60 < place + (toString digits).length := by
    have := (zpow_lt_zpow_iff_right₀ ten).mp (first.trans_lt below)
    omega
  have large : ¬ place + (toString digits).length < -60 := by
    have := (zpow_lt_zpow_iff_right₀ ten).mp (above.trans last)
    omega
  have bits : roundedBits (digits * tenTo place.toNat) (tenTo (-place).toNat) = m.bits :=
    roundedBits_eq (Nat.mul_ne_zero some (tenTo_pos _).ne') (tenTo_pos _).ne' single
      ((quotient_eq digits place).symm ▸ covers)
  rw [nearest_eq, if_neg some, if_neg small, if_neg large, bits]
  exact if_neg (Nat.not_le_of_lt single.bits_lt)

end LayerNet.Decimal
