import DocQuery.Number.Decimal
import DocQuery.Proofs.Number.Bounds

/-!
# Decimals are rounded once

A decimal far out of the range of a format is answered by its size alone. The answer is the one that
rounding its exact value gives, so that reading a decimal is rounding it once.

## Key results

- `Decimal.digitsValue_append`: digits behind others move these up by as many places
- `Decimal.spanDigits_append`: a run of digits ends where something else follows
- `Decimal.toBinary_eq_roundMagnitude`: reading a decimal is rounding its exact magnitude
-/

namespace DocQuery

namespace Binary

variable {F : Format} {q : Rat}

/-! ## Magnitudes out of range -/

/-- `toEven` takes a number below a half to zero. -/
private theorem toEven_eq_zero (hq : 0 ≤ q) (h : q < 1 / 2) : Rounding.toEven q = 0 := by
  have hfloor : q.floor = 0 := by
    have hlow : 0 ≤ q.floor := Rat.le_floor_iff.mpr hq
    have hhigh : (q.floor : Rat) < 1 := (Rat.floor_le q).trans_lt (by linarith)
    have : q.floor < 1 := by exact_mod_cast hhigh
    omega
  simp only [Rounding.toEven, hfloor, Int.cast_zero, sub_zero, if_pos h]

/-- A magnitude below half the least number, which is `2 ^ F.minExp`, rounds to zero. -/
theorem roundMagnitude_of_tiny (hq : 0 ≤ q) (h : q < 2 ^ (F.minExp - 1)) (negative : Bool) :
    (roundMagnitude negative q : Binary F) = roundMagnitude negative 0 := by
  by_cases hzero : q = 0
  · rw [hzero]
  · -- The exponent of rounding is the least one, and with it less than a half is left.
    have hpos : 0 < q := lt_of_le_of_ne hq (Ne.symm hzero)
    have hlog : Rounding.log2 q < F.minExp - 1 :=
      (zpow_lt_zpow_iff_right₀ (by norm_num : (1 : Rat) < 2)).mp
        ((Rounding.log2_spec hpos).1.trans_lt h)
    have hexp : max F.minExp (Rounding.log2 q - (F.precision - 1)) = F.minExp :=
      max_eq_left (by omega)
    have hhalf : q / 2 ^ F.minExp < 1 / 2 := by
      rw [zpow_sub_one₀ (by norm_num)] at h
      rw [div_lt_iff₀ (by positivity)]
      linarith
    simp only [roundMagnitude, hzero, if_false, if_true, hexp, zero_div,
      toEven_eq_zero (by positivity) hhalf, toEven_eq_zero (le_refl (0 : Rat)) (by norm_num)]

/-- A magnitude of at least `2 ^ (F.maxExp + F.precision)`, which is past the greatest number,
    rounds to infinity. -/
theorem roundMagnitude_of_huge (h : 2 ^ (F.maxExp + F.precision) ≤ q) (negative : Bool) :
    (roundMagnitude negative q : Binary F) = infinity negative := by
  have hpos : 0 < q := lt_of_lt_of_le (by positivity) h
  have hlog : F.maxExp + F.precision < Rounding.log2 q + 1 :=
    (zpow_lt_zpow_iff_right₀ (by norm_num : (1 : Rat) < 2)).mp
      (h.trans_lt (Rounding.log2_spec hpos).2)
  -- The exponent of rounding is past the greatest one already.
  have hexp : F.maxExp < max F.minExp (Rounding.log2 q - (F.precision - 1)) := by omega
  simp only [roundMagnitude, hpos.ne', if_false, ofParts]
  -- So is the next one, where the mantissa is rounded up to a power of two.
  split
  · rw [dif_neg]
    rintro ⟨-, -, hle, -⟩
    omega
  · rw [dif_neg]
    rintro ⟨-, -, hle, -⟩
    omega

end Binary

namespace Decimal

variable {F : Format}

/-- `round` of the exact value `toRat` of a decimal is `roundMagnitude` under its sign. -/
theorem round_toRat (d : Decimal) :
    (Binary.round d.negative d.toRat : Binary F) =
      Binary.roundMagnitude d.negative (d.digits * 10 ^ d.exp) := by
  have hnonneg : (0 : Rat) ≤ d.digits * 10 ^ d.exp := by positivity
  by_cases hzero : (d.digits : Rat) * 10 ^ d.exp = 0
  · -- The sign of a zero is that of the decimal.
    simp [Binary.round, toRat, hzero]
  · have hpos : (0 : Rat) < d.digits * 10 ^ d.exp := lt_of_le_of_ne hnonneg (Ne.symm hzero)
    cases hnegative : d.negative
    · simp [Binary.round, toRat, hnegative, hzero, hnonneg.not_gt, Rat.abs_of_nonneg hnonneg]
    · simp [Binary.round, toRat, hnegative, hzero, hpos, Rat.abs_neg, Rat.abs_of_nonneg hnonneg]

/-- The size of a decimal, its `digitCount` and exponent, places its magnitude between two
    neighbouring powers of ten. -/
theorem size_spec {d : Decimal} (h : d.digits ≠ 0) :
    (10 : Rat) ^ (Rounding.digitCount d.digits + d.exp - 1) ≤ d.digits * 10 ^ d.exp ∧
      (d.digits : Rat) * 10 ^ d.exp < 10 ^ (Rounding.digitCount d.digits + d.exp) := by
  obtain ⟨hlow, hhigh⟩ := Rounding.digitCount_spec h
  -- The bounds on the count of digits, between rationals.
  have hlow : (10 : Rat) ^ Rounding.digitCount d.digits ≤ 10 * d.digits := by exact_mod_cast hlow
  have hhigh : (d.digits : Rat) < 10 ^ Rounding.digitCount d.digits := by exact_mod_cast hhigh
  have hpow : (0 : Rat) < 10 ^ d.exp := by positivity
  rw [zpow_sub₀ (by norm_num), zpow_add₀ (by norm_num), zpow_natCast, zpow_one]
  constructor
  · rw [div_le_iff₀ (by norm_num)]
    nlinarith
  · gcongr

private theorem ten_zpow (n : Int) : (10 : Rat) ^ n = 2 ^ n * 5 ^ n := by
  rw [← mul_zpow]
  norm_num

/-- A decimal of a size below a negative exponent is below `2 ^ n` with the exponent. -/
private theorem lt_of_size_lt {d : Decimal} (h : d.digits ≠ 0) {n : Int} (hn : n ≤ 0)
    (hsize : Rounding.digitCount d.digits + d.exp < n) :
    (d.digits : Rat) * 10 ^ d.exp < 2 ^ n := by
  -- For a nonpositive exponent a power of ten lies below the same power of two.
  have hfive : (5 : Rat) ^ n ≤ 1 := zpow_le_one_of_nonpos₀ (by norm_num) hn
  calc (d.digits : Rat) * 10 ^ d.exp < 10 ^ (Rounding.digitCount d.digits + d.exp) :=
        (size_spec h).2
    _ ≤ 10 ^ n := zpow_le_zpow_right₀ (by norm_num) hsize.le
    _ ≤ 2 ^ n := by
      rw [ten_zpow]
      exact mul_le_of_le_one_right (by positivity) hfive

/-- A decimal of a size above an exponent is at least `2 ^ n` with the exponent. -/
private theorem le_of_lt_size {d : Decimal} (h : d.digits ≠ 0) {n : Int} (hn : 0 ≤ n)
    (hsize : n < Rounding.digitCount d.digits + d.exp) :
    (2 : Rat) ^ n ≤ d.digits * 10 ^ d.exp := by
  have hfive : (1 : Rat) ≤ 5 ^ n := one_le_zpow₀ (by norm_num) hn
  calc (2 : Rat) ^ n ≤ 10 ^ n := by
        rw [ten_zpow]
        exact le_mul_of_one_le_right (by positivity) hfive
    _ ≤ 10 ^ (Rounding.digitCount d.digits + d.exp - 1) :=
      zpow_le_zpow_right₀ (by norm_num) (by omega)
    _ ≤ d.digits * 10 ^ d.exp := (size_spec h).1

/-- `toBinary` rounds the exact magnitude of a decimal once, though it never computes those far out
    of range. -/
theorem toBinary_eq_roundMagnitude (hmin : F.minExp ≤ 0) (hmax : 0 ≤ F.maxExp) (d : Decimal) :
    (d.toBinary : Binary F) = Binary.roundMagnitude d.negative (d.digits * 10 ^ d.exp) := by
  have hzero : (Binary.zero d.negative : Binary F) = Binary.roundMagnitude d.negative 0 := by
    simp [Binary.zero, Binary.round]
  by_cases hdigits : d.digits = 0
  · rw [toBinary, if_pos (Or.inl hdigits), hzero, hdigits, Nat.cast_zero, zero_mul]
  · simp only [toBinary, hdigits, false_or]
    split_ifs with hsmall hlarge
    · -- A size below the range is answered by zero, as the magnitude rounds to it.
      have htiny := lt_of_size_lt hdigits (by omega) hsmall
      rw [hzero, Binary.roundMagnitude_of_tiny (by positivity) htiny]
    · -- A size above the range is answered by infinity.
      have hhuge := le_of_lt_size hdigits (n := F.maxExp + F.precision) (by omega) (by omega)
      rw [Binary.roundMagnitude_of_huge hhuge]
    · exact round_toRat d

/-! ## Strings of digits -/

/-- `digitsValue` is `Nat.ofDigitChars` of the library, for its lemmas. -/
theorem digitsValue_eq_ofDigitChars (cs : List Char) : digitsValue cs = Nat.ofDigitChars 10 cs 0 :=
  Nat.ofDigitChars_eq_foldl.symm

/-- Digits behind others move these up by as many places. -/
theorem digitsValue_append (cs ds : List Char) :
    digitsValue (cs ++ ds) = digitsValue cs * 10 ^ ds.length + digitsValue ds := by
  simp only [digitsValue_eq_ofDigitChars, Nat.ofDigitChars_append]
  rw [Nat.ofDigitChars_eq_ofDigitChars_zero, mul_comm]

theorem digitsValue_zeros (n : Nat) : digitsValue (List.replicate n '0') = 0 := by
  rw [digitsValue_eq_ofDigitChars, Nat.ofDigitChars_replicate_zero, mul_zero]

theorem digitsValue_toDigits (n : Nat) : digitsValue (Nat.toDigits 10 n) = n := by
  rw [digitsValue_eq_ofDigitChars, Nat.ofDigitChars_ten_toDigits]

/-- `spanDigits` ends a run of digits where something else follows. -/
theorem spanDigits_append {ds rest : List Char} (hdigits : ∀ c ∈ ds, c.isDigit = true)
    (hrest : ∀ c ∈ rest.head?, c.isDigit = false) : spanDigits (ds ++ rest) = (ds, rest) := by
  rw [spanDigits, List.span_eq_takeWhile_dropWhile, List.takeWhile_append_of_pos hdigits,
    List.dropWhile_append_of_pos hdigits]
  cases rest with
  | nil => simp
  | cons c rest => simp [hrest c rfl]

end Decimal

end DocQuery
