import Mathlib
import DocQuery.Number.Arithmetic

/-!
# Numbers that rounding keeps

A number that a format has is its own rounding. This file shows it from the binary logarithm up and
draws the consequences that codecs and wire forms rest on.

## Key results

- `Rounding.log2_spec`, `Rounding.log10_spec`: a logarithm lies between two neighbouring powers
- `Binary.canonical_unique`: a finite number is written in one way only
- `Binary.round_exact`: a finite number is the rounding of its exact value
- `Binary.toRat?_ofInt`: whole numbers up to `2 ^ 53` are kept exactly
- `Binary.ofInt_of_toRat?`: a whole number comes back from its integer without the sign of a zero
- `Binary.convert_convert`: a number of the narrow format comes back from the wide one
-/

namespace DocQuery

namespace Rounding

/-! ## Roundings of exact numbers -/

/-- `toEven` keeps integers. -/
theorem toEven_intCast (n : Int) : toEven (n : Rat) = n := by
  have hfloor : (n : Rat).floor = n := Rat.floor_intCast n
  simp only [toEven, hfloor, sub_self]
  norm_num

/-- The lengths of its numerator and denominator to a base place a number between two powers of the
    base. -/
private theorem length_bounds {base : Nat} (hbase : 1 < base) {q : Rat} (hq : 0 < q) {i j : Nat}
    (hnum : base ^ i ≤ base * q.num.toNat ∧ q.num.toNat < base ^ i)
    (hden : base ^ j ≤ base * q.den ∧ q.den < base ^ j) :
    (base : Rat) ^ ((i : Int) - j - 1) < q ∧ q < base ^ ((i : Int) - j + 1) := by
  have hcast : (q.num.toNat : Rat) = q.num := by
    exact_mod_cast Int.toNat_of_nonneg (Rat.num_pos.mpr hq).le
  have hval : q * q.den = q.num.toNat := by rw [hcast]; exact Rat.mul_den_eq_num q
  have hnumlo : (base : Rat) ^ i ≤ base * q.num.toNat := by exact_mod_cast hnum.1
  have hnumhi : (q.num.toNat : Rat) < base ^ i := by exact_mod_cast hnum.2
  have hdenlo : (base : Rat) ^ j ≤ base * q.den := by exact_mod_cast hden.1
  have hdenhi : (q.den : Rat) < base ^ j := by exact_mod_cast hden.2
  have hpos : (0 : Rat) < base := by exact_mod_cast zero_lt_one.trans hbase
  constructor
  · -- From below: the least numerator of its length over a denominator that is too great.
    have hpow : (base : Rat) ^ ((i : Int) - j - 1) = base ^ i / (base ^ j * base) := by
      rw [sub_sub, zpow_sub₀ hpos.ne', zpow_add_one₀ hpos.ne', zpow_natCast, zpow_natCast]
    rw [hpow, div_lt_iff₀ (by positivity)]
    calc (base : Rat) ^ i ≤ q * q.den * base := by rw [hval, mul_comm]; exact hnumlo
      _ < q * base ^ j * base := by gcongr
      _ = q * (base ^ j * base) := mul_assoc ..
  · -- From above: a numerator that is too great over the least denominator of its length.
    have hpow : (base : Rat) ^ ((i : Int) - j + 1) = base ^ i * base / base ^ j := by
      rw [sub_add_eq_add_sub, zpow_sub₀ hpos.ne', zpow_add_one₀ hpos.ne', zpow_natCast,
        zpow_natCast]
    rw [hpow, lt_div_iff₀ (by positivity)]
    calc q * base ^ j ≤ q * (base * q.den) := by gcongr
      _ = q.num.toNat * base := by rw [← hval]; ring
      _ < base ^ i * base := by gcongr

/-- Of two neighbouring exponents the greater is taken where its power is not above the number. -/
private theorem exponent_spec {base q : Rat} {guess : Int}
    (h : base ^ (guess - 1) < q ∧ q < base ^ (guess + 1)) :
    base ^ (if base ^ guess ≤ q then guess else guess - 1) ≤ q ∧
      q < base ^ ((if base ^ guess ≤ q then guess else guess - 1) + 1) := by
  split
  · rename_i hle
    exact ⟨hle, h.2⟩
  · rename_i hlt
    rw [sub_add_cancel]
    exact ⟨h.1.le, not_le.mp hlt⟩

/-- `log2` of a number is the exponent of the power of two at or below it. -/
theorem log2_spec {q : Rat} (hq : 0 < q) : (2 : Rat) ^ log2 q ≤ q ∧ q < 2 ^ (log2 q + 1) := by
  have hlength (n : Nat) (hn : n ≠ 0) :
      2 ^ (n.log2 + 1) ≤ 2 * n ∧ n < 2 ^ (n.log2 + 1) := by
    rw [pow_succ']
    exact ⟨Nat.mul_le_mul_left 2 (Nat.log2_self_le hn), pow_succ' 2 n.log2 ▸ Nat.lt_log2_self⟩
  have hnum : q.num.toNat ≠ 0 := by
    have := Rat.num_pos.mpr hq
    omega
  have hbounds := length_bounds Nat.one_lt_two hq (hlength _ hnum) (hlength _ q.den_nz)
  push_cast at hbounds
  rw [add_sub_add_right_eq_sub] at hbounds
  exact exponent_spec hbounds

/-- `digitCount` is the length of the list `Nat.digits`. -/
private theorem digitCount_eq_length (n : Nat) : digitCount n = (Nat.digits 10 n).length := by
  induction n using Nat.strongRecOn with
  | ind n ih =>
    unfold digitCount
    split
    · rename_i hn
      simp [hn]
    · rename_i hn
      rw [ih (n / 10) (by omega), Nat.digits_def' (n := n) (by omega) (by omega),
        List.length_cons]

/-- `digitCount` of a number is the exponent of the power of ten above it. -/
theorem digitCount_spec {n : Nat} (h : n ≠ 0) :
    10 ^ digitCount n ≤ 10 * n ∧ n < 10 ^ digitCount n := by
  rw [digitCount_eq_length]
  exact ⟨Nat.base_pow_length_digits_le 10 n (by omega) h,
    Nat.lt_base_pow_length_digits (by omega)⟩

/-- `log10` of a number is the exponent of the power of ten at or below it. -/
theorem log10_spec {q : Rat} (hq : 0 < q) :
    (10 : Rat) ^ log10 q ≤ q ∧ q < 10 ^ (log10 q + 1) := by
  have hnum : q.num.toNat ≠ 0 := by
    have := Rat.num_pos.mpr hq
    omega
  have hten : 1 < 10 := by omega
  -- As for `log2_spec`, with lengths in decimal digits.
  exact exponent_spec
    (length_bounds hten hq (digitCount_spec hnum) (digitCount_spec q.den_nz))

end Rounding

namespace Format

/-! ## Formats and what they have -/

/-- What every format needs: a bit to keep and an exponent to give it. -/
structure Valid (F : Format) : Prop where
  precision_pos : 0 < F.precision
  minExp_le_maxExp : F.minExp ≤ F.maxExp

theorem double_valid : double.Valid := ⟨by decide, by decide⟩

theorem single_valid : single.Valid := ⟨by decide, by decide⟩

/-- The format has the number `q`, whose sign is kept apart: `q` is a mantissa that fits times
    `2 ^ exp` in its range. The mantissa need not be canonical. -/
def Keeps (F : Format) (q : Rat) : Prop :=
  ∃ (mant : Nat) (exp : Int), q = mant * 2 ^ exp ∧ mant < 2 ^ F.precision ∧
    F.minExp ≤ exp ∧ exp ≤ F.maxExp

/-- A valid format `Keeps` zero, with no mantissa at its least exponent. -/
theorem Valid.keeps_zero {F : Format} (hF : F.Valid) : F.Keeps 0 :=
  ⟨0, F.minExp, by simp, Nat.two_pow_pos _, le_refl _, hF.minExp_le_maxExp⟩

end Format

namespace Binary

variable {F : Format}

/-! ## Finite numbers and their exact values -/

/-- With the smaller exponent the number with the greater one would have one bit too many, so
    `Canonical` excludes it. -/
private theorem exp_not_lt (hF : F.Valid) {m n : Nat} {d e : Int} (hm : F.Canonical m d)
    (hn : F.Canonical n e) (h : (m : Rat) * 2 ^ d = n * 2 ^ e) : ¬ d < e := by
  intro hlt
  obtain ⟨hmlt, hdmin, -, -⟩ := hm
  obtain ⟨-, -, -, hlead⟩ := hn
  obtain ⟨k, hk⟩ : ∃ k : Nat, e = d + (k + 1) := ⟨(e - d - 1).toNat, by omega⟩
  have hmn : m = n * 2 ^ (k + 1) := by
    have hpos : (2 : Rat) ^ d ≠ 0 := by positivity
    rw [hk, zpow_add₀ (by norm_num)] at h
    have h' : (m : Rat) * 2 ^ d = n * 2 ^ (k + 1) * 2 ^ d := by
      rw [h]
      have : (2 : Rat) ^ ((k : Int) + 1) = 2 ^ (k + 1) := by norm_cast
      rw [this]; ring
    exact_mod_cast mul_right_cancel₀ hpos h'
  -- The exponent is not the least one, so the mantissa has its leading bit.
  have hnlead : 2 ^ (F.precision - 1) ≤ n := by
    cases hlead with
    | inl hle => exact hle
    | inr heq => omega
  have hbits : 2 ^ F.precision = 2 ^ (F.precision - 1) * 2 := by
    rw [← pow_succ]; congr 1; have := hF.precision_pos; omega
  have hstep : 2 ≤ 2 ^ (k + 1) := by rw [pow_succ]; have := Nat.one_le_two_pow (n := k); omega
  have hge : 2 ^ (F.precision - 1) * 2 ≤ n * 2 ^ (k + 1) := Nat.mul_le_mul hnlead hstep
  have hmlt' : m < 2 ^ F.precision := hmlt
  omega

/-- A finite number is written in one way only: `Canonical` determines mantissa and exponent. -/
theorem canonical_unique (hF : F.Valid) {m n : Nat} {d e : Int} (hm : F.Canonical m d)
    (hn : F.Canonical n e) (h : (m : Rat) * 2 ^ d = n * 2 ^ e) : m = n ∧ d = e := by
  -- Whichever exponent were the smaller, its mantissa would have a bit too many.
  have hde : d = e := by
    have h1 := exp_not_lt hF hm hn h
    have h2 := exp_not_lt hF hn hm h.symm
    omega
  subst hde
  have hpos : (2 : Rat) ^ d ≠ 0 := by positivity
  exact ⟨by exact_mod_cast mul_right_cancel₀ hpos h, rfl⟩

/-- A number of the format is written with an exponent from that of rounding on, given by `log2`. -/
theorem exponent_le {q : Rat} (hq : 0 < q) {mant : Nat} {exp : Int}
    (hval : q = mant * 2 ^ exp) (hmant : mant < 2 ^ F.precision) :
    Rounding.log2 q - (F.precision - 1) ≤ exp := by
  have hlo := (Rounding.log2_spec hq).1
  -- A mantissa within the precision leaves the leading digit at most `precision` places up.
  have hlt : (2 : Rat) ^ Rounding.log2 q < 2 ^ ((F.precision : Int) + exp) := by
    calc (2 : Rat) ^ Rounding.log2 q ≤ mant * 2 ^ exp := hval ▸ hlo
      _ < 2 ^ F.precision * 2 ^ exp := by gcongr; exact_mod_cast hmant
      _ = 2 ^ ((F.precision : Int) + exp) := by
        rw [zpow_add₀ (by norm_num), zpow_natCast]
  have := (zpow_lt_zpow_iff_right₀ (by norm_num : (1 : Rat) < 2)).mp hlt
  omega

/-- With an exponent from that of rounding on a mantissa fits the format. -/
theorem scaled_lt {q : Rat} (hq : 0 < q) {n : Nat} {e : Int} (hdiv : q / 2 ^ e = n)
    (he : Rounding.log2 q - (F.precision - 1) ≤ e) : n < 2 ^ F.precision := by
  have hlt : (n : Rat) < 2 ^ F.precision := by
    rw [← hdiv, div_lt_iff₀ (by positivity)]
    calc q < 2 ^ (Rounding.log2 q + 1) := (Rounding.log2_spec hq).2
      _ ≤ 2 ^ ((F.precision : Int) + e) := by
        apply zpow_le_zpow_right₀ (by norm_num)
        omega
      _ = 2 ^ F.precision * 2 ^ e := by rw [zpow_add₀ (by norm_num), zpow_natCast]
  exact_mod_cast hlt

/-- With the exponent of rounding a mantissa has its leading bit. -/
theorem le_scaled (hF : F.Valid) {q : Rat} (hq : 0 < q) {n : Nat} {e : Int}
    (hdiv : q / 2 ^ e = n) (he : e = Rounding.log2 q - (F.precision - 1)) :
    2 ^ (F.precision - 1) ≤ n := by
  have hp := hF.precision_pos
  have hle : (2 : Rat) ^ (F.precision - 1) ≤ n := by
    rw [← hdiv, le_div_iff₀ (by positivity), ← zpow_natCast, ← zpow_add₀ (by norm_num)]
    have hexact : ((F.precision - 1 : Nat) : Int) + e = Rounding.log2 q := by omega
    rw [hexact]
    exact (Rounding.log2_spec hq).1
  exact_mod_cast hle

/-- `roundMagnitude` keeps every number that the format `Keeps`. -/
theorem roundMagnitude_of_keeps (hF : F.Valid) {q : Rat} (hq : F.Keeps q) (negative : Bool) :
    ∃ (mant : Nat) (exp : Int) (h : F.Canonical mant exp),
      roundMagnitude negative q = finite negative mant exp h ∧ q = mant * 2 ^ exp := by
  obtain ⟨mant, exp, hval, hmant, hmin, hmax⟩ := hq
  -- Zero has no leading bit and is written with the least exponent.
  by_cases hzero : q = 0
  · have hcanonical : F.Canonical 0 F.minExp :=
      ⟨Nat.two_pow_pos _, le_refl _, hF.minExp_le_maxExp, Or.inr rfl⟩
    refine ⟨0, F.minExp, hcanonical, ?_, by simp [hzero]⟩
    have hround : Rounding.toEven 0 = 0 := Rounding.toEven_intCast 0
    simp [roundMagnitude, hzero, hround, ofParts, hcanonical]
  · have hpos : 0 < q := by
      have : 0 ≤ q := by rw [hval]; positivity
      exact lt_of_le_of_ne this (Ne.symm hzero)
    have hexp := exponent_le hpos hval hmant
    -- The exponent that `roundMagnitude` settles on.
    set e : Int := max F.minExp (Rounding.log2 q - (F.precision - 1)) with he
    have hle : e ≤ exp := max_le hmin hexp
    obtain ⟨k, hk⟩ : ∃ k : Nat, exp = e + k := ⟨(exp - e).toNat, by omega⟩
    -- With that exponent the number is whole, so that nothing is lost.
    have hscaled : q = ((mant * 2 ^ k : Nat) : Rat) * 2 ^ e := by
      rw [hval, hk, zpow_add₀ (by norm_num), zpow_natCast]
      push_cast
      ring
    have hdiv : q / 2 ^ e = ((mant * 2 ^ k : Nat) : Rat) := by
      rw [hscaled]; field_simp
    have hround : (Rounding.toEven (q / 2 ^ e)).toNat = mant * 2 ^ k := by
      rw [hdiv]
      have h := Rounding.toEven_intCast ((mant * 2 ^ k : Nat) : Int)
      rw [Int.cast_natCast] at h
      rw [h, Int.toNat_natCast]
    have hfits : mant * 2 ^ k < 2 ^ F.precision := scaled_lt hpos hdiv (le_max_right ..)
    -- Only with the least exponent the leading bit may be missing.
    have hlead : 2 ^ (F.precision - 1) ≤ mant * 2 ^ k ∨ e = F.minExp := by
      rcases max_choice F.minExp (Rounding.log2 q - (F.precision - 1)) with hc | hc
      · exact Or.inr (he.trans hc)
      · exact Or.inl (le_scaled hF hpos hdiv (he.trans hc))
    have hcanonical : F.Canonical (mant * 2 ^ k) e :=
      ⟨hfits, le_max_left _ _, hle.trans hmax, hlead⟩
    refine ⟨mant * 2 ^ k, e, hcanonical, ?_, hscaled⟩
    have hfits' : mant * 2 ^ k < Nat.pow 2 F.precision := hfits
    simp only [roundMagnitude, hzero, if_false, ← he, hround, hfits', if_true, ofParts,
      dif_pos hcanonical]

/-- A finite number has a magnitude that its format `Keeps`. -/
theorem keeps_of_canonical {mant : Nat} {exp : Int} (h : F.Canonical mant exp) :
    F.Keeps (mant * 2 ^ exp) :=
  ⟨mant, exp, rfl, h.1, h.2.1, h.2.2.1⟩

/-- The `exact` value of a finite number is zero only where its mantissa is. -/
theorem exact_eq_zero_iff {negative : Bool} {mant : Nat} {exp : Int} :
    exact negative mant exp = 0 ↔ mant = 0 := by
  have hpow : (2 : Rat) ^ exp ≠ 0 := by positivity
  cases negative <;> simp [exact, hpow]

/-- The magnitude of an `exact` value, whatever the sign. -/
theorem abs_exact (negative : Bool) (mant : Nat) (exp : Int) :
    (exact negative mant exp).abs = mant * 2 ^ exp := by
  have hnonneg : (0 : Rat) ≤ mant * 2 ^ exp := by positivity
  cases negative
  · exact Rat.abs_of_nonneg hnonneg
  · simp only [exact, if_true, Rat.abs_neg]
    exact Rat.abs_of_nonneg hnonneg

/-- Only finite numbers have a value under `toRat?`: the `exact` one of their parts. -/
theorem exists_finite_of_toRat? {x : Binary F} {q : Rat} (hx : x.toRat? = some q) :
    ∃ (negative : Bool) (mant : Nat) (exp : Int) (h : F.Canonical mant exp),
      x = finite negative mant exp h ∧ q = exact negative mant exp := by
  cases x with
  | finite negative mant exp h => exact ⟨negative, mant, exp, h, rfl, (Option.some.inj hx).symm⟩
  | _ => cases hx

/-- The exact value of `abs` is the magnitude of that of the number. -/
theorem toRat?_abs {x : Binary F} {q : Rat} (hx : x.toRat? = some q) :
    x.abs.toRat? = some q.abs := by
  obtain ⟨negative, mant, exp, h, rfl, rfl⟩ := exists_finite_of_toRat? hx
  rw [abs_exact]
  rfl

/-- The `exact` value of a number that is not zero is negative as its sign says. -/
theorem exact_neg_iff {negative : Bool} {mant : Nat} {exp : Int} (h : mant ≠ 0) :
    exact negative mant exp < 0 ↔ negative = true := by
  have hpos : (0 : Rat) < mant * 2 ^ exp := by positivity
  cases negative
  · simp [exact, hpos.le]
  · simp [exact, hpos]

/-- `round` of an `exact` value that the format has keeps the sign, that of a zero included, and the
    magnitude. -/
theorem round_exact_of_keeps (hF : F.Valid) (negative : Bool) {mant : Nat} {exp : Int}
    (h : F.Keeps (mant * 2 ^ exp)) :
    ∃ (m : Nat) (e : Int) (hme : F.Canonical m e),
      round negative (exact negative mant exp) = finite negative m e hme ∧
        (mant : Rat) * 2 ^ exp = m * 2 ^ e := by
  -- The sign is that of the value, or of the zero from outside, and here both are the same.
  have hsign : (if exact negative mant exp = 0 then negative
      else decide (exact negative mant exp < 0)) = negative := by
    by_cases hmant : mant = 0
    · rw [if_pos (exact_eq_zero_iff.mpr hmant)]
    · rw [if_neg (exact_eq_zero_iff.not.mpr hmant)]
      cases negative <;> simp [exact_neg_iff hmant]
  rw [round, hsign, abs_exact]
  exact roundMagnitude_of_keeps hF h negative

/-- A finite number is the `round` of its `exact` value. -/
theorem round_exact (hF : F.Valid) {negative : Bool} {mant : Nat} {exp : Int}
    (h : F.Canonical mant exp) :
    round negative (exact negative mant exp) = finite negative mant exp h := by
  obtain ⟨m, e, hme, hround, hval⟩ :=
    round_exact_of_keeps hF negative (keeps_of_canonical h)
  -- What is kept is written in one way only.
  obtain ⟨rfl, rfl⟩ := canonical_unique hF h hme hval
  exact hround

/-- Numbers of one sign and one magnitude have one `exact` value. -/
theorem exact_congr {negative : Bool} {m n : Nat} {d e : Int}
    (h : (m : Rat) * 2 ^ d = n * 2 ^ e) : exact negative m d = exact negative n e := by
  cases negative
  · exact h
  · exact congrArg Neg.neg h

/-- `round` gives a number of the format its own value. -/
theorem toRat?_round (hF : F.Valid) {q : Rat} (hq : F.Keeps q.abs) (negativeZero : Bool) :
    (round negativeZero q : Binary F).toRat? = some q := by
  obtain ⟨m, e, hme, hround, hval⟩ :=
    roundMagnitude_of_keeps hF hq (if q = 0 then negativeZero else decide (q < 0))
  rw [round, hround, toRat?, Option.some.injEq]
  -- The magnitude is exact; what is left is the sign, which a zero has from outside.
  by_cases hzero : q = 0
  · rw [hzero, if_pos rfl, exact_eq_zero_iff]
    have hprod : (m : Rat) * 2 ^ e = 0 := by rw [← hval, hzero]; rfl
    have hpow : (2 : Rat) ^ e ≠ 0 := by positivity
    exact_mod_cast (mul_eq_zero.mp hprod).resolve_right hpow
  · rw [if_neg hzero]
    by_cases hneg : q < 0
    · have : (m : Rat) * 2 ^ e = -q := by rw [← hval, Rat.abs_of_nonpos hneg.le]
      simp [exact, hneg, this]
    · have : (m : Rat) * 2 ^ e = q := by rw [← hval, Rat.abs_of_nonneg (not_lt.mp hneg)]
      simp [exact, hneg, this]

/-- A number is the exact value of some number of the format where the format `Keeps` its
    magnitude. -/
theorem exists_toRat?_eq_iff (hF : F.Valid) {q : Rat} :
    (∃ x : Binary F, x.toRat? = some q) ↔ F.Keeps q.abs := by
  constructor
  · rintro ⟨x, hx⟩
    obtain ⟨negative, mant, exp, h, rfl, rfl⟩ := exists_finite_of_toRat? hx
    rw [abs_exact]
    exact keeps_of_canonical h
  · exact fun h => ⟨round false q, toRat?_round hF h false⟩

/-! ## Whole numbers -/

/-- A format has all whole numbers up to `2 ^ F.precision`, if it has the exponents 0 and 1. -/
theorem keeps_natCast (hp : 0 < F.precision) (hmin : F.minExp ≤ 0) (hmax : 1 ≤ F.maxExp) {n : Nat}
    (h : n ≤ 2 ^ F.precision) : F.Keeps n := by
  rcases Nat.lt_or_eq_of_le h with hlt | rfl
  · exact ⟨n, 0, by simp, hlt, hmin, by omega⟩
  · -- The power itself has a single bit, so the next exponent writes it.
    obtain ⟨p, hprecision⟩ : ∃ p, F.precision = p + 1 := ⟨F.precision - 1, by omega⟩
    refine ⟨2 ^ p, 1, ?_, ?_, by omega, hmax⟩
    · rw [hprecision, pow_succ]
      push_cast
      rfl
    · rw [hprecision]
      exact Nat.pow_lt_pow_right (by omega) (by omega)

/-- A format has no odd number past `2 ^ F.precision`: it would need one bit more. -/
theorem not_keeps_of_odd {n : Nat} (hodd : Odd n) (h : 2 ^ F.precision ≤ n) : ¬F.Keeps n := by
  rintro ⟨mant, exp, hval, hmant, -, -⟩
  rcases le_or_gt exp 0 with hexp | hexp
  · -- With such an exponent the mantissa is at least the number.
    obtain ⟨k, rfl⟩ : ∃ k : Nat, exp = -k := ⟨(-exp).toNat, by omega⟩
    have hscaled : n * 2 ^ k = mant := by
      rw [zpow_neg, zpow_natCast, ← div_eq_mul_inv, eq_div_iff (by positivity)] at hval
      exact_mod_cast hval
    have hle : n ≤ n * 2 ^ k := Nat.le_mul_of_pos_right n (Nat.two_pow_pos k)
    omega
  · -- With such an exponent the number is even.
    obtain ⟨k, rfl⟩ : ∃ k : Nat, exp = k + 1 := ⟨(exp - 1).toNat, by omega⟩
    have hscaled : n = mant * 2 ^ (k + 1) := by
      have hpow : (2 : Rat) ^ ((k : Int) + 1) = 2 ^ (k + 1) := by norm_cast
      rw [hpow] at hval
      exact_mod_cast hval
    have heven : n = mant * 2 ^ k + mant * 2 ^ k := by rw [hscaled, pow_succ]; ring
    exact Nat.not_even_iff_odd.mpr hodd ⟨_, heven⟩

theorem double_keeps_natCast {n : Nat} (h : n ≤ 9007199254740992) : Format.double.Keeps n :=
  keeps_natCast (by decide) (by decide) (by decide) h

/-- The magnitude of a whole number is its `natAbs`. -/
theorem abs_intCast (n : Int) : (n : Rat).abs = (n.natAbs : Rat) := by
  rw [← Int.cast_natCast, Int.natCast_natAbs]
  rcases le_total 0 n with hn | hn
  · rw [abs_of_nonneg hn, Rat.abs_of_nonneg (by exact_mod_cast hn)]
  · rw [abs_of_nonpos hn, Rat.abs_of_nonpos (by exact_mod_cast hn), Int.cast_neg]

/-- `ofInt` keeps whole numbers up to `2 ^ 53`, without gaps between them. -/
theorem toRat?_ofInt {n : Int} (h : n.natAbs ≤ 9007199254740992) :
    (ofInt n : Binary64).toRat? = some (n : Rat) := by
  refine toRat?_round Format.double_valid ?_ false
  rw [abs_intCast]
  exact double_keeps_natCast h

/-! ## Comparisons -/

/-- `compare?` on finite numbers compares their exact values. -/
theorem compare?_of_toRat? {x y : Binary F} {p q : Rat} (hx : x.toRat? = some p)
    (hy : y.toRat? = some q) :
    x.compare? y = some (if p < q then .lt else if q < p then .gt else .eq) := by
  obtain ⟨_, _, _, _, rfl, rfl⟩ := exists_finite_of_toRat? hx
  obtain ⟨_, _, _, _, rfl, rfl⟩ := exists_finite_of_toRat? hy
  rfl

/-- Two numbers of one exact value are equal under `==`, the two zeros included. -/
theorem beq_of_toRat? {x y : Binary F} {q : Rat} (hx : x.toRat? = some q)
    (hy : y.toRat? = some q) : (x == y) = true := by
  show (x.compare? y == some .eq) = true
  simp [compare?_of_toRat? hx hy]

/-- A number with an exact value, under `toRat?`, is finite. -/
theorem isFinite_of_toRat? {x : Binary F} {q : Rat} (h : x.toRat? = some q) :
    x.isFinite = true := by
  cases x with
  | finite => rfl
  | _ => cases h

/-- A finite number equals itself under `==`. -/
theorem beq_self_of_isFinite {x : Binary F} (h : x.isFinite = true) : (x == x) = true := by
  cases x with
  | nan => cases h
  | infinity a => cases h
  | finite n m e hme => exact beq_of_toRat? rfl rfl

/-- A number that another one equals is no `nan`, and so it equals itself. -/
theorem beq_self_of_beq {x y : Binary F} (h : (x == y) = true) : (y == y) = true := by
  cases y with
  | nan =>
    have hnan : (x == nan) = false := by cases x <;> rfl
    exact absurd (hnan.symm.trans h) Bool.false_ne_true
  | infinity b => cases b <;> rfl
  | finite n m e hme => exact beq_self_of_isFinite rfl

/-- `==` on numbers is symmetric. -/
theorem beq_comm (x y : Binary F) : (x == y) = (y == x) := by
  show (compare? x y == some .eq) = (compare? y x == some .eq)
  cases x with
  | nan => cases y <;> rfl
  | infinity a =>
    cases y with
    | nan => rfl
    | infinity b => cases a <;> cases b <;> rfl
    | finite nb mb eb hb => cases a <;> rfl
  | finite na ma ea ha =>
    cases y with
    | nan => rfl
    | infinity b => cases b <;> rfl
    | finite nb mb eb hb =>
      -- Finite numbers are compared by their exact values.
      rcases lt_trichotomy (exact na ma ea) (exact nb mb eb) with hlt | heq | hgt
      · simp [compare?, hlt]
      · simp [compare?, heq]
      · simp [compare?, hgt]

/-- `lt` on numbers is the order of their exact values. -/
theorem lt_iff_of_toRat? {x y : Binary F} {p q : Rat} (hx : x.toRat? = some p)
    (hy : y.toRat? = some q) : x.lt y = true ↔ p < q := by
  rw [lt, compare?_of_toRat? hx hy]
  split_ifs with hlt hgt <;> simp [hlt]

/-- `le` on numbers is the order of their exact values. -/
theorem le_iff_of_toRat? {x y : Binary F} {p q : Rat} (hx : x.toRat? = some p)
    (hy : y.toRat? = some q) : x.le y = true ↔ p ≤ q := by
  rw [le, Bool.or_eq_true, lt_iff_of_toRat? hx hy, le_iff_lt_or_eq]
  refine or_congr_right ⟨fun h => ?_, fun h => beq_of_toRat? hx (h ▸ hy)⟩
  -- Of two different numbers one is below the other, and then they do not compare as equal.
  have h : (x.compare? y == some .eq) = true := h
  simp only [compare?_of_toRat? hx hy, beq_iff_eq, Option.some.injEq] at h
  split_ifs at h with hlt hgt
  exact le_antisymm (not_lt.mp hgt) (not_lt.mp hlt)

/-- `lt` does not hold of a number and one that is at most as great. -/
theorem lt_eq_false_of_le {x y : Binary F} {p q : Rat} (hx : x.toRat? = some p)
    (hy : y.toRat? = some q) (h : q ≤ p) : x.lt y = false := by
  rw [← Bool.not_eq_true, lt_iff_of_toRat? hx hy]
  exact not_lt.mpr h

/-! ## Conversion to whole numbers -/

/-- `clampToInt` keeps a whole number within the range. -/
theorem clampToInt_of_toRat? {x : Binary F} {n least greatest : Int}
    (hx : x.toRat? = some (n : Rat)) (hleast : least ≤ n) (hgreatest : n ≤ greatest) :
    x.clampToInt least greatest = n := by
  obtain ⟨negative, mant, exp, h, rfl, hvalue⟩ := exists_finite_of_toRat? hx
  -- Nothing is dropped from a whole number, and floors of both signs are the number itself.
  have htruncate : Rounding.truncate (n : Rat) = n := by
    rw [Rounding.truncate]
    split
    · exact Rat.floor_intCast n
    · rw [← Int.cast_neg, Rat.floor_intCast, Int.neg_neg]
  rw [clampToInt, ← hvalue, htruncate]
  -- Within the range neither end counts.
  omega

/-! ## The sign of zero -/

/-- The number itself, and `zero false` for the negative zero. -/
def unsignZero (x : Binary F) : Binary F := if x.toRat? = some 0 then zero false else x

/-- `unsignZero` gives an equal number, as the negative zero equals zero. -/
theorem unsignZero_beq {x : Binary F} (hF : F.Valid) (h : x.isFinite = true) :
    (x.unsignZero == x) = true := by
  rw [unsignZero]
  split
  · rename_i hzero
    exact beq_of_toRat? (toRat?_round hF (Rat.abs_zero ▸ hF.keeps_zero) false) hzero
  · exact beq_self_of_isFinite h

/-- `ofInt` of the exact value of a number is the number, but for the sign of a zero. -/
theorem ofInt_of_toRat? {x : Binary F} {n : Int} (hF : F.Valid) (h : x.toRat? = some (n : Rat)) :
    (ofInt n : Binary F) = x.unsignZero := by
  cases x with
  | finite negative mant exp hcanonical =>
    have hexact : exact negative mant exp = n := Option.some.inj h
    -- A zero loses its sign; any other number is determined by its exact value.
    by_cases hn : (n : Rat) = 0
    · rw [unsignZero, h, hn, if_pos rfl, ofInt, hn]
      rfl
    · have hne : ¬ some (n : Rat) = some 0 := fun heq => hn (Option.some.inj heq)
      have hround : round negative (exact negative mant exp) = finite negative mant exp hcanonical :=
        round_exact hF hcanonical
      rw [hexact, round, if_neg hn] at hround
      rw [unsignZero, h, if_neg hne, ofInt, ofRat, round, if_neg hn]
      exact hround
  | nan => cases h
  | infinity => cases h

/-! ## Two formats -/

/-- The wide format has every number of the narrow one. -/
theorem double_keeps_of_single {mant : Nat} {exp : Int} (h : Format.single.Canonical mant exp) :
    Format.double.Keeps (mant * 2 ^ exp) := by
  obtain ⟨hmant, hmin, hmax, -⟩ := h
  refine ⟨mant, exp, rfl, lt_of_lt_of_le hmant (by decide), ?_, ?_⟩
  · exact le_trans (by decide) hmin
  · exact le_trans hmax (by decide)

/-- `convert` to the wide format keeps the value of every number of the narrow one. -/
theorem toRat?_convert_double (x : Binary32) : (x.convert Format.double).toRat? = x.toRat? := by
  cases x with
  | nan => rfl
  | infinity a => rfl
  | finite n m e h =>
    obtain ⟨m', e', h', hround, hval⟩ :=
      round_exact_of_keeps Format.double_valid n (double_keeps_of_single h)
    rw [convert, hround, toRat?, toRat?, exact_congr hval]

/-- `convert` to the wide format and back gives every number of the narrow one again. -/
theorem convert_convert (x : Binary32) : (x.convert Format.double).convert Format.single = x := by
  cases x with
  | nan => rfl
  | infinity a => rfl
  | finite n m e h =>
    -- The widening lost nothing, so narrowing rounds the very value it started from.
    obtain ⟨m', e', h', hround, hval⟩ :=
      round_exact_of_keeps Format.double_valid n (double_keeps_of_single h)
    rw [convert, hround, convert, ← exact_congr hval]
    exact round_exact Format.single_valid h

/-- `convert` to the narrow format and back gives a number of the wide one again whose value the
    narrow one has. -/
theorem convert_convert_of_keeps {x : Binary64} {q : Rat} (hx : x.toRat? = some q)
    (hq : Format.single.Keeps q.abs) : (x.convert Format.single).convert Format.double = x := by
  obtain ⟨n, m, e, h, rfl, rfl⟩ := exists_finite_of_toRat? hx
  rw [abs_exact] at hq
  -- The narrow format takes the value without rounding, and the wide one has it as its own.
  obtain ⟨m', e', h', hround, hval⟩ := round_exact_of_keeps Format.single_valid n hq
  rw [convert, hround, convert, ← exact_congr hval]
  exact round_exact Format.double_valid h

end Binary

end DocQuery
