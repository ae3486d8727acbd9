import DocQuery.Number.Arithmetic
import DocQuery.Proofs.Number.Bounds

/-!
# How far rounding goes

Rounding to a format moves a number by at most half a unit in its last place, so by a share of the
number that the precision gives. A number near an integer that is rounded to the wide format and
then to an integer gives that integer, unless the first rounding took it to the middle between two.

## Key results

- `Binary.abs_rounded_sub_le_of_le`: a bounded number is moved by at most half a unit
- `Binary.abs_rounded_sub_le`: rounding moves a number by a share of the number
- `Binary.halfAway_rounded_of_near`: what rounding twice makes of a number near an integer
-/

namespace DocQuery

namespace Rounding

/-- `toEven` moves a number by at most a half. -/
theorem abs_toEven_sub_le (q : Rat) : |(toEven q : Rat) - q| ≤ 1 / 2 := by
  have hfloor := Rat.floor_le q
  have hnext := Rat.lt_floor_add_one q
  push_cast at hnext
  rw [abs_le]
  simp only [toEven]
  split_ifs <;> push_cast <;> constructor <;> linarith

/-- `toEven` takes a number less than a half away from an integer to the integer. -/
theorem toEven_eq_of_near {q : Rat} {n : Int} (h : |q - n| < 1 / 2) : toEven q = n := by
  have hround := abs_toEven_sub_le q
  rw [abs_le] at hround
  rw [abs_lt] at h
  -- Two integers less than one apart are one.
  have hbelow : ((toEven q : Int) : Rat) < (n + 1 : Int) := by
    push_cast
    linarith
  have habove : ((n - 1 : Int) : Rat) < toEven q := by
    push_cast
    linarith
  have hbelow : toEven q < n + 1 := by exact_mod_cast hbelow
  have habove : n - 1 < toEven q := by exact_mod_cast habove
  omega

/-- `halfAway` keeps opposite numbers opposite: middles go away from zero on both sides. -/
theorem halfAway_neg (q : Rat) : halfAway (-q) = -halfAway q := by
  rcases lt_trichotomy q 0 with hq | rfl | hq
  · rw [halfAway, halfAway, if_pos (by linarith), if_neg (by linarith), neg_neg]
  · decide +kernel
  · rw [halfAway, halfAway, if_neg (by linarith), if_pos (by linarith), neg_neg]

/-- From a half below an integer on, `halfAway` takes a number that is not negative to at least
    it. -/
theorem le_halfAway_iff {q : Rat} (hq : 0 ≤ q) {n : Int} :
    n ≤ halfAway q ↔ (n : Rat) - 1 / 2 ≤ q := by
  rw [halfAway, if_pos hq, Rat.le_floor_iff, sub_le_iff_le_add]

/-- Below a half above an integer, `halfAway` takes a number that is not negative to at most it. -/
theorem halfAway_le_iff {q : Rat} (hq : 0 ≤ q) {n : Int} :
    halfAway q ≤ n ↔ q < (n : Rat) + 1 / 2 := by
  -- This is `le_halfAway_iff` at the next integer, turned around.
  rw [← not_iff_not, not_le, not_lt, ← Int.add_one_le_iff, le_halfAway_iff hq]
  push_cast
  constructor <;> intro h <;> linarith

/-- `halfAway` keeps integers. -/
theorem halfAway_intCast (n : Int) : halfAway (n : Rat) = n := by
  have hnat (n : Nat) : halfAway ((n : Int) : Rat) = n := by
    have hnonneg : (0 : Rat) ≤ ((n : Int) : Rat) := by positivity
    refine le_antisymm ?_ ((le_halfAway_iff hnonneg).mpr (by linarith))
    by_contra hlt
    have hle := (le_halfAway_iff hnonneg).mp (Int.add_one_le_of_lt (not_le.mp hlt))
    push_cast at hle
    linarith
  -- A negative integer is the opposite of a natural number.
  obtain ⟨k, rfl | rfl⟩ := Int.eq_nat_or_neg n
  · exact hnat k
  · rw [Int.cast_neg, halfAway_neg, hnat]

/-- `halfAway` moves a number by at most a half. -/
theorem abs_halfAway_sub_le (q : Rat) : |(halfAway q : Rat) - q| ≤ 1 / 2 := by
  -- Both bounds are those of the floor after one half is added.
  have hnonneg {q : Rat} (hq : 0 ≤ q) : |(halfAway q : Rat) - q| ≤ 1 / 2 := by
    have hle := (le_halfAway_iff hq).mp le_rfl
    have hlt := not_le.mp (mt (le_halfAway_iff hq).mpr (not_le.mpr (Int.lt_add_one_iff.mpr le_rfl)))
    push_cast at hlt
    rw [abs_le]
    constructor <;> linarith
  rcases le_total 0 q with hq | hq
  · exact hnonneg hq
  · -- Rounding a negative number is rounding its magnitude.
    have hneg := hnonneg (neg_nonneg.mpr hq)
    rw [halfAway_neg, Int.cast_neg, ← neg_sub', abs_neg] at hneg
    exact hneg

end Rounding

namespace Binary

variable {F : Format} {p q bound : Rat}

/-! ## Moving by half a unit -/

/-- `nearest` moves a number by at most half a unit of the exponent it is rounded at. -/
theorem abs_nearest_sub_le (q : Rat) : |nearest F q - q| ≤ 2 ^ roundingExp F q / 2 := by
  have hunit : (0 : Rat) < 2 ^ roundingExp F q := by positivity
  have hround := Rounding.abs_toEven_sub_le (q / 2 ^ roundingExp F q)
  -- The error is that of the scaled mantissa, times the unit.
  have hscaled : nearest F q - q =
      (Rounding.toEven (q / 2 ^ roundingExp F q) - q / 2 ^ roundingExp F q) *
        2 ^ roundingExp F q := by
    rw [nearest]
    field_simp
  rw [hscaled, abs_mul, abs_of_pos hunit]
  calc _ ≤ 1 / 2 * (2 : Rat) ^ roundingExp F q := by gcongr
    _ = _ := by ring

/-- `rounded` keeps the sign and moves the magnitude as `nearest` does. -/
theorem abs_rounded_sub_eq (q : Rat) : |rounded F q - q| = |nearest F (|q|) - (|q|)| := by
  rw [rounded, abs_eq_abs]
  split_ifs with hq
  · rw [abs_of_neg hq, ← abs_neg]
    congr 1
    ring
  · rw [abs_of_nonneg (not_lt.mp hq)]

/-- A number below `2 ^ (e + F.precision)` is rounded at an exponent of at most `e`, which leaves
    room for all its bits. -/
theorem roundingExp_le {e : Int} (he : F.minExp ≤ e) (hpos : 0 < q)
    (hq : q < 2 ^ (e + F.precision)) : roundingExp F q ≤ e := by
  have hlog : Rounding.log2 q < e + F.precision :=
    (zpow_lt_zpow_iff_right₀ (by norm_num : (1 : Rat) < 2)).mp
      ((Rounding.log2_spec hpos).1.trans_lt hq)
  exact max_le he (by omega)

/-- The power `2 ^ (e + F.precision)` with one bit more is a number of the format, below its
    greatest exponent. -/
theorem keeps_two_zpow (hF : F.Valid) {e : Int} (he : F.minExp ≤ e) (he' : e < F.maxExp) :
    F.Keeps (2 ^ (e + F.precision)) := by
  have hp := hF.precision_pos
  -- The power of two is a full mantissa's leading digit at the next exponent.
  refine ⟨2 ^ (F.precision - 1), e + 1, ?_, Nat.pow_lt_pow_right (by norm_num) (by omega),
    by omega, by omega⟩
  push_cast
  rw [← zpow_natCast, ← zpow_add₀ (by norm_num)]
  congr 1
  omega

/-- A number up to `2 ^ (e + F.precision)` is moved by at most half of the unit `2 ^ e`. -/
theorem abs_rounded_sub_le_of_le (hF : F.Valid) {e : Int} (he : F.minExp ≤ e) (he' : e < F.maxExp)
    (hq : |q| ≤ 2 ^ (e + F.precision)) : |rounded F q - q| ≤ 2 ^ e / 2 := by
  have hunit : (0 : Rat) ≤ 2 ^ e / 2 := by positivity
  rcases hq.eq_or_lt with heq | hlt
  · -- The power of two is a number of the format itself.
    have hkeeps : F.Keeps q.abs := by
      rw [abs_eq_abs, heq]
      exact keeps_two_zpow hF he he'
    rwa [rounded_of_keeps hF hkeeps, sub_self, abs_zero]
  · rw [abs_rounded_sub_eq]
    -- Zero stays, and any other magnitude is rounded at an exponent up to `e`.
    rcases (abs_nonneg q).eq_or_lt with hzero | hpos
    · rwa [← hzero, nearest_zero, sub_zero, abs_zero]
    · refine (abs_nearest_sub_le (|q|)).trans ?_
      have hexp : (2 : Rat) ^ roundingExp F (|q|) ≤ 2 ^ e :=
        zpow_le_zpow_right₀ (by norm_num) (roundingExp_le he hpos hlt)
      linarith

/-- `rounded` moves a number by at most the share of it that the precision gives, and half of the
    smallest unit. -/
theorem abs_rounded_sub_le (q : Rat) :
    |rounded F q - q| ≤ |q| / 2 ^ F.precision + 2 ^ F.minExp / 2 := by
  have hshare : (0 : Rat) ≤ |q| / 2 ^ F.precision := by positivity
  have hleast : (0 : Rat) < 2 ^ F.minExp / 2 := by positivity
  rw [abs_rounded_sub_eq]
  rcases (abs_nonneg q).eq_or_lt with hzero | hpos
  · rw [← hzero] at hshare ⊢
    rw [nearest_zero, sub_zero, abs_zero]
    linarith
  refine (abs_nearest_sub_le (|q|)).trans ?_
  rcases max_choice F.minExp (Rounding.log2 (|q|) - (F.precision - 1)) with hexp | hexp
  · -- At the least exponent half of the smallest unit is enough.
    rw [roundingExp, hexp]
    linarith
  · -- The unit is that of the leading bit, over the precision.
    have hunit : (2 : Rat) ^ roundingExp F (|q|) / 2 =
        2 ^ Rounding.log2 (|q|) / 2 ^ F.precision := by
      rw [roundingExp, hexp, ← zpow_natCast, ← zpow_sub₀ (by norm_num), div_eq_iff (by norm_num),
        ← zpow_add_one₀ (by norm_num)]
      congr 1
      ring
    have hlead : (2 : Rat) ^ Rounding.log2 (|q|) / 2 ^ F.precision ≤ |q| / 2 ^ F.precision := by
      have h := (Rounding.log2_spec hpos).1
      gcongr
    rw [hunit]
    linarith

/-- The error of a quotient counts times the divisor in the number that was divided. -/
theorem abs_mul_sub_le {divisor error : Rat} (hdivisor : 0 < divisor)
    (h : |q - p / divisor| ≤ error) : |q * divisor - p| ≤ error * divisor := by
  have hscaled : q * divisor - p = (q - p / divisor) * divisor := by field_simp
  rw [hscaled, abs_mul, abs_of_pos hdivisor]
  gcongr

/-! ## Exact values of operations -/

section Operations

variable {x y : Binary F}

/-- The exact value of a product within a bound of the format, by `exists_mul_eq_round`. -/
theorem toRat?_mul (hF : F.Valid) (hbound : F.Keeps bound) (hx : x.toRat? = some p)
    (hy : y.toRat? = some q) (h : |p * q| ≤ bound) : (x * y).toRat? = some (rounded F (p * q)) := by
  obtain ⟨z, hz⟩ := exists_mul_eq_round hx hy
  rw [hz, toRat?_round_of_le hF hbound h]

/-- The exact value of a sum within a bound of the format. -/
theorem toRat?_add (hF : F.Valid) (hbound : F.Keeps bound) (hx : x.toRat? = some p)
    (hy : y.toRat? = some q) (h : |p + q| ≤ bound) : (x + y).toRat? = some (rounded F (p + q)) := by
  obtain ⟨z, hz⟩ := exists_add_eq_round hx hy
  rw [hz, toRat?_round_of_le hF hbound h]

theorem toRat?_div (hF : F.Valid) (hbound : F.Keeps bound) (hx : x.toRat? = some p)
    (hy : y.toRat? = some q) (hq : q ≠ 0) (h : |p / q| ≤ bound) :
    (x / y).toRat? = some (rounded F (p / q)) := by
  obtain ⟨z, hz⟩ := exists_div_eq_round hx hy hq
  rw [hz, toRat?_round_of_le hF hbound h]

end Operations

/-- What `halfAway` makes of a number of the wide format is a number of the format. -/
theorem double_keeps_halfAway {x : Binary64} (hx : x.toRat? = some q) :
    Format.double.Keeps (Rounding.halfAway q : Rat).abs := by
  obtain ⟨negative, mant, exp, h, rfl, rfl⟩ := exists_finite_of_toRat? hx
  rcases le_or_gt 0 exp with hexp | hexp
  · -- Without bits behind the point the number is whole.
    obtain ⟨k, rfl⟩ := Int.eq_ofNat_of_zero_le hexp
    have hwhole : exact negative mant k =
        ((if negative then -(mant * 2 ^ k : Int) else mant * 2 ^ k : Int) : Rat) := by
      cases negative <;> simp [exact]
    rw [hwhole, Rounding.halfAway_intCast, ← hwhole, abs_exact]
    exact keeps_of_canonical h
  · -- With bits behind the point it is below `2 ^ 52`, where all integers are numbers.
    have hmant : (mant : Rat) ≤ 2 ^ 53 := by exact_mod_cast h.1.le
    have habs : |exact negative mant exp| ≤ 2 ^ 52 := by
      rw [← abs_eq_abs, abs_exact]
      calc (mant : Rat) * 2 ^ exp ≤ 2 ^ 53 * 2 ^ (-1 : Int) := by
            gcongr
            · norm_num
            · omega
        _ = 2 ^ 52 := by norm_num
    have hround := Rounding.abs_halfAway_sub_le (exact negative mant exp)
    have hle : |(Rounding.halfAway (exact negative mant exp) : Rat)| ≤ 2 ^ 53 := by
      rw [abs_le] at habs hround ⊢
      constructor <;> linarith
    rw [abs_intCast]
    apply double_keeps_natCast
    rw [← abs_eq_abs, abs_intCast] at hle
    exact_mod_cast hle

/-- `roundHalfAway` is exact in the wide format. -/
theorem toRat?_roundHalfAway {x : Binary64} (hx : x.toRat? = some q) :
    x.roundHalfAway.toRat? = some (Rounding.halfAway q : Rat) := by
  have hkeeps := double_keeps_halfAway hx
  obtain ⟨negative, mant, exp, h, rfl, rfl⟩ := exists_finite_of_toRat? hx
  exact toRat?_round Format.double_valid hkeeps negative

/-- `rounded` keeps whole numbers up to `2 ^ 53`, which have no more bits than the wide format. -/
theorem rounded_intCast {n : Int} (h : n.natAbs ≤ 9007199254740992) :
    rounded Format.double n = n := by
  refine rounded_of_keeps Format.double_valid ?_
  rw [abs_intCast]
  exact double_keeps_natCast h

/-! ## Rounding twice -/

/-- The wide format has the halves of whole numbers up to `2 ^ 53`. -/
theorem double_keeps_half {n : Nat} (h : n ≤ 9007199254740992) :
    Format.double.Keeps ((n : Rat) / 2) := by
  rcases Nat.lt_or_eq_of_le h with hlt | rfl
  · exact ⟨n, -1, by rw [zpow_neg_one, div_eq_mul_inv], hlt, by decide, by decide⟩
  · exact ⟨4503599627370496, 0, by norm_num, by decide, by decide, by decide⟩

/-- `rounded` keeps the halves of whole numbers up to `2 ^ 53`. -/
theorem rounded_half {n : Nat} (h : n ≤ 9007199254740992) (hq : q = (n : Rat) / 2) :
    rounded Format.double q = q := by
  have hnonneg : 0 ≤ q := hq ▸ by positivity
  refine rounded_of_keeps Format.double_valid ?_
  rw [Rat.abs_of_nonneg hnonneg, hq]
  exact double_keeps_half h

theorem rounded_nonneg (hF : F.Valid) (h : 0 ≤ q) : 0 ≤ rounded F q := by
  have hzero : rounded F 0 = 0 := by rw [rounded, if_neg (lt_irrefl 0)]; exact nearest_zero
  exact hzero.symm.trans_le (rounded_mono hF h)

/-- From `2 ^ 52` on, where the last place is that of the integers, a number near an integer is
    `rounded` to it. -/
theorem rounded_double_of_near {n : Int} (hle : 2 ^ 52 ≤ q) (hlt : q < 2 ^ 53)
    (hnear : |q - n| < 1 / 2) : rounded Format.double q = n := by
  have hpos : 0 < q := lt_of_lt_of_le (by norm_num) hle
  -- The leading bit is known, so the exponent of rounding is zero.
  have hlog : Rounding.log2 q = 52 := by
    have hspec := Rounding.log2_spec hpos
    have hbelow : Rounding.log2 q < (53 : Nat) :=
      (zpow_lt_zpow_iff_right₀ (by norm_num : (1 : Rat) < 2)).mp (hspec.1.trans_lt hlt)
    have habove : ((52 : Nat) : Int) < Rounding.log2 q + 1 :=
      (zpow_lt_zpow_iff_right₀ (by norm_num : (1 : Rat) < 2)).mp (hle.trans_lt hspec.2)
    omega
  have hexp : roundingExp Format.double q = 0 := by
    rw [roundingExp, hlog]
    decide
  rw [rounded, if_neg (not_lt.mpr hpos.le), Rat.abs_of_nonneg hpos.le, nearest, hexp, zpow_zero,
    div_one, mul_one, Rounding.toEven_eq_of_near hnear]

/-- `rounded` does not pass the middle below a number up to `2 ^ 52`, so `halfAway` behind it does
    not either. -/
theorem le_halfAway_rounded {n : Nat} (hn : n ≤ 4503599627370496) (hnonneg : 0 ≤ q)
    (h : (n : Rat) - 1 / 2 ≤ q) : (n : Int) ≤ Rounding.halfAway (rounded Format.double q) := by
  have hy := rounded_nonneg Format.double_valid hnonneg
  rw [Rounding.le_halfAway_iff hy, Int.cast_natCast]
  rcases Nat.eq_zero_or_pos n with rfl | hpos
  · norm_num
    linarith
  · -- The middle is a half of an odd number, and the format has it.
    have hmiddle : (n : Rat) - 1 / 2 = ((2 * n - 1 : Nat) : Rat) / 2 := by
      rw [Nat.cast_sub (by omega)]
      push_cast
      ring
    rw [← rounded_half (by omega) hmiddle]
    exact rounded_mono Format.double_valid h

/-- Nor does `rounded` pass the middle above one below `2 ^ 52`, so `halfAway` gives at most the
    next number. -/
theorem halfAway_rounded_le {n : Nat} (hn : n < 4503599627370496) (hnonneg : 0 ≤ q)
    (h : q ≤ n + 1 / 2) : Rounding.halfAway (rounded Format.double q) ≤ n + 1 := by
  -- The bound is half an odd number, which a double of this size holds exactly.
  have hmiddle : (n : Rat) + 1 / 2 = ((2 * n + 1 : Nat) : Rat) / 2 := by
    push_cast
    ring
  have hround := rounded_mono Format.double_valid h
  rw [rounded_half (by omega) hmiddle] at hround
  rw [Rounding.halfAway_le_iff (rounded_nonneg Format.double_valid hnonneg)]
  push_cast
  linarith

/-- A magnitude near a whole number gives that number under `rounded` in the wide format and then
    `halfAway`. Only one that is in the last quarter before the middle, where the format has a place
    for the middle, may give the next number. -/
theorem halfAway_rounded_of_nonneg {n : Nat} (hnonneg : 0 ≤ q) (hnear : |q - n| < 1 / 2)
    (hn : n < 9007199254740992) :
    Rounding.halfAway (rounded Format.double q) = n ∨
      n < 4503599627370496 ∧ 1 / 4 ≤ |q - n| ∧
        Rounding.halfAway (rounded Format.double q) = n + 1 := by
  have hbounds := abs_lt.mp hnear
  have hnn : (n : Rat) ≤ 9007199254740991 := by exact_mod_cast Nat.le_of_lt_succ hn
  rcases le_or_gt (2 ^ 52) q with hlarge | hsmall
  · have hround := rounded_double_of_near (n := n) hlarge (by linarith) (by exact_mod_cast hnear)
    rw [hround, Rounding.halfAway_intCast]
    exact .inl rfl
  have hnle : n ≤ 4503599627370496 := by
    have h : (n : Rat) < 4503599627370497 := by linarith
    exact Nat.le_of_lt_succ (by exact_mod_cast h)
  have hlow := le_halfAway_rounded hnle hnonneg (by linarith)
  -- The number itself is the answer where the first rounding stays below the middle above it.
  have hhigh (h : rounded Format.double q < n + 1 / 2) :
      Rounding.halfAway (rounded Format.double q) = n :=
    le_antisymm ((Rounding.halfAway_le_iff (rounded_nonneg Format.double_valid hnonneg)).mpr
      (by exact_mod_cast h)) hlow
  rcases hnle.lt_or_eq with hlt | rfl
  · -- Less than a quarter away the first rounding does not reach the middle.
    rcases lt_or_ge |q - n| (1 / 4) with hquarter | hquarter
    · have hle : |q| ≤ 2 ^ ((-1 : Int) + Format.double.precision) := by
        rw [abs_of_nonneg hnonneg]
        exact hsmall.le.trans_eq (by norm_num [Format.double])
      have herror := abs_rounded_sub_le_of_le Format.double_valid (by decide) (by decide) hle
      rw [abs_lt] at hquarter
      rw [abs_le] at herror
      norm_num at herror
      exact .inl (hhigh (by linarith))
    · -- In the last quarter it may reach it, and then the next number is the answer.
      have hnext := halfAway_rounded_le hlt hnonneg (by linarith)
      rcases hlow.eq_or_lt with heq | hmore
      · exact .inl heq.symm
      · exact .inr ⟨hlt, hquarter, by omega⟩
  · -- Below the last of these numbers only numbers below it are left.
    have hround := rounded_mono Format.double_valid hsmall.le
    have hlast : (2 : Rat) ^ 52 = ((9007199254740992 : Nat) : Rat) / 2 := by norm_num
    rw [rounded_half le_rfl hlast] at hround
    refine .inl (hhigh (hround.trans_lt ?_))
    norm_num

/-- What a number near the integer `n` may give: `n`, or under the conditions of
    `halfAway_rounded_of_nonneg` the next integer away from zero. -/
def LandsNear (q : Rat) (n m : Int) : Prop :=
  m = n ∨ n.natAbs < 4503599627370496 ∧ 1 / 4 ≤ |q - n| ∧ m = n + n.sign

theorem abs_neg_sub_neg (q : Rat) (n : Int) : |-q - ((-n : Int) : Rat)| = |q - n| := by
  rw [← abs_neg]
  push_cast
  congr 1
  ring

/-- `LandsNear` holds of the opposite numbers, too, as the next integer away from zero is the
    opposite one. -/
theorem LandsNear.neg {n m : Int} (h : LandsNear q n m) : LandsNear (-q) (-n) (-m) := by
  rw [LandsNear, Int.natAbs_neg, abs_neg_sub_neg, Int.sign_neg]
  exact h.imp (congrArg Neg.neg) fun ⟨hlt, hquarter, heq⟩ => ⟨hlt, hquarter, by omega⟩

/-- `LandsNear` for a number that is not negative. Near zero the next integer away from zero is
    none, so only less than a quarter counts there. -/
theorem landsNear_of_nonneg {n : Int} (hq : 0 ≤ q) (hnear : |q - n| < 1 / 2)
    (hn : n.natAbs < 9007199254740992) (hzero : n = 0 → |q| < 1 / 4) :
    LandsNear q n (Rounding.halfAway (rounded Format.double q)) := by
  -- The integer is not negative, as the number would be more than a half away.
  have hgt : ((-1 : Int) : Rat) < n := by
    have h := (abs_lt.mp hnear).2
    push_cast
    linarith
  have hgt : -1 < n := by exact_mod_cast hgt
  obtain ⟨k, rfl⟩ := Int.eq_ofNat_of_zero_le (show 0 ≤ n by omega)
  rcases halfAway_rounded_of_nonneg hq (by exact_mod_cast hnear) hn with
    heq | ⟨hlt, hquarter, heq⟩
  · exact .inl heq
  · have hk : 0 < k := by
      by_contra hk
      obtain rfl : k = 0 := by omega
      have hsmall := hzero rfl
      norm_num at hquarter
      linarith
    rw [heq, LandsNear, Int.sign_eq_one_of_pos (by exact_mod_cast hk)]
    exact .inr ⟨hlt, by exact_mod_cast hquarter, rfl⟩

/-- A number near an integer gives that integer under `rounded` in the wide format and then
    `halfAway`, or the next one away from zero under the conditions of `LandsNear`. -/
theorem halfAway_rounded_of_near {n : Int} (hnear : |q - n| < 1 / 2)
    (hn : n.natAbs < 9007199254740992) (hzero : n = 0 → |q| < 1 / 4) :
    LandsNear q n (Rounding.halfAway (rounded Format.double q)) := by
  rcases le_total 0 q with hq | hq
  · exact landsNear_of_nonneg hq hnear hn hzero
  · -- A negative number goes as its opposite does.
    have hround := (landsNear_of_nonneg (n := -n) (neg_nonneg.mpr hq)
      ((abs_neg_sub_neg q n).trans_lt hnear)
      (by rwa [Int.natAbs_neg]) fun h => (abs_neg q).trans_lt (hzero (by omega))).neg
    rwa [rounded_neg, Rounding.halfAway_neg, neg_neg, neg_neg, neg_neg] at hround

end Binary

end DocQuery
