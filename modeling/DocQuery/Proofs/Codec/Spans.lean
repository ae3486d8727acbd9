import DocQuery.Codec.Leaf
import DocQuery.Proofs.Number.Error

/-!
# Spans in seconds

A span is written as a number of seconds: its whole seconds plus its fraction. It is read as a
million times the seconds, rounded to whole microseconds, which have to fit a word. So a span of
more than some 292000 years is written and not read. What is read lies near what was written, and
whole microseconds are kept as long as the seconds have enough bits behind the point.

## Key results

- `Codec.toRat?_spanSeconds`: the exact values of what is written and read
- `Codec.readMicros_eq`: which whole microseconds are kept
- `Codec.abs_micros_sub_le`: what is read is near what was written
- `Codec.le_readMicros_iff`: from which span on the microseconds do not fit a word
- `Codec.decode_encode_span`: which span is read from the number that was written of a span
-/

namespace DocQuery.Codec

open Binary (abs_cast_le abs_intCast abs_mul_sub_le abs_rounded_le abs_rounded_sub_le
  abs_rounded_sub_le_of_le clampToInt_of_toRat? double_keeps_natCast double_keeps_two_pow
  halfAway_rounded_of_near isFinite_of_toRat? le_iff_of_toRat? rounded rounded_intCast rounded_mono
  rounded_neg rounded_nonneg toRat?_abs toRat?_add toRat?_div toRat?_mul toRat?_ofInt
  toRat?_roundHalfAway toRat?_round_of_le)

/-! ## Exact values -/

/-- The fraction of a second in `nanos` nanoseconds, as it is `rounded`. -/
def fraction (nanos : Int) : Rat :=
  rounded Format.double ((nanos.tmod 1000000000 : Int) / 1000000000)

/-- The seconds that are written of `nanos` nanoseconds: the sum of two numbers that are rounded
    themselves. -/
def writtenSeconds (nanos : Int) : Rat :=
  rounded Format.double
    (rounded Format.double (nanos.tdiv 1000000000 : Int) + fraction nanos)

/-- The microseconds that are read from the seconds of `nanos` nanoseconds. -/
def readMicros (nanos : Int) : Int :=
  Rounding.halfAway (rounded Format.double (writtenSeconds nanos * 1000000))

section Exact

variable {nanos : Int}

/-- Of a number of nanoseconds and its opposite, `tdiv` gives whole seconds of one size. -/
theorem natAbs_tdiv_second (nanos : Int) :
    (nanos.tdiv 1000000000).natAbs = nanos.natAbs / 1000000000 :=
  Int.natAbs_tdiv nanos 1000000000

/-- Of a number of nanoseconds and its opposite, `tmod` gives remainders of one size. -/
theorem natAbs_tmod_second (nanos : Int) :
    (nanos.tmod 1000000000).natAbs = nanos.natAbs % 1000000000 :=
  Int.natAbs_tmod nanos 1000000000

/-- The part of a second is at most one second before it is rounded. -/
theorem abs_tmod_le (nanos : Int) :
    |((nanos.tmod 1000000000 : Int) : Rat) / 1000000000| ≤ 1 := by
  -- The rest is less than a second.
  have h : (nanos.tmod 1000000000).natAbs ≤ 1000000000 := by
    rw [natAbs_tmod_second]
    omega
  have hcast : |((nanos.tmod 1000000000 : Int) : Rat)| ≤ 1000000000 := by
    exact_mod_cast abs_cast_le h
  rw [abs_div, abs_of_pos (by norm_num : (0 : Rat) < 1000000000)]
  exact (div_le_one (by norm_num)).mpr hcast

/-- The `fraction` is at most one second: one is a number of the format, so rounding does not pass
    it. -/
theorem abs_fraction_le (nanos : Int) : |fraction nanos| ≤ 1 := by
  have hone : Format.double.Keeps 1 := by simpa using double_keeps_natCast (n := 1) (by norm_num)
  exact abs_rounded_le Format.double_valid hone (abs_tmod_le nanos)

/-- The `fraction` is off by half of the last place of numbers below one. -/
theorem abs_fraction_sub_le (nanos : Int) :
    |fraction nanos - (nanos.tmod 1000000000 : Int) / 1000000000| ≤ 1 / 2 ^ 54 := by
  have hle : |((nanos.tmod 1000000000 : Int) : Rat) / 1000000000| ≤
      2 ^ ((-53 : Int) + Format.double.precision) :=
    (abs_tmod_le nanos).trans_eq (by norm_num [Format.double])
  refine (abs_rounded_sub_le_of_le Format.double_valid (by decide) (by decide) hle).trans_eq ?_
  norm_num

/-- Whole seconds and a part of a second make up the number of nanoseconds. -/
theorem tdiv_add_tmod (nanos : Int) :
    ((nanos.tdiv 1000000000 : Int) : Rat) + (nanos.tmod 1000000000 : Int) / 1000000000 =
      nanos / 1000000000 := by
  have h : (nanos : Rat) = ((nanos.tdiv 1000000000 : Int) : Rat) * 1000000000 +
      (nanos.tmod 1000000000 : Int) := by
    have h := Int.tdiv_mul_add_tmod nanos 1000000000
    exact_mod_cast h.symm
  rw [h]
  ring

theorem fraction_neg : fraction (-nanos) = -fraction nanos := by
  rw [fraction, Int.neg_tmod, Int.cast_neg, neg_div, rounded_neg, fraction]

/-- The `writtenSeconds` of the opposite number of nanoseconds are the opposite ones. -/
theorem writtenSeconds_neg : writtenSeconds (-nanos) = -writtenSeconds nanos := by
  rw [writtenSeconds, Int.neg_tdiv, Int.cast_neg, rounded_neg, fraction_neg, ← neg_add, rounded_neg,
    writtenSeconds]

theorem readMicros_neg : readMicros (-nanos) = -readMicros nanos := by
  rw [readMicros, writtenSeconds_neg, neg_mul, rounded_neg, Rounding.halfAway_neg, readMicros]

/-! The numbers that are rounded on the way are far from the greatest one of the format. -/

/-- The whole seconds of a span are at most `2 ^ 64`. -/
theorem abs_tdiv_le (d : Span) : |((d.nanos.tdiv 1000000000 : Int) : Rat)| ≤ 2 ^ 64 := by
  obtain ⟨nanos, hleast, hgreatest⟩ := d
  simp only [Time.longestSpan, IntKind.greatest] at hleast hgreatest
  have h : (nanos.tdiv 1000000000).natAbs ≤ 2 ^ 64 := by
    rw [natAbs_tdiv_second]
    omega
  exact_mod_cast abs_cast_le h

/-- The seconds before they are rounded for the second time are at most `2 ^ 65`. -/
theorem abs_sum_le (d : Span) :
    |rounded Format.double (d.nanos.tdiv 1000000000 : Int) + fraction d.nanos| ≤ 2 ^ 65 := by
  have hwhole := abs_rounded_le Format.double_valid (double_keeps_two_pow (by norm_num))
    (abs_tdiv_le d)
  have hfraction := abs_fraction_le d.nanos
  refine (abs_add_le _ _).trans ?_
  norm_num at hwhole ⊢
  linarith

/-- The product with a million is at most `2 ^ 85`. -/
theorem abs_product_le (d : Span) : |writtenSeconds d.nanos * 1000000| ≤ 2 ^ 85 := by
  have hseconds := abs_rounded_le Format.double_valid (double_keeps_two_pow (by norm_num))
    (abs_sum_le d)
  rw [abs_mul, abs_of_pos (by norm_num : (0 : Rat) < 1000000), writtenSeconds]
  norm_num at hseconds ⊢
  linarith

/-- The exact values of the seconds that `spanSeconds` writes and of the microseconds that are
    read. -/
theorem toRat?_spanSeconds (d : Span) :
    (spanSeconds d).toRat? = some (writtenSeconds d.nanos) ∧
      (spanSeconds d * Binary.ofInt 1000000).roundHalfAway.toRat? =
        some (readMicros d.nanos : Rat) := by
  have hnano : (Binary.ofInt 1000000000 : Binary64).toRat? = some 1000000000 :=
    toRat?_ofInt (by norm_num)
  have hmega : (Binary.ofInt 1000000 : Binary64).toRat? = some 1000000 := toRat?_ofInt (by norm_num)
  have hmod : (d.nanos.tmod 1000000000).natAbs ≤ 9007199254740992 := by
    rw [natAbs_tmod_second]
    omega
  -- Each operation rounds an exact value that is within a power of two, so none of them overflows.
  have hwhole := toRat?_round_of_le Format.double_valid (double_keeps_two_pow (by norm_num))
    (abs_tdiv_le d) false
  have hfraction := toRat?_div Format.double_valid (double_keeps_two_pow (n := 0) (by norm_num))
    (toRat?_ofInt hmod) hnano (by norm_num) (by simpa using abs_tmod_le d.nanos)
  have hseconds : (spanSeconds d).toRat? = some (writtenSeconds d.nanos) :=
    toRat?_add Format.double_valid (double_keeps_two_pow (by norm_num)) hwhole hfraction
      (abs_sum_le d)
  have hproduct := toRat?_mul Format.double_valid (double_keeps_two_pow (by norm_num)) hseconds
    hmega (abs_product_le d)
  exact ⟨hseconds, toRat?_roundHalfAway hproduct⟩

end Exact

/-! ## Errors -/

section Errors

variable {nanos : Int}

/-- Whole seconds that have no more bits than the format are kept. -/
theorem rounded_tdiv (h : nanos.natAbs ≤ 2 ^ 53 * 1000000000) :
    rounded Format.double (nanos.tdiv 1000000000 : Int) = (nanos.tdiv 1000000000 : Int) := by
  refine rounded_intCast ?_
  rw [natAbs_tdiv_second]
  omega

/-- The sum of whole seconds and `fraction` is off by the error of the fraction alone. -/
theorem abs_sum_sub_le (nanos : Int) :
    |(nanos.tdiv 1000000000 : Int) + fraction nanos - (nanos : Rat) / 1000000000| ≤ 1 / 2 ^ 54 := by
  rw [← tdiv_add_tmod nanos, add_sub_add_left_eq_sub]
  exact abs_fraction_sub_le nanos

/-- Below `2 ^ k` seconds the `writtenSeconds` are off by half of the last place there, and by the
    error of the fraction. -/
theorem abs_writtenSeconds_sub_le {k : Nat} (hk : k ≤ 53)
    (h : nanos.natAbs < 2 ^ k * 1000000000) :
    |writtenSeconds nanos - nanos / 1000000000| ≤ (2 ^ k + 1) / 2 ^ 54 := by
  have hpow : 2 ^ k ≤ 2 ^ 53 := Nat.pow_le_pow_right (by norm_num) hk
  -- The fraction may take the sum up to the next whole second, but not past the power of two.
  have hwhole : |((nanos.tdiv 1000000000 : Int) : Rat)| + 1 ≤ 2 ^ k := by
    have hle := abs_cast_le (natAbs_tdiv_second nanos).le
    have hlt : ((nanos.natAbs / 1000000000 : Nat) : Rat) + 1 ≤ 2 ^ k := by
      exact_mod_cast show nanos.natAbs / 1000000000 + 1 ≤ 2 ^ k by omega
    linarith
  have hunit : (2 : Rat) ^ ((k : Int) - 53) = 2 ^ k / 2 ^ 53 := by
    rw [zpow_sub₀ (by norm_num), zpow_natCast]
    rfl
  have hsum : |((nanos.tdiv 1000000000 : Int) : Rat) + fraction nanos| ≤
      2 ^ ((k : Int) - 53 + Format.double.precision) := by
    have hexp : (k : Int) - 53 + Format.double.precision = k := sub_add_cancel _ _
    rw [hexp, zpow_natCast]
    have hfraction := abs_fraction_le nanos
    exact (abs_add_le _ _).trans (by linarith)
  have hmin : Format.double.minExp ≤ (k : Int) - 53 :=
    show (-1074 : Int) ≤ _ by omega
  have hmax : (k : Int) - 53 < Format.double.maxExp :=
    show _ < (971 : Int) by omega
  have hround := abs_rounded_sub_le_of_le Format.double_valid hmin hmax hsum
  rw [hunit] at hround
  have hfraction := abs_sum_sub_le nanos
  rw [writtenSeconds, rounded_tdiv (by omega)]
  -- The two roundings add up: that of the sum and that of the fraction.
  refine (abs_sub_le _ _ _).trans ((add_le_add hround hfraction).trans_eq ?_)
  ring

/-- An error in the seconds counts a million times in the microseconds `n`. -/
theorem abs_scaled_sub_le {n : Int} (hn : nanos = n * 1000) {k : Nat} (hk : k ≤ 53)
    (h : nanos.natAbs < 2 ^ k * 1000000000) :
    |writtenSeconds nanos * 1000000 - n| ≤ (2 ^ k + 1) / 2 ^ 54 * 1000000 := by
  have hseconds : (nanos : Rat) / 1000000000 = n / 1000000 := by
    rw [hn]
    push_cast
    ring
  exact abs_mul_sub_le (by norm_num) (hseconds ▸ abs_writtenSeconds_sub_le hk h)

/-- Whole microseconds are read as they are below `2 ^ 32` seconds, where products near an integer
    are near enough to it, and from `2 ^ 52` microseconds up to `2 ^ 33` seconds, where products are
    integers. -/
theorem readMicros_eq {n : Int} (hn : nanos = n * 1000)
    (h : nanos.natAbs < 2 ^ 32 * 1000000000 ∨
      4503599627370496000 ≤ nanos.natAbs ∧ nanos.natAbs < 2 ^ 33 * 1000000000) :
    readMicros nanos = n := by
  rcases h with hnear | ⟨hfar, hlt⟩
  · -- The error is less than a quarter, and only from there on the middle can be hit.
    have herror := abs_scaled_sub_le hn (by norm_num) hnear
    norm_num at herror
    have hzero (h0 : n = 0) : |writtenSeconds nanos * 1000000| < 1 / 4 := by
      rw [h0, Int.cast_zero, sub_zero] at herror
      exact herror.trans_lt (by norm_num)
    rcases halfAway_rounded_of_near (herror.trans_lt (by norm_num)) (by omega) hzero with
      heq | ⟨-, hquarter, -⟩
    · exact heq
    · have hless := hquarter.trans herror
      norm_num at hless
  · -- The error is less than a half, and there is no place for the middle any more.
    have herror := abs_scaled_sub_le hn (by norm_num) hlt
    norm_num at herror
    rcases halfAway_rounded_of_near (herror.trans_lt (by norm_num)) (by omega) (by omega) with
      heq | ⟨hless, -⟩
    · exact heq
    · omega

/-- A number is `rounded` by a share of it, and by next to nothing where it is near zero. -/
theorem abs_rounded_double_sub_le (q : Rat) :
    |rounded Format.double q - q| ≤ |q| / 2 ^ 53 + 1 / 2 ^ 60 := by
  -- Half the least exponent is far below the absolute error that is allowed.
  have hleast : (2 : Rat) ^ Format.double.minExp / 2 ≤ 1 / 2 ^ 60 := by
    calc (2 : Rat) ^ Format.double.minExp / 2 ≤ 2 ^ (-60 : Int) / 2 := by
          gcongr
          · norm_num
          · decide
      _ ≤ 1 / 2 ^ 60 := by norm_num
  have hprecision : (2 : Rat) ^ Format.double.precision = 2 ^ 53 := rfl
  refine (abs_rounded_sub_le q).trans ?_
  rw [hprecision]
  gcongr

/-- What is read is off by a share of the span, and by less than a microsecond. -/
theorem abs_micros_sub_le (h : nanos.natAbs ≤ 2 ^ 53 * 1000000000) :
    |(readMicros nanos : Rat) * 1000 - nanos| ≤ |(nanos : Rat)| / 2 ^ 52 + 1000 := by
  have hbound : |(nanos : Rat)| ≤ 2 ^ 53 * 1000000000 := by exact_mod_cast abs_cast_le h
  set x : Rat := nanos / 1000000000 with hx
  set sum : Rat := (nanos.tdiv 1000000000 : Int) + fraction nanos with hsum
  set product : Rat := writtenSeconds nanos * 1000000 with hproduct
  -- The fraction, the sum, the product and the number of microseconds are rounded, one by one.
  have hfractionError : |sum - x| ≤ 1 / 2 ^ 54 := abs_sum_sub_le nanos
  have hsumError : |writtenSeconds nanos - sum| ≤ |sum| / 2 ^ 53 + 1 / 2 ^ 60 := by
    rw [writtenSeconds, rounded_tdiv h]
    exact abs_rounded_double_sub_le sum
  have hproductError := abs_rounded_double_sub_le product
  have hmicrosError := Rounding.abs_halfAway_sub_le (rounded Format.double product)
  -- The magnitudes that the errors are shares of are bounded by that of the span.
  have hsumle : |sum| ≤ |x| + 1 / 2 ^ 54 := by linarith [abs_sub_abs_le_abs_sub sum x]
  have hsecondsle : |writtenSeconds nanos| ≤ |sum| + (|sum| / 2 ^ 53 + 1 / 2 ^ 60) := by
    linarith [abs_sub_abs_le_abs_sub (writtenSeconds nanos) sum]
  have hproductle : |product| = |writtenSeconds nanos| * 1000000 := by
    rw [hproduct, abs_mul, abs_of_pos (by norm_num : (0 : Rat) < 1000000)]
  have hxabs : |x| = |(nanos : Rat)| / 1000000000 := by
    rw [hx, abs_div, abs_of_pos (by norm_num : (0 : Rat) < 1000000000)]
  have hnanos : (nanos : Rat) = x * 1000000000 := by
    rw [hx]
    ring
  have hmicros : (readMicros nanos : Rat) =
      Rounding.halfAway (rounded Format.double product) := rfl
  rw [hproductle] at hproductError
  rw [abs_le] at hfractionError hsumError hproductError hmicrosError ⊢
  -- What is left is linear in the seconds, the errors and the magnitudes.
  rw [hmicros]
  constructor <;> linarith

end Errors

/-! ## Spans that are refused -/

section Refused

variable {nanos m n : Int}

/-- The `fraction` of a span that is not negative is not negative. -/
theorem fraction_nonneg (h : 0 ≤ nanos) : 0 ≤ fraction nanos := by
  refine rounded_nonneg Format.double_valid ?_
  have hmod : (0 : Rat) ≤ (nanos.tmod 1000000000 : Int) := by
    exact_mod_cast Int.tmod_nonneg 1000000000 h
  positivity

/-- More seconds are written of more nanoseconds. The whole seconds of `m` are kept, so its fraction
    does not take it past the next whole second. -/
theorem writtenSeconds_mono (hm : 0 ≤ m) (hmn : m ≤ n) (h : m < 2 ^ 53 * 1000000000) :
    writtenSeconds m ≤ writtenSeconds n := by
  have hkept : rounded Format.double (m.tdiv 1000000000 : Int) = (m.tdiv 1000000000 : Int) :=
    rounded_tdiv (by omega)
  refine rounded_mono Format.double_valid ?_
  rw [hkept]
  rcases (Int.tdiv_le_tdiv (by norm_num) hmn : m.tdiv 1000000000 ≤ n.tdiv 1000000000).eq_or_lt with
    heq | hlt
  · -- Of the same whole second the fractions are compared.
    have hmod : m.tmod 1000000000 ≤ n.tmod 1000000000 := by
      have hm := Int.tdiv_mul_add_tmod m 1000000000
      have hn := Int.tdiv_mul_add_tmod n 1000000000
      omega
    have hfraction : fraction m ≤ fraction n := by
      refine rounded_mono Format.double_valid ?_
      gcongr
    rw [← heq, hkept]
    gcongr
  · -- The next whole second lies between the two sums.
    have hnext : (m.tdiv 1000000000 + 1).natAbs ≤ 9007199254740992 := by
      rw [Int.tdiv_eq_ediv_of_nonneg hm]
      omega
    have hround := rounded_mono Format.double_valid
      (Int.cast_le (R := Rat).mpr (Int.add_one_le_of_lt hlt))
    rw [rounded_intCast hnext] at hround
    push_cast at hround
    linarith [fraction_nonneg (hm.trans hmn), (abs_le.mp (abs_fraction_le m)).2]

theorem writtenSeconds_nonneg (h : 0 ≤ nanos) : 0 ≤ writtenSeconds nanos := by
  refine rounded_nonneg Format.double_valid (add_nonneg ?_ (fraction_nonneg h))
  refine rounded_nonneg Format.double_valid ?_
  exact_mod_cast Int.tdiv_nonneg h (by norm_num)

/-- The product that is rounded to whole microseconds is not negative for a span that is not. -/
theorem rounded_micros_nonneg (h : 0 ≤ nanos) :
    0 ≤ rounded Format.double (writtenSeconds nanos * 1000000) :=
  rounded_nonneg Format.double_valid (mul_nonneg (writtenSeconds_nonneg h) (by norm_num))

theorem readMicros_nonneg (h : 0 ≤ nanos) : 0 ≤ readMicros nanos := by
  rw [readMicros, Rounding.le_halfAway_iff (rounded_micros_nonneg h)]
  exact le_trans (by norm_num) (rounded_micros_nonneg h)

/-- More microseconds are read of more nanoseconds, since each step on the way is monotone. -/
theorem readMicros_mono (hm : 0 ≤ m) (hmn : m ≤ n) (h : m < 2 ^ 53 * 1000000000) :
    readMicros m ≤ readMicros n := by
  have hround : rounded Format.double (writtenSeconds m * 1000000) ≤
      rounded Format.double (writtenSeconds n * 1000000) :=
    rounded_mono Format.double_valid
      (mul_le_mul_of_nonneg_right (writtenSeconds_mono hm hmn h) (by norm_num))
  rw [readMicros, readMicros, Rounding.le_halfAway_iff (rounded_micros_nonneg (hm.trans hmn))]
  exact ((Rounding.le_halfAway_iff (rounded_micros_nonneg hm)).mp le_rfl).trans hround

/-- The number of microseconds has the size that it has for the span to the future, by
    `readMicros_neg`. -/
theorem natAbs_readMicros (nanos : Int) :
    ((readMicros nanos).natAbs : Int) = readMicros nanos.natAbs := by
  rw [← Int.natAbs_of_nonneg (readMicros_nonneg (Int.natCast_nonneg nanos.natAbs))]
  rcases Int.natAbs_eq nanos with h | h
  · rw [← h]
  · rw [← neg_eq_iff_eq_neg.mpr h, readMicros_neg, Int.natAbs_neg]

/-- The least number of nanoseconds whose seconds make more microseconds than a word holds. -/
def leastRefused : Nat := 9223372036854774414063

/-- The microseconds that are read do not fit a word from `leastRefused` nanoseconds on. The two
    numbers next to the limit are evaluated, and `readMicros_mono` does the rest. -/
theorem le_readMicros_iff (nanos : Int) :
    2 ^ 63 ≤ (readMicros nanos).natAbs ↔ leastRefused ≤ nanos.natAbs := by
  have hlast : readMicros 9223372036854774414062 < 2 ^ 63 := by decide +kernel
  have hfirst : 2 ^ 63 ≤ readMicros 9223372036854774414063 := by decide +kernel
  rw [← Int.ofNat_le, natAbs_readMicros, leastRefused]
  generalize nanos.natAbs = k
  constructor
  · intro hle
    -- Any lesser number reads as no more than the last one that fits.
    by_contra hlt
    have hmono := readMicros_mono (n := 9223372036854774414062) (Int.natCast_nonneg k)
      (by omega) (by omega)
    omega
  · intro hle
    -- Any greater number reads as no less than the first one that does not.
    have hmono := readMicros_mono (m := 9223372036854774414063) (n := k) (by norm_num)
      (by omega) (by norm_num)
    omega

end Refused

/-! ## Reading what was written -/

/-- The greatest word is rounded up to `2 ^ 63` in the wide format. -/
theorem toRat?_greatestWord :
    (Binary.ofInt IntKind.i64.greatest : Binary64).toRat? = some (2 ^ 63) := by
  decide +kernel

/-- The seconds of a span are refused as `outOfRange` where its microseconds do not fit a word. -/
theorem spanOfSeconds_of_le {d : Span} (h : 2 ^ 63 ≤ (readMicros d.nanos).natAbs) :
    spanOfSeconds (spanSeconds d) = .error (.number (spanSeconds d) .outOfRange Ty.span.text) := by
  have hmicros := (toRat?_spanSeconds d).2
  -- At the limit the product is at least the greatest word, as it is rounded up.
  have hfull : (Binary.ofInt IntKind.i64.greatest).le
      (spanSeconds d * Binary.ofInt 1000000).roundHalfAway.abs = true := by
    rw [le_iff_of_toRat? toRat?_greatestWord (toRat?_abs hmicros), abs_intCast]
    exact_mod_cast h
  rw [spanOfSeconds]
  simp only [hfull, Bool.or_true, if_true]

/-- The seconds of a span are read as its `readMicros` where these fit a word. -/
theorem spanOfSeconds_of_lt {d : Span} (h : (readMicros d.nanos).natAbs < 2 ^ 63) :
    ∃ d', spanOfSeconds (spanSeconds d) = .ok d' ∧ d'.nanos = readMicros d.nanos * 1000 := by
  have hmicros := (toRat?_spanSeconds d).2
  have hfinite := isFinite_of_toRat? hmicros
  have hfits : (Binary.ofInt IntKind.i64.greatest).le
      (spanSeconds d * Binary.ofInt 1000000).roundHalfAway.abs = false := by
    rw [← Bool.not_eq_true, le_iff_of_toRat? toRat?_greatestWord (toRat?_abs hmicros), abs_intCast,
      not_le]
    exact_mod_cast h
  have hword : toWord (spanSeconds d * Binary.ofInt 1000000).roundHalfAway = readMicros d.nanos :=
    clampToInt_of_toRat? hmicros (by simp only [IntKind.least]; omega)
      (by simp only [IntKind.greatest]; omega)
  -- A word of microseconds is at most the longest span, which is counted in milliseconds.
  have hin : -Time.longestSpan ≤ readMicros d.nanos * 1000 ∧
      readMicros d.nanos * 1000 ≤ Time.longestSpan := by
    simp only [Time.longestSpan, IntKind.greatest]
    omega
  refine ⟨⟨_, hin⟩, ?_, rfl⟩
  rw [spanOfSeconds]
  simp only [hfinite, hfits, hword, Span.ofNanos?, dif_pos hin]
  rfl

/-- Writing a span and reading the document is reading its `spanSeconds`. -/
theorem encode_bind_decode (d : Span) :
    (Leaf.span.encode (.span d) >>= Leaf.span.decode) =
      (spanOfSeconds (spanSeconds d)).map .span := by
  rw [Leaf.encode]
  rfl

/-- The document of a span is refused exactly where the span has `leastRefused` or more nanoseconds
    to one side. Any other span is read back as whole microseconds near it. What is read is the span
    itself where that is of whole microseconds and of less than `2 ^ 32` seconds, or of `2 ^ 52`
    microseconds or more and of less than `2 ^ 33` seconds. -/
theorem decode_encode_span (d : Span) :
    ((Leaf.span.encode (.span d) >>= Leaf.span.decode) =
        .error (.number (spanSeconds d) .outOfRange Ty.span.text) ↔
      leastRefused ≤ d.nanos.natAbs) ∧
    (d.nanos.natAbs < leastRefused →
      ∃ d' : Span, (Leaf.span.encode (.span d) >>= Leaf.span.decode) = .ok (.span d') ∧
        (1000 : Int) ∣ d'.nanos ∧
        |(d'.nanos : Rat) - d.nanos| ≤ |(d.nanos : Rat)| / 2 ^ 52 + 1000 ∧
        ((1000 : Int) ∣ d.nanos →
          d.nanos.natAbs < 2 ^ 32 * 1000000000 ∨
            2 ^ 52 * 1000 ≤ d.nanos.natAbs ∧ d.nanos.natAbs < 2 ^ 33 * 1000000000 →
          d' = d)) := by
  -- Both sides of the limit follow from the whole microseconds that are read.
  rw [encode_bind_decode]
  rcases le_or_gt (2 ^ 63) (readMicros d.nanos).natAbs with hle | hlt
  · have hrefused := (le_readMicros_iff d.nanos).mp hle
    rw [spanOfSeconds_of_le hle]
    exact ⟨iff_of_true rfl hrefused, fun hless => absurd hrefused (not_le.mpr hless)⟩
  · -- Below the limit the number is read, as `hok` says.
    have hless : d.nanos.natAbs < leastRefused := by
      rw [← not_le, ← le_readMicros_iff, not_le]
      exact hlt
    obtain ⟨d', hok, hnanos⟩ := spanOfSeconds_of_lt hlt
    rw [hok]
    refine ⟨iff_of_false nofun (not_le.mpr hless), fun _ => ⟨d', rfl, ?_, ?_, ?_⟩⟩
    · -- What is read is a number of microseconds.
      exact hnanos ▸ Int.dvd_mul_left _ _
    · -- Below the limit whole seconds have far fewer than 53 bits, as the error bound asks.
      have hbound : d.nanos.natAbs ≤ 2 ^ 53 * 1000000000 := hless.le.trans (by decide)
      rw [hnanos]
      exact_mod_cast abs_micros_sub_le hbound
    · -- An exact number of them comes back where the float has room for it.
      rintro ⟨n, hn⟩ hexact
      have hn : d.nanos = n * 1000 := hn.trans (mul_comm _ _)
      cases d
      cases d'
      rw [readMicros_eq hn hexact, ← hn] at hnanos
      exact (Span.mk.injEq ..).mpr hnanos

/-- An hour and a microsecond to the past. -/
def pastHour : Span := ⟨-3600000001 * 1000, by decide⟩

/-- The span `pastHour` is read back; its seconds are in the first of the two ranges. -/
theorem decode_encode_span_pastHour :
    (1000 : Int) ∣ pastHour.nanos ∧ pastHour.nanos.natAbs < 2 ^ 32 * 1000000000 ∧
      (Leaf.span.encode (.span pastHour) >>= Leaf.span.decode) = .ok (.span pastHour) := by
  have hmicros : (1000 : Int) ∣ pastHour.nanos := by decide
  have hnear : pastHour.nanos.natAbs < 2 ^ 32 * 1000000000 := by decide
  obtain ⟨d', hread, -, -, hsame⟩ := (decode_encode_span pastHour).2 (by decide)
  exact ⟨hmicros, hnear, by rw [hread, hsame hmicros (.inl hnear)]⟩

/-- Ten million million seconds make more microseconds than a word counts. -/
def farSpan : Span := ⟨10000000000000 * 1000000000, by decide⟩

/-- From `2 ^ 33` seconds on there is no number of seconds for every microsecond. -/
def coarseSpan : Span := ⟨8589934592000001 * 1000, by decide⟩

/-- Both spans are of whole microseconds. The document of `farSpan` is refused, and that of
    `coarseSpan` is read as a microsecond more. -/
theorem not_decode_encode_span :
    ((1000 : Int) ∣ farSpan.nanos ∧
      (Leaf.span.encode (.span farSpan) >>= Leaf.span.decode) =
        .error (.number (spanSeconds farSpan) .outOfRange Ty.span.text)) ∧
    (1000 : Int) ∣ coarseSpan.nanos ∧
      (Leaf.span.encode (.span coarseSpan) >>= Leaf.span.decode) =
        .ok (.span ⟨8589934592000002 * 1000, by decide⟩) := by
  -- What is read of the two spans, by evaluation.
  have hfar : 2 ^ 63 ≤ (readMicros farSpan.nanos).natAbs := by decide +kernel
  have hcoarse : readMicros coarseSpan.nanos = 8589934592000002 := by decide +kernel
  obtain ⟨⟨nanos, hin⟩, hread, hnanos⟩ := spanOfSeconds_of_lt (d := coarseSpan)
    (hcoarse ▸ by decide)
  obtain rfl : nanos = 8589934592000002 * 1000 := hcoarse ▸ hnanos
  rw [encode_bind_decode, encode_bind_decode, spanOfSeconds_of_le hfar, hread]
  exact ⟨⟨by decide, rfl⟩, by decide, rfl⟩

end DocQuery.Codec
