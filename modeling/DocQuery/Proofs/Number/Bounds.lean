import DocQuery.Number.Integer
import DocQuery.Proofs.Number.Exact

/-!
# Bounds that rounding keeps

A magnitude at most as great as a number of the format rounds to a finite number that is at most as
great, and one at least as great does not round to a smaller number. Between two numbers that are
rounded their order is kept too, though they may become equal.

## Key results

- `Rounding.toEven_le`, `Rounding.le_toEven`: rounding to integers keeps integer bounds
- `Binary.exists_roundMagnitude_le`: a bounded magnitude rounds to a finite number with the bound
- `Binary.le_abs_of_roundMagnitude`: a magnitude bounded from below keeps that bound
- `Binary.rounded_mono`, `Binary.round_mono`: rounding is monotone
- `Binary.exists_add_eq_round` and the like: operations are the exact ones, rounded
- `Binary.Bounded.add`, `Binary.Bounded.div`: sums and quotients of bounded numbers are bounded
-/

namespace DocQuery

namespace Rounding

/-- `toEven` takes a number at most an integer to at most the integer. -/
theorem toEven_le {q : Rat} {n : Int} (h : q ≤ n) : toEven q ≤ n := by
  have hfloor : q.floor ≤ n := by
    have : (q.floor : Rat) ≤ n := (Rat.floor_le q).trans h
    exact_mod_cast this
  rcases hfloor.eq_or_lt with heq | hlt
  · -- The number is the integer.
    have hq : q = n := le_antisymm h (heq ▸ Rat.floor_le q)
    rw [hq, toEven_intCast]
  · -- The integer is at least the next one after the floor.
    simp only [toEven]
    split_ifs <;> omega

/-- `toEven` takes a number at least an integer to at least the integer. -/
theorem le_toEven {q : Rat} {n : Int} (h : (n : Rat) ≤ q) : n ≤ toEven q := by
  have hfloor : n ≤ q.floor := Rat.le_floor_iff.mpr h
  simp only [toEven]
  split_ifs <;> omega

/-- `toEven` is monotone. -/
theorem toEven_mono {p q : Rat} (h : p ≤ q) : toEven p ≤ toEven q := by
  have hfloor : p.floor ≤ q.floor := Rat.le_floor_iff.mpr ((Rat.floor_le p).trans h)
  rcases hfloor.eq_or_lt with heq | hlt
  · -- Between the same two integers a greater number does not go to the smaller one.
    simp only [toEven, heq]
    split_ifs <;> first | omega | linarith
  · -- With different floors an integer stands between the two numbers.
    have hnext : ((p.floor + 1 : Int) : Rat) ≤ q.floor := by exact_mod_cast hlt
    have hle : p ≤ q.floor := (Rat.lt_floor_add_one p).le.trans hnext
    exact (toEven_le hle).trans (le_toEven (Rat.floor_le q))

/-- `log2` is monotone. -/
theorem log2_le_log2 {p q : Rat} (hp : 0 < p) (h : p ≤ q) : log2 p ≤ log2 q := by
  have hlt : (2 : Rat) ^ log2 p < 2 ^ (log2 q + 1) :=
    ((log2_spec hp).1.trans h).trans_lt (log2_spec (hp.trans_le h)).2
  have := (zpow_lt_zpow_iff_right₀ (by norm_num : (1 : Rat) < 2)).mp hlt
  omega

end Rounding

namespace Binary

variable {F : Format} {q bound : Rat}

/-- A number is a whole number of steps `2 ^ e` of each smaller exponent. -/
private theorem exists_scaled (mant : Nat) {e exp : Int} (he : e ≤ exp) :
    ∃ n : Int, (mant : Rat) * 2 ^ exp = n * 2 ^ e := by
  obtain ⟨k, hk⟩ : ∃ k : Nat, exp = e + k := ⟨(exp - e).toNat, by omega⟩
  refine ⟨mant * 2 ^ k, ?_⟩
  rw [hk, zpow_add₀ (by norm_num), zpow_natCast]
  push_cast
  ring

/-- A number scaled by `2 ^ e` rounds to at most as great as a bound with a greater exponent. -/
private theorem toEven_scaled_le {mant : Nat} {e exp : Int} (hbound : bound = mant * 2 ^ exp)
    (hle : q ≤ bound) (he : e ≤ exp) : (Rounding.toEven (q / 2 ^ e) : Rat) * 2 ^ e ≤ bound := by
  obtain ⟨n, hn⟩ := exists_scaled mant he
  rw [hbound, hn] at hle ⊢
  have hround : Rounding.toEven (q / 2 ^ e) ≤ n :=
    Rounding.toEven_le ((div_le_iff₀ (by positivity)).mpr hle)
  gcongr

/-- With an exponent from that of rounding on a number is scaled to at most `2 ^ F.precision`. -/
private theorem toEven_scaled_le_pow (hpos : 0 < q) {e : Int}
    (he : Rounding.log2 q - (F.precision - 1) ≤ e) :
    Rounding.toEven (q / 2 ^ e) ≤ (2 ^ F.precision : Nat) := by
  -- It is enough to bound the quotient, since the bound is an integer.
  apply Rounding.toEven_le
  rw [div_le_iff₀ (by positivity)]
  calc q ≤ 2 ^ (Rounding.log2 q + 1) := (Rounding.log2_spec hpos).2.le
    _ ≤ 2 ^ ((F.precision : Int) + e) := by
      apply zpow_le_zpow_right₀ (by norm_num)
      omega
    _ = (((2 ^ F.precision : Nat) : Int) : Rat) * 2 ^ e := by
      rw [zpow_add₀ (by norm_num), zpow_natCast]
      push_cast
      rfl

/-- With the exponent of rounding a number is scaled to one with its leading bit, at least
    `2 ^ (F.precision - 1)`. -/
private theorem le_toEven_scaled (hF : F.Valid) (hpos : 0 < q) {e : Int}
    (he : e = Rounding.log2 q - (F.precision - 1)) :
    ((2 ^ (F.precision - 1) : Nat) : Int) ≤ Rounding.toEven (q / 2 ^ e) := by
  have hp := hF.precision_pos
  -- As above, the other way round: the quotient has all bits of the precision.
  apply Rounding.le_toEven
  rw [le_div_iff₀ (by positivity)]
  calc (((2 ^ (F.precision - 1) : Nat) : Int) : Rat) * 2 ^ e
      = 2 ^ (((F.precision - 1 : Nat) : Int) + e) := by
        rw [zpow_add₀ (by norm_num), zpow_natCast]
        push_cast
        rfl
    -- The exponents add up to the logarithm.
    _ = 2 ^ Rounding.log2 q := by
      congr 1
      omega
    _ ≤ q := (Rounding.log2_spec hpos).1

/-- The power `2 ^ F.precision` that a mantissa may be rounded up to is written with the next
    exponent. -/
private theorem two_pow_scaled (hF : F.Valid) (e : Int) :
    ((2 ^ (F.precision - 1) : Nat) : Rat) * 2 ^ (e + 1) =
      ((2 ^ F.precision : Nat) : Rat) * 2 ^ e := by
  have hdouble : 2 ^ F.precision = 2 ^ (F.precision - 1) * 2 := by
    rw [← pow_succ, Nat.sub_add_cancel hF.precision_pos]
  rw [hdouble, zpow_add_one₀ (by norm_num)]
  push_cast
  ring

/-- A positive number rounds to a mantissa with the exponent of rounding, or to the power of two
    after all mantissas. This is what `roundMagnitude` can do; the lemmas below take it from
    here. -/
private theorem exists_roundMagnitude (hpos : 0 < q) {e : Int}
    (he : e = max F.minExp (Rounding.log2 q - (F.precision - 1))) (negative : Bool) :
    ∃ n : Nat, Rounding.toEven (q / 2 ^ e) = n ∧
      (n < 2 ^ F.precision ∧ (roundMagnitude negative q : Binary F) = ofParts negative n e ∨
        n = 2 ^ F.precision ∧ (roundMagnitude negative q : Binary F) =
          ofParts negative (2 ^ (F.precision - 1)) (e + 1)) := by
  obtain ⟨n, hn⟩ := Int.eq_ofNat_of_zero_le
    (Rounding.le_toEven (q := q / 2 ^ e) (by positivity))
  -- The rounded mantissa is at most one past the greatest of the precision.
  have hpow := toEven_scaled_le_pow (F := F) hpos (he ▸ le_max_right F.minExp _)
  rw [hn] at hpow
  have hpow : n ≤ 2 ^ F.precision := by exact_mod_cast hpow
  have htoNat : (Rounding.toEven (q / 2 ^ e)).toNat = n := by rw [hn, Int.toNat_natCast]
  simp only [roundMagnitude, hpos.ne', if_false, ← he, htoNat]
  refine ⟨n, hn, ?_⟩
  -- Below that it fits, and otherwise it is halved and the exponent raised.
  rcases hpow.lt_or_eq with hlt | heq
  · exact .inl ⟨hlt, if_pos hlt⟩
  · exact .inr ⟨heq, if_neg heq.not_lt⟩

/-- A magnitude at most as great as a number that the format `Keeps` rounds to a finite number with
    that bound. -/
theorem exists_roundMagnitude_le (hF : F.Valid) (hbound : F.Keeps bound) (hnonneg : 0 ≤ q)
    (hle : q ≤ bound) (negative : Bool) :
    ∃ (mant : Nat) (exp : Int) (h : F.Canonical mant exp),
      roundMagnitude negative q = finite negative mant exp h ∧ (mant : Rat) * 2 ^ exp ≤ bound := by
  -- Zero is a number of the format, and rounds to itself.
  rcases hnonneg.eq_or_lt with rfl | hpos
  · obtain ⟨m, e, h, hround, hval⟩ := roundMagnitude_of_keeps hF hF.keeps_zero negative
    exact ⟨m, e, h, hround, hval ▸ hle⟩
  · obtain ⟨mb, eb, hb, -, hvalue⟩ := roundMagnitude_of_keeps hF hbound false
    have hp := hF.precision_pos
    -- The exponent that `roundMagnitude` settles on is at most that of the bound.
    set e : Int := max F.minExp (Rounding.log2 q - (F.precision - 1)) with he
    have heb : e ≤ eb := by
      have hlog := Rounding.log2_le_log2 hpos hle
      have hexp := exponent_le (F := F) (hpos.trans_le hle) hvalue hb.1
      exact max_le hb.2.1 (by omega)
    obtain ⟨n, hn, hrounds⟩ := exists_roundMagnitude hpos he negative
    have hscaled := toEven_scaled_le hvalue hle heb
    rw [hn] at hscaled
    have hscaled : (n : Rat) * 2 ^ e ≤ bound := by exact_mod_cast hscaled
    -- The mantissa has its leading bit, or the exponent is the least one.
    rcases hrounds with ⟨hlt, hround⟩ | ⟨heq, hround⟩
    · have hlead : 2 ^ (F.precision - 1) ≤ n ∨ e = F.minExp := by
        rcases max_choice F.minExp (Rounding.log2 q - (F.precision - 1)) with hc | hc
        · exact Or.inr (he.trans hc)
        · have hle := le_toEven_scaled hF hpos (he.trans hc)
          rw [hn] at hle
          exact Or.inl (by exact_mod_cast hle)
      have hcanonical : F.Canonical n e := ⟨hlt, le_max_left _ _, heb.trans hb.2.2.1, hlead⟩
      exact ⟨n, e, hcanonical, by rw [hround, ofParts, dif_pos hcanonical], hscaled⟩
    · -- Rounding up led to a power of two, which is still at most as great as the bound.
      have hsame : ((2 ^ (F.precision - 1) : Nat) : Rat) * 2 ^ (e + 1) = n * 2 ^ e :=
        heq ▸ two_pow_scaled hF e
      -- With the exponent of the bound the power would be past its mantissa.
      have hlt : e < eb := by
        by_contra hge
        have hmant : (mb : Rat) < 2 ^ F.precision := by exact_mod_cast hb.1
        have hmore : (mb : Rat) * 2 ^ eb < n * 2 ^ e := by
          rw [heq, le_antisymm heb (not_lt.mp hge)]
          push_cast
          gcongr
        exact absurd hscaled (not_le.mpr (hvalue ▸ hmore))
      have hcanonical : F.Canonical (2 ^ (F.precision - 1)) (e + 1) := by
        refine ⟨?_, (le_max_left _ _).trans (Int.le_add_one (le_refl e)),
          (Int.add_one_le_of_lt hlt).trans hb.2.2.1, Or.inl (le_refl _)⟩
        exact Nat.pow_lt_pow_right (by norm_num) (Nat.sub_lt hp Nat.one_pos)
      exact ⟨_, _, hcanonical, by rw [hround, ofParts, dif_pos hcanonical], hsame.trans_le hscaled⟩

/-- A scaled number is at least as great as a bound that the format `Keeps`. -/
private theorem le_toEven_scaled_of_keeps (hF : F.Valid) (hbound : F.Keeps bound) (hpos : 0 < q)
    (hle : bound ≤ q) {e : Int} (he : e = max F.minExp (Rounding.log2 q - (F.precision - 1))) :
    bound ≤ (Rounding.toEven (q / 2 ^ e) : Rat) * 2 ^ e := by
  obtain ⟨mant, exp, hvalue, hmant, hexp, -⟩ := hbound
  rcases le_or_gt e exp with hcoarse | hfine
  · -- The bound is a whole number of steps, so rounding does not pass it.
    obtain ⟨n, hn⟩ := exists_scaled mant hcoarse
    rw [hvalue, hn] at hle ⊢
    have hround : n ≤ Rounding.toEven (q / 2 ^ e) :=
      Rounding.le_toEven ((le_div_iff₀ (by positivity)).mpr hle)
    gcongr
  · -- The number has its leading bit, which is above all bits of the bound.
    have hlead : e = Rounding.log2 q - (F.precision - 1) :=
      he.trans (max_eq_right (by omega))
    have hround := le_toEven_scaled hF hpos hlead
    have hmant : (mant : Rat) ≤ (2 ^ F.precision : Nat) := by exact_mod_cast hmant.le
    calc bound = mant * 2 ^ exp := hvalue
      _ ≤ ((2 ^ F.precision : Nat) : Rat) * 2 ^ (e - 1) := by
        gcongr
        · norm_num
        · omega
      _ = (((2 ^ (F.precision - 1) : Nat) : Int) : Rat) * 2 ^ e := by
        rw [← two_pow_scaled hF (e - 1), sub_add_cancel]
        push_cast
        rfl
      _ ≤ Rounding.toEven (q / 2 ^ e) * 2 ^ e := by gcongr

/-- `Rat.abs`, as the operations compute it, is the absolute value `|q|` of the order. -/
theorem abs_eq_abs (q : Rat) : q.abs = |q| := by
  rcases le_total 0 q with hq | hq
  · rw [abs_of_nonneg hq, Rat.abs_of_nonneg hq]
  · rw [abs_of_nonpos hq, Rat.abs_of_nonpos hq]

theorem abs_cast_le {n : Int} {k : Nat} (h : n.natAbs ≤ k) : |(n : Rat)| ≤ k := by
  rw [← abs_eq_abs, abs_intCast]
  exact_mod_cast h

/-- The exponent of rounding, as `roundMagnitude` takes it: that of the leading bit, or the least
    one of the format. -/
def roundingExp (F : Format) (q : Rat) : Int :=
  max F.minExp (Rounding.log2 q - (F.precision - 1))

/-- What a magnitude is rounded to where exponents have no upper end: a whole number of steps of
    `roundingExp`. -/
def nearest (F : Format) (q : Rat) : Rat :=
  Rounding.toEven (q / 2 ^ roundingExp F q) * 2 ^ roundingExp F q

/-- A positive number that `roundMagnitude` takes to a finite one is taken to `nearest` with its
    sign. -/
theorem eq_nearest_of_roundMagnitude (hF : F.Valid) (hpos : 0 < q) {negative : Bool} {r : Rat}
    (h : (roundMagnitude negative q : Binary F).toRat? = some r) :
    r = if negative then -nearest F q else nearest F q := by
  obtain ⟨n, hn, hrounds⟩ := exists_roundMagnitude (F := F) hpos rfl negative
  have hnearest : nearest F q = n * 2 ^ roundingExp F q := by
    rw [nearest, roundingExp, hn]
    norm_cast
  -- In both cases the parts have the value of the rounded mantissa.
  have hparts : ∀ (m : Nat) (d : Int), (m : Rat) * 2 ^ d = n * 2 ^ roundingExp F q →
      (ofParts negative m d : Binary F).toRat? = some r →
        r = if negative then -nearest F q else nearest F q := by
    intro m d hvalue hr
    rw [ofParts] at hr
    split at hr
    · rw [← Option.some.inj hr, exact, hvalue, hnearest]
    · cases hr
  rcases hrounds with ⟨-, hround⟩ | ⟨heq, hround⟩
  · exact hparts _ _ rfl (hround ▸ h)
  · exact hparts _ _ (heq ▸ two_pow_scaled hF _) (hround ▸ h)

/-- `nearest` does not go below zero. -/
theorem nearest_nonneg (hnonneg : 0 ≤ q) : 0 ≤ nearest F q := by
  have hround : 0 ≤ Rounding.toEven (q / 2 ^ roundingExp F q) :=
    Rounding.le_toEven (by positivity)
  have hround : (0 : Rat) ≤ Rounding.toEven (q / 2 ^ roundingExp F q) := by exact_mod_cast hround
  unfold nearest
  positivity

theorem nearest_zero : nearest F 0 = 0 := by
  have hround : Rounding.toEven 0 = 0 := Rounding.toEven_intCast 0
  rw [nearest, zero_div, hround, Int.cast_zero, zero_mul]

/-- `roundMagnitude` takes no magnitude at least as great as a number of the format to a smaller
    one. -/
theorem le_abs_of_roundMagnitude (hF : F.Valid) (hbound : F.Keeps bound) (hle : bound ≤ q)
    {negative : Bool} {r : Rat} (h : (roundMagnitude negative q : Binary F).toRat? = some r) :
    bound ≤ r.abs := by
  -- A bound that is not positive says nothing.
  rcases le_or_gt bound 0 with hnonpos | hbpos
  · exact hnonpos.trans Rat.abs_nonneg
  have hpos : 0 < q := hbpos.trans_le hle
  -- Both signs have one magnitude.
  have habs : r.abs = nearest F q := by
    rw [eq_nearest_of_roundMagnitude hF hpos h]
    cases negative <;> simp [Rat.abs_of_nonneg (nearest_nonneg hpos.le)]
  rw [habs]
  exact le_toEven_scaled_of_keeps hF hbound hpos hle rfl

/-- `nearest` is monotone on magnitudes. -/
theorem nearest_mono {p : Rat} (hF : F.Valid) (hnonneg : 0 ≤ p) (h : p ≤ q) :
    nearest F p ≤ nearest F q := by
  rcases hnonneg.eq_or_lt with rfl | hpos
  · rw [nearest_zero]
    exact nearest_nonneg h
  have hexp : roundingExp F p ≤ roundingExp F q :=
    max_le_max_left _ (Int.sub_le_sub_right (Rounding.log2_le_log2 hpos h) _)
  rcases hexp.eq_or_lt with heq | hlt
  · -- With one exponent the mantissas are rounded.
    have hround : Rounding.toEven (p / 2 ^ roundingExp F q) ≤
        Rounding.toEven (q / 2 ^ roundingExp F q) :=
      Rounding.toEven_mono (by gcongr)
    rw [nearest, nearest, heq]
    gcongr
  · -- The power of two with the next exponent stands between the two.
    have hlead : roundingExp F q = Rounding.log2 q - (F.precision - 1) :=
      max_eq_right (le_of_not_ge fun hge =>
        hlt.not_ge ((max_eq_left hge).trans_le (le_max_left ..)))
    have hbelow := toEven_scaled_le_pow (F := F) hpos (le_max_right F.minExp _)
    have habove := le_toEven_scaled hF (hpos.trans_le h) hlead
    calc nearest F p ≤ (((2 ^ F.precision : Nat) : Int) : Rat) * 2 ^ roundingExp F p := by
          unfold nearest
          gcongr
          exact hbelow
      _ ≤ ((2 ^ F.precision : Nat) : Rat) * 2 ^ (roundingExp F q - 1) := by
          push_cast
          gcongr
          · norm_num
          · omega
      _ = (((2 ^ (F.precision - 1) : Nat) : Int) : Rat) * 2 ^ roundingExp F q := by
          rw [← two_pow_scaled hF (roundingExp F q - 1), sub_add_cancel]
          push_cast
          rfl
      _ ≤ nearest F q := by
          unfold nearest
          gcongr

/-- What a number is rounded to where exponents have no upper end: `nearest` of its magnitude, with
    its sign. -/
def rounded (F : Format) (q : Rat) : Rat := if q < 0 then -nearest F q.abs else nearest F q.abs

/-- A number that `round` takes to a finite one is taken to `rounded`. -/
theorem eq_rounded_of_round (hF : F.Valid) {negativeZero : Bool} {r : Rat}
    (h : (round negativeZero q : Binary F).toRat? = some r) : r = rounded F q := by
  by_cases hzero : q = 0
  · subst hzero
    -- Zero has no logarithm, but it is a number of the format.
    have hkeeps : F.Keeps (Rat.abs 0) := Rat.abs_zero ▸ hF.keeps_zero
    have hr : some 0 = some r := (toRat?_round hF hkeeps negativeZero).symm.trans h
    rw [← Option.some.inj hr]
    simp [rounded, Rat.abs, nearest_zero]
  · have hpos : 0 < q.abs := by
      rw [abs_eq_abs]
      exact abs_pos.mpr hzero
    rw [round, if_neg hzero] at h
    simpa [rounded] using eq_nearest_of_roundMagnitude hF hpos h

/-- `rounded` keeps opposite numbers opposite. -/
theorem rounded_neg : rounded F (-q) = -rounded F q := by
  have habs : (-q).abs = q.abs := by rw [abs_eq_abs, abs_eq_abs, abs_neg]
  rw [rounded, rounded, habs]
  -- The sign picks the branch of `rounded`, and negation swaps the two outer ones.
  rcases lt_trichotomy q 0 with hq | rfl | hq
  · rw [if_neg (by linarith), if_pos hq, neg_neg]
  · have hzero : nearest F (Rat.abs 0) = 0 := nearest_zero
    rw [hzero]
    simp
  · rw [if_pos (by linarith), if_neg (by linarith)]

/-- `rounded` keeps a number of the format. -/
theorem rounded_of_keeps (hF : F.Valid) (h : F.Keeps q.abs) : rounded F q = q :=
  (eq_rounded_of_round hF (toRat?_round hF h false)).symm

/-- `rounded` is monotone, across zero as on either side of it. -/
theorem rounded_mono {p : Rat} (hF : F.Valid) (h : p ≤ q) : rounded F p ≤ rounded F q := by
  rw [rounded, rounded, abs_eq_abs, abs_eq_abs]
  have hp := nearest_nonneg (F := F) (abs_nonneg p)
  have hq := nearest_nonneg (F := F) (abs_nonneg q)
  split_ifs with hpneg hqneg hqneg
  · -- Of two negative numbers the smaller one has the greater magnitude.
    have habs : |q| ≤ |p| := abs_le_abs_of_nonpos hqneg.le h
    exact neg_le_neg (nearest_mono hF (abs_nonneg q) habs)
  · -- A negative number is not above one that is not.
    linarith
  · exact absurd (h.trans_lt hqneg) hpneg
  · rw [abs_of_nonneg (not_lt.mp hpneg), abs_of_nonneg (not_lt.mp hqneg)]
    exact nearest_mono hF (not_lt.mp hpneg) h

/-- `round` is monotone, where both results are finite. -/
theorem round_mono {p r s : Rat} {z z' : Bool} (hF : F.Valid) (h : p ≤ q)
    (hr : (round z p : Binary F).toRat? = some r) (hs : (round z' q : Binary F).toRat? = some s) :
    r ≤ s := by
  rw [eq_rounded_of_round hF hr, eq_rounded_of_round hF hs]
  exact rounded_mono hF h

/-- `ofInt` is monotone, where both results are finite. -/
theorem ofInt_mono {m n : Int} {r s : Rat} (hF : F.Valid) (h : m ≤ n)
    (hr : (ofInt m : Binary F).toRat? = some r) (hs : (ofInt n : Binary F).toRat? = some s) :
    r ≤ s :=
  round_mono hF (by exact_mod_cast h) hr hs

/-- A whole number whose magnitude is at least as great as a number of the format does not round to
    a smaller one under `ofInt`. -/
theorem le_abs_of_toRat?_ofInt (hF : F.Valid) (hbound : F.Keeps bound) {n : Int}
    (hle : bound ≤ n.natAbs) {r : Rat} (h : (ofInt n : Binary F).toRat? = some r) :
    bound ≤ r.abs :=
  le_abs_of_roundMagnitude hF hbound (hle.trans_eq (abs_intCast n).symm) h

/-- A number whose magnitude is at most as great as a number of the format rounds to one with that
    bound. -/
theorem exists_toRat?_round (hF : F.Valid) (hbound : F.Keeps bound) (hle : q.abs ≤ bound)
    (negativeZero : Bool) :
    ∃ r, (round negativeZero q : Binary F).toRat? = some r ∧ r.abs ≤ bound := by
  obtain ⟨m, e, h, hround, hvalue⟩ := exists_roundMagnitude_le hF hbound (Rat.abs_nonneg) hle
    (if q = 0 then negativeZero else decide (q < 0))
  refine ⟨_, by rw [round, hround, toRat?], ?_⟩
  rw [abs_exact]
  exact hvalue

/-- Within the bounds of the format `round` gives `rounded`. -/
theorem toRat?_round_of_le (hF : F.Valid) (hbound : F.Keeps bound) (h : |q| ≤ bound) (z : Bool) :
    (round z q : Binary F).toRat? = some (rounded F q) := by
  obtain ⟨r, hr, -⟩ := exists_toRat?_round hF hbound ((abs_eq_abs q).trans_le h) z
  rw [hr, eq_rounded_of_round hF hr]

/-- `rounded` keeps a bound that the format has. -/
theorem abs_rounded_le (hF : F.Valid) (hbound : F.Keeps bound) (h : |q| ≤ bound) :
    |rounded F q| ≤ bound := by
  obtain ⟨r, hr, hle⟩ := exists_toRat?_round hF hbound ((abs_eq_abs q).trans_le h) false
  rwa [← eq_rounded_of_round hF hr, ← abs_eq_abs]

/-- A number that is not above another finite one has a magnitude at most as great: `lt` read on
    exact values. -/
theorem abs_le_of_lt_eq_false {x y : Binary F} {p q : Rat} (hx : x.toRat? = some p)
    (hy : y.toRat? = some q) (h : x.lt y.abs = false) : q.abs ≤ p := by
  rw [← Bool.not_eq_true, lt_iff_of_toRat? hx (toRat?_abs hy)] at h
  exact not_lt.mp h

/-- A number that is not above the greatest one of a format stays finite under `convert` to the
    format. -/
theorem isFinite_convert {G : Format} (hG : G.Valid) {greatest x : Binary F}
    (hgreatest : greatest.toRat? = some bound) (hbound : G.Keeps bound)
    (hx : x.isFinite = true) (h : greatest.lt x.abs = false) :
    (x.convert G).isFinite = true := by
  cases x with
  | finite n m e hme =>
    have hle := abs_le_of_lt_eq_false hgreatest rfl h
    obtain ⟨r, hr, -⟩ := exists_toRat?_round hG hbound hle n
    exact isFinite_of_toRat? hr
  | _ => cases hx

/-- A finite number of the narrow format is finite in the wide one, under `convert`. -/
theorem isFinite_convert_double {x : Binary32} (h : x.isFinite = true) :
    (x.convert Format.double).isFinite = true := by
  cases x with
  | finite n m e hme => exact isFinite_of_toRat? (toRat?_convert_double (.finite n m e hme))
  | _ => cases h

/-! ## Operations -/

variable {x y : Binary F} {p : Rat}

/-- A product is the exact one under `round`, with the sign of a zero from those of the factors. -/
theorem exists_mul_eq_round (hx : x.toRat? = some p) (hy : y.toRat? = some q) :
    ∃ z, x * y = round z (p * q) := by
  obtain ⟨na, ma, ea, ha, rfl, rfl⟩ := exists_finite_of_toRat? hx
  obtain ⟨nb, mb, eb, hb, rfl, rfl⟩ := exists_finite_of_toRat? hy
  exact ⟨na != nb, rfl⟩

/-- A sum is the exact one under `round`; only two negative zeros sum up to one. -/
theorem exists_add_eq_round (hx : x.toRat? = some p) (hy : y.toRat? = some q) :
    ∃ z, x + y = round z (p + q) := by
  obtain ⟨na, ma, ea, ha, rfl, rfl⟩ := exists_finite_of_toRat? hx
  obtain ⟨nb, mb, eb, hb, rfl, rfl⟩ := exists_finite_of_toRat? hy
  exact ⟨na && nb, rfl⟩

/-- A quotient by a number that is not zero is the exact one under `round`. -/
theorem exists_div_eq_round (hx : x.toRat? = some p) (hy : y.toRat? = some q) (hq : q ≠ 0) :
    ∃ z, x / y = round z (p / q) := by
  obtain ⟨na, ma, ea, ha, rfl, rfl⟩ := exists_finite_of_toRat? hx
  obtain ⟨nb, mb, eb, hb, rfl, rfl⟩ := exists_finite_of_toRat? hy
  exact ⟨na != nb, if_neg (mt exact_eq_zero_iff.mpr hq)⟩

/-! ## Bounded numbers -/

/-- The number is finite and its magnitude is at most the bound. -/
def Bounded (bound : Rat) (x : Binary F) : Prop := ∃ q, x.toRat? = some q ∧ q.abs ≤ bound

theorem Bounded.isFinite (h : x.Bounded bound) : x.isFinite = true := by
  obtain ⟨q, hq, -⟩ := h
  exact isFinite_of_toRat? hq

/-- A whole number within a bound that the format has is `Bounded` by it under `ofInt`. -/
theorem bounded_ofInt (hF : F.Valid) {n : Int} (hbound : F.Keeps bound)
    (h : (n.natAbs : Rat) ≤ bound) : (ofInt n : Binary F).Bounded bound :=
  exists_toRat?_round hF hbound (by rwa [abs_intCast]) false

/-- A sum is `Bounded` by the sum of the bounds, if the format has that. -/
theorem Bounded.add (hF : F.Valid) {bound' : Rat} (hsum : F.Keeps (bound + bound'))
    (hx : x.Bounded bound) (hy : y.Bounded bound') : (x + y).Bounded (bound + bound') := by
  obtain ⟨p, hp, hpbound⟩ := hx
  obtain ⟨q, hq, hqbound⟩ := hy
  obtain ⟨z, hz⟩ := exists_add_eq_round hp hq
  -- The exact sum is bounded by the triangle inequality; rounding then keeps the bound.
  have hle : (p + q).abs ≤ bound + bound' := by
    rw [abs_eq_abs] at hpbound hqbound ⊢
    exact (abs_add_le _ _).trans (add_le_add hpbound hqbound)
  rw [hz]
  exact exists_toRat?_round hF hsum hle z

/-- A quotient by a number that is at least one is `Bounded` as the dividend is. -/
theorem Bounded.div (hF : F.Valid) (hbound : F.Keeps bound) (hx : x.Bounded bound) {q : Rat}
    (hy : y.toRat? = some q) (hq : 1 ≤ q) : (x / y).Bounded bound := by
  obtain ⟨p, hp, hpbound⟩ := hx
  obtain ⟨z, hz⟩ := exists_div_eq_round hp hy (by linarith)
  -- A divisor of at least one does not enlarge the quotient.
  have hle : (p / q).abs ≤ bound := by
    rw [abs_eq_abs] at hpbound ⊢
    rw [abs_div, abs_of_nonneg (zero_le_one.trans hq)]
    exact (div_le_self (abs_nonneg _) hq).trans hpbound
  rw [hz]
  exact exists_toRat?_round hF hbound hle z

/-- The wide format has the powers of two up to `2 ^ 971`, which is its greatest exponent. -/
theorem double_keeps_two_pow {n : Nat} (h : n ≤ 971) : Format.double.Keeps (2 ^ n) := by
  refine ⟨1, n, by simp, by decide, ?_, ?_⟩
  · exact le_trans (by decide) (Int.natCast_nonneg n)
  · show (n : Int) ≤ 971
    omega

/-- A whole number of at most 64 bits is `Bounded` by `2 ^ 64`. -/
theorem bounded_word {n : Int} (h : n.natAbs ≤ 2 ^ 64) :
    (ofInt n : Binary64).Bounded (2 ^ 64) :=
  bounded_ofInt Format.double_valid (double_keeps_two_pow (by omega)) (by exact_mod_cast h)

/-- A number of a whole number type is `Bounded` by `2 ^ 64`. -/
theorem bounded_number {kind : IntKind} (n : kind.Number) :
    (ofInt n.val : Binary64).Bounded (2 ^ 64) := by
  refine bounded_word ?_
  obtain ⟨n, hleast, hgreatest⟩ := n
  -- The bounds of all eight types are numerals.
  cases kind <;> simp only [IntKind.least, IntKind.greatest] at hleast hgreatest <;>
    show n.natAbs ≤ 2 ^ 64 <;> omega

end Binary

end DocQuery
