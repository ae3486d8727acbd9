import DocQuery.Number.Shortest
import DocQuery.Proofs.Number.Bounds

/-!
# The shortest digits read back

The search for the shortest digits of a number ends on the finest of its grids at the latest. There
the grid is so fine that the point below the number rounds to the number. Whatever point the search
takes, the decimal of its digits rounds to the number.

## Key results

- `Binary.roundMagnitude_of_near`: what is less than a quarter of the last place below a number
  rounds to the number
- `Binary.roundMagnitude_shortest`: the shortest digits of a number round to the number
- `Binary.shortest_ne_zero`: the shortest digits of a number that is not zero are not zero
-/

namespace DocQuery

/-- `toEven` takes a number less than a half below an integer to the integer. -/
theorem Rounding.toEven_of_near {q : Rat} {n : Int} (hlow : (n : Rat) - 1 / 2 < q) (hle : q ≤ n) :
    toEven q = n := by
  rcases (toEven_le hle).eq_or_lt with heq | hlt
  · exact heq
  · -- The integer below is rounded away from, as more than a half is left.
    have hfloor : q.floor = n - 1 := by
      apply le_antisymm
      · simp only [toEven] at hlt
        split_ifs at hlt <;> omega
      · apply Rat.le_floor_iff.mpr
        push_cast
        linarith
    have hrest : 1 / 2 < q - q.floor := by
      rw [hfloor]
      push_cast
      linarith
    rw [toEven, if_neg hrest.le.not_gt, if_pos hrest, hfloor]
    omega

namespace Binary

variable {F : Format} {mant : Nat} {exp : Int} {q : Rat}

/-! ## Rounding to a number from below -/

/-- What is so near below a number and still has a smaller exponent of rounding is below a power of
    two: the mantissa is `2 ^ (F.precision - 1)`. -/
private theorem eq_pow_of_near (hF : F.Valid) (h : F.Canonical mant exp) (hpos : 0 < q)
    (hlow : (mant : Rat) * 2 ^ exp - 2 ^ exp / 4 < q)
    (hlt : max F.minExp (Rounding.log2 q - (F.precision - 1)) < exp) :
    mant = 2 ^ (F.precision - 1) ∧
      max F.minExp (Rounding.log2 q - (F.precision - 1)) = exp - 1 := by
  have hp := hF.precision_pos
  have hunit : (0 : Rat) < 2 ^ exp := by positivity
  have htwo : (1 : Rat) < 2 := by norm_num
  have hlead : 2 ^ (F.precision - 1) ≤ mant := by
    cases h.2.2.2 with
    | inl hle => exact hle
    | inr heq => omega
  have hscaled (k : Int) : (2 : Rat) ^ ((F.precision - 1 : Nat) + exp + k) =
      2 ^ (F.precision - 1) * 2 ^ exp * 2 ^ k := by
    rw [zpow_add₀ (by norm_num), zpow_add₀ (by norm_num), zpow_natCast]
  obtain ⟨hloglow, hloghigh⟩ := Rounding.log2_spec hpos
  -- The number is below the power of two of its leading bit, so the mantissa is the least one with
  -- that bit.
  have hmant : mant = 2 ^ (F.precision - 1) := by
    have hbelow : q < 2 ^ (F.precision - 1) * 2 ^ exp := by
      have hpow := hscaled 0
      rw [add_zero, zpow_zero, mul_one] at hpow
      rw [← hpow]
      exact hloghigh.trans_le (zpow_le_zpow_right₀ htwo.le (by omega))
    have hless : (mant : Rat) < 2 ^ (F.precision - 1) + 1 := by
      by_contra hge
      nlinarith
    have : mant < 2 ^ (F.precision - 1) + 1 := by exact_mod_cast hless
    omega
  refine ⟨hmant, ?_⟩
  -- It is above half of that power, so the exponent is the one before.
  have habove : (2 : Rat) ^ ((F.precision - 1 : Nat) + exp + -1) < 2 ^ (Rounding.log2 q + 1) := by
    refine lt_trans ?_ hloghigh
    refine lt_of_le_of_lt ?_ hlow
    have hone : (1 : Rat) ≤ 2 ^ (F.precision - 1) := one_le_pow₀ htwo.le
    rw [hscaled, hmant]
    push_cast
    rw [zpow_neg_one]
    nlinarith
  have hlog := (zpow_lt_zpow_iff_right₀ htwo).mp habove
  omega

/-- What is less than half a place below a whole number of places `2 ^ e` is scaled and rounded to
    it. -/
private theorem toEven_scaled {e : Int} {n : Nat} (hlow : (n : Rat) * 2 ^ e - 2 ^ e / 2 < q)
    (hle : q ≤ n * 2 ^ e) : (Rounding.toEven (q / 2 ^ e)).toNat = n := by
  have hunit : (0 : Rat) < 2 ^ e := by positivity
  -- The quotient lies within one half below `n`, where ties do not matter.
  have hnear : ((n : Int) : Rat) - 1 / 2 < q / 2 ^ e := by
    rw [lt_div_iff₀ hunit]
    push_cast
    linarith
  have hbelow : q / 2 ^ e ≤ ((n : Int) : Rat) := by
    rw [div_le_iff₀ hunit]
    push_cast
    exact hle
  rw [Rounding.toEven_of_near hnear hbelow, Int.toNat_natCast]

/-- What is less than a quarter of the last place below a number rounds to the number, under
    `roundMagnitude`. -/
theorem roundMagnitude_of_near (hF : F.Valid) (h : F.Canonical mant exp) (hmant : mant ≠ 0)
    (hlow : (mant : Rat) * 2 ^ exp - 2 ^ exp / 4 < q) (hle : q ≤ mant * 2 ^ exp)
    (negative : Bool) : roundMagnitude negative q = finite negative mant exp h := by
  have hp := hF.precision_pos
  have hunit : (0 : Rat) < 2 ^ exp := by positivity
  have hone : (1 : Rat) ≤ mant := by exact_mod_cast Nat.one_le_iff_ne_zero.mpr hmant
  have hpos : 0 < q := by nlinarith
  -- The exponent that `roundMagnitude` settles on is at most that of the number.
  set e : Int := max F.minExp (Rounding.log2 q - (F.precision - 1)) with he
  have heexp : e ≤ exp := by
    have hlog := Rounding.log2_le_log2 hpos hle
    have hexp := exponent_le (F := F) (hpos.trans_le hle) rfl h.1
    exact max_le h.2.1 (by omega)
  simp only [roundMagnitude, hpos.ne', if_false, ← he]
  rcases heexp.eq_or_lt with hsame | hlt
  · -- With the exponent of the number less than half a place is left.
    have hmantissa : (Rounding.toEven (q / 2 ^ e)).toNat = mant := by
      rw [hsame]
      exact toEven_scaled (by linarith) hle
    rw [hmantissa, if_pos h.1, hsame]
    exact dif_pos h
  · -- Below a power of two places are half as wide, and the mantissa is rounded up to it.
    obtain ⟨hpow, hexp⟩ := eq_pow_of_near hF h hpos hlow hlt
    have hhalf : (2 : Rat) ^ exp = 2 ^ e * 2 := by
      rw [he, hexp, ← zpow_add_one₀ (by norm_num), sub_add_cancel]
    have hmantissa : (Rounding.toEven (q / 2 ^ e)).toNat = 2 ^ F.precision := by
      have hdouble : 2 ^ F.precision = mant * 2 := by
        rw [hpow, ← pow_succ, Nat.sub_add_cancel hp]
      rw [hhalf] at hlow hle
      rw [hdouble]
      apply toEven_scaled <;> push_cast <;> linarith
    have hnext : e + 1 = exp := by omega
    have hlead : Nat.pow 2 (F.precision - 1) = mant := hpow.symm
    have hnot : ¬ 2 ^ F.precision < Nat.pow 2 F.precision := lt_irrefl _
    rw [hmantissa, if_neg hnot, hlead, hnext]
    exact dif_pos h

/-- The sign of `roundMagnitude` is given from outside, and does not count for the rest. -/
theorem roundMagnitude_sign {sign : Bool} {h : F.Canonical mant exp}
    (hround : roundMagnitude sign q = finite sign mant exp h) (negative : Bool) :
    roundMagnitude negative q = finite negative mant exp h := by
  -- The sign is carried beside the mantissa and decides no branch.
  have hparts {m : Nat} {e : Int} (heq : (ofParts sign m e : Binary F) = finite sign mant exp h) :
      (ofParts negative m e : Binary F) = finite negative mant exp h := by
    unfold ofParts at heq ⊢
    split_ifs at heq with hcanonical
    obtain ⟨-, rfl, rfl⟩ := finite.inj heq
    exact dif_pos hcanonical
  simp only [roundMagnitude] at hround ⊢
  split_ifs at hround ⊢ <;> exact hparts hround

/-! ## The search for digits -/

variable {x : Binary F} {value : Rat} {tie : Tie} {grid : Int} {digits : Nat}

/-- The point that `nearestOnGrid` takes reads back. -/
theorem roundMagnitude_of_nearestOnGrid (h : nearestOnGrid x value tie grid = some digits) :
    roundMagnitude false (digits * 10 ^ grid) = x := by
  simp only [nearestOnGrid] at h
  split at h
  case h_1 hbelow habove =>
    -- Both neighbours read back, and one of them is taken.
    have hchoice : digits = (value / 10 ^ grid).floor.toNat ∨
        digits = (value / 10 ^ grid).floor.toNat + 1 := by
      repeat' split at h
      all_goals
        have := Option.some.inj h
        omega
    rcases hchoice with rfl | rfl
    · exact of_decide_eq_true hbelow
    · exact of_decide_eq_true habove
  -- Only the one below reads back, or only the one above.
  case h_2 hbelow _ => exact Option.some.inj h ▸ of_decide_eq_true hbelow
  case h_3 _ habove => exact Option.some.inj h ▸ of_decide_eq_true habove
  case h_4 => cases h

/-- `nearestOnGrid` takes a point where the one at or below the value reads back. -/
theorem nearestOnGrid_isSome (tie : Tie)
    (h : roundMagnitude false ((value / 10 ^ grid).floor.toNat * 10 ^ grid) = x) :
    (nearestOnGrid x value tie grid).isSome = true := by
  -- Only the last branch gives up, and `h` says that the lower neighbour reads back.
  simp only [nearestOnGrid]
  split
  case h_1 =>
    repeat' split
    all_goals rfl
  case h_2 => rfl
  case h_3 => rfl
  case h_4 hbelow _ => exact absurd h (of_decide_eq_false hbelow)

/-- `Decimal.stripZeros` moves zeros into the exponent and keeps the value. -/
theorem stripZeros_value (digits : Nat) (power : Int) :
    ((Decimal.stripZeros digits power).1 : Rat) * 10 ^ (Decimal.stripZeros digits power).2 =
      digits * 10 ^ power := by
  -- The induction is the recursion of `stripZeros`, with a zero less each time.
  induction digits, power using Decimal.stripZeros.induct with
  | case1 digits power h ih =>
    have hdigits : (digits : Rat) = (digits / 10 : Nat) * 10 := by
      have : digits = digits / 10 * 10 := by omega
      exact_mod_cast this
    rw [Decimal.stripZeros, dif_pos h, ih, zpow_add_one₀ (by norm_num), hdigits]
    ring
  | case2 digits power h => rw [Decimal.stripZeros, dif_neg h]

/-- The point of a grid at or below a value is less than a step `10 ^ grid` below it. -/
private theorem below_near (hvalue : 0 ≤ value) (grid : Int) :
    value - 10 ^ grid < (value / 10 ^ grid).floor.toNat * 10 ^ grid ∧
      (value / 10 ^ grid).floor.toNat * 10 ^ grid ≤ value := by
  have hstep : (0 : Rat) < 10 ^ grid := by positivity
  have hfloor : 0 ≤ (value / 10 ^ grid).floor := Rat.le_floor_iff.mpr (by positivity)
  -- The floor is not negative, so its conversion to a natural number changes nothing.
  have hcast : ((value / 10 ^ grid).floor.toNat : Rat) = (value / 10 ^ grid).floor := by
    exact_mod_cast Int.toNat_of_nonneg hfloor
  rw [hcast]
  constructor
  · have hlt := Rat.lt_floor_add_one (value / 10 ^ grid)
    rw [div_lt_iff₀ hstep] at hlt
    push_cast at hlt
    linarith
  · exact (le_div_iff₀ hstep).mp (Rat.floor_le _)

/-- The steps of the finest grid are less than a quarter of the last place. -/
private theorem finest_step_lt (h : F.Canonical mant exp) (hmant : mant ≠ 0) :
    (10 : Rat) ^ (Rounding.log10 (mant * 2 ^ exp) - (F.precision + 1 : Nat)) < 2 ^ exp / 4 := by
  have hpos : (0 : Rat) < mant * 2 ^ exp := by positivity
  have hbits : (mant : Rat) < 2 ^ F.precision := by exact_mod_cast h.1
  -- The grid has as many decimal places as the mantissa has binary ones, and one more.
  have hpowers : (2 : Rat) ^ F.precision ≤ 10 ^ F.precision := by gcongr; norm_num
  rw [zpow_sub₀ (by norm_num), zpow_natCast, div_lt_iff₀ (by positivity)]
  calc (10 : Rat) ^ Rounding.log10 (mant * 2 ^ exp) ≤ mant * 2 ^ exp := (Rounding.log10_spec hpos).1
    _ < 10 ^ F.precision * 2 ^ exp := by gcongr; exact hbits.trans_le hpowers
    _ ≤ 2 ^ exp / 4 * 10 ^ (F.precision + 1) := by
      rw [pow_succ]
      have : (0 : Rat) < 10 ^ F.precision * 2 ^ exp := by positivity
      linarith

/-- The `shortest` digits of a number round to the number, whichever way ties go. -/
theorem roundMagnitude_shortest (hF : F.Valid) (h : F.Canonical mant exp) (hmant : mant ≠ 0)
    (tie : Tie) (negative : Bool) :
    roundMagnitude negative ((shortest (F := F) tie mant exp).1 *
      10 ^ (shortest (F := F) tie mant exp).2) = finite negative mant exp h := by
  have hvalue : exact false mant exp = mant * 2 ^ exp := rfl
  have hx : (ofParts false mant exp : Binary F) = finite false mant exp h := dif_pos h
  suffices hround : roundMagnitude false ((shortest (F := F) tie mant exp).1 *
      10 ^ (shortest (F := F) tie mant exp).2) = finite false mant exp h from
    roundMagnitude_sign hround negative
  simp only [shortest, hvalue, hx]
  -- The finest grid has a point that reads back, so some grid has.
  cases hfound : (List.range (F.precision + 2)).findSome? fun (i : Nat) =>
      (nearestOnGrid (finite false mant exp h) (mant * 2 ^ exp) tie
        (Rounding.log10 (mant * 2 ^ exp) - i)).map fun digits =>
          Decimal.stripZeros digits (Rounding.log10 (mant * 2 ^ exp) - i) with
  | none =>
    -- The finest grid is one of those that were searched.
    have hfinest := List.findSome?_eq_none_iff.mp hfound (F.precision + 1)
      (List.mem_range.mpr (Nat.lt_succ_self _))
    have hnonneg : (0 : Rat) ≤ mant * 2 ^ exp := by positivity
    obtain ⟨hlow, hle⟩ := below_near hnonneg
      (Rounding.log10 (mant * 2 ^ exp) - (F.precision + 1 : Nat))
    have hstep := finest_step_lt h hmant
    have hreads := roundMagnitude_of_near hF h hmant (by linarith) hle false
    have hsome := nearestOnGrid_isSome tie hreads
    rw [Option.map_eq_none_iff.mp hfinest] at hsome
    cases hsome
  -- What some grid gave reads back, and stripped of its zeros, too.
  | some found =>
    obtain ⟨i, -, hi⟩ := List.exists_of_findSome?_eq_some hfound
    obtain ⟨digits, hdigits, rfl⟩ := Option.map_eq_some_iff.mp hi
    rw [Option.getD_some, stripZeros_value]
    exact roundMagnitude_of_nearestOnGrid hdigits

/-- The `shortest` digits of a number that is not zero are not zero, as they read back. -/
theorem shortest_ne_zero (hF : F.Valid) (h : F.Canonical mant exp) (hmant : mant ≠ 0) (tie : Tie) :
    (shortest (F := F) tie mant exp).1 ≠ 0 := by
  intro hzero
  have hround := roundMagnitude_shortest hF h hmant tie false
  rw [hzero, Nat.cast_zero, zero_mul] at hround
  -- Zero would read back as zero.
  obtain ⟨m, e, hme, hkept, hvalue⟩ := roundMagnitude_of_keeps hF hF.keeps_zero false
  obtain ⟨-, rfl, rfl⟩ := finite.inj (hkept.symm.trans hround)
  have hpow : (0 : Rat) < 2 ^ e := by positivity
  have hpos : (0 : Rat) < m := by exact_mod_cast Nat.pos_of_ne_zero hmant
  exact absurd hvalue (mul_pos hpos hpow).ne

end Binary

end DocQuery
