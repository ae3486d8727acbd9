import Mathlib.Tactic
import DocQuery.Text.Uuid

/-!
# Identifiers read back

## Key results

- `Uuid.ofDigits?_digits`: the digits of an identifier stand for it
- `Uuid.ungroup?_group`: hyphens that were put in are taken out
- `Uuid.ofText?_toText`: the text of an identifier reads back as the identifier
-/

namespace DocQuery.Uuid

/-! ## Digits -/

/-- `hexValue?` reads a `Nat.digitChar` as its number; there are sixteen cases. -/
theorem hexValue?_digitChar : ∀ n < 16, hexValue? (Nat.digitChar n) = some n := by
  decide

/-- The first `k` digits stand for the number without the digits after them. -/
theorem foldlM_digits {n : Nat} (hn : n < 16 ^ 32) {k : Nat} (hk : k ≤ 32) :
    ((List.range k).map fun i => Nat.digitChar (n / Nat.pow 16 (31 - i) % 16)).foldlM
      (fun m c => (hexValue? c).map (16 * m + ·)) 0 = some (n / 16 ^ (32 - k)) := by
  -- On the number of digits read: one more digit divides by 16 once less.
  induction k with
  | zero =>
    rw [Nat.div_eq_of_lt hn]
    rfl
  | succ k ih =>
    have hpow : 16 ^ (32 - k) = 16 ^ (31 - k) * 16 := by
      rw [← pow_succ]
      congr 1
      omega
    have hdigit := hexValue?_digitChar (n / 16 ^ (31 - k) % 16) (Nat.mod_lt _ (by decide))
    have hvalue : 16 * (n / 16 ^ (31 - k) / 16) + n / 16 ^ (31 - k) % 16 = n / 16 ^ (31 - k) :=
      Nat.div_add_mod _ 16
    have hlast : 32 - (k + 1) = 31 - k := by omega
    rw [List.range_succ, List.map_append, List.foldlM_append, ih (by omega), hlast]
    show ((hexValue? (Nat.digitChar (n / 16 ^ (31 - k) % 16))).map
      (16 * (n / 16 ^ (32 - k)) + ·) >>= pure) = _
    rw [hdigit, hpow, ← Nat.div_div_eq_div_mul, Option.map_some, hvalue]
    rfl

theorem length_digits (id : Uuid) : id.digits.length = 32 := by
  rw [digits, List.length_map, List.length_range]

/-- `ofDigits?` gives the identifier back from its `digits`. -/
theorem ofDigits?_digits (id : Uuid) : ofDigits? id.digits = some id := by
  have hbits : id.bits.toNat < 16 ^ 32 := id.bits.isLt
  rw [ofDigits?, if_pos id.length_digits, digits, foldlM_digits hbits (le_refl 32)]
  simp

/-! ## Groups -/

/-- `ungroup?` takes out the hyphens that `group` put in. -/
theorem ungroup?_group {sizes : List Nat} {cs : List Char} (hsizes : sizes ≠ [])
    (hlength : cs.length = sizes.sum) : ungroup? sizes (group sizes cs) = some cs := by
  induction sizes generalizing cs with
  | nil => exact absurd rfl hsizes
  | cons size sizes ih =>
    -- The last group has no hyphen after it.
    cases sizes with
    | nil => rw [group, ungroup?, if_pos (by simpa using hlength)]
    -- Any other group is as long as its size, and a hyphen and the other groups follow.
    | cons next sizes =>
      have htake : (cs.take size).length = size := by
        rw [List.length_take, hlength, List.sum_cons]
        omega
      have hrest : (cs.drop size).length = (next :: sizes).sum := by
        rw [List.length_drop, hlength, List.sum_cons]
        omega
      rw [group, ungroup?, List.drop_left' htake, List.take_left' htake]
      · simp only [ih (List.cons_ne_nil next sizes) hrest, Option.map_some, List.take_append_drop]
      all_goals simp

theorem length_group (id : Uuid) : (group groups id.digits).length = 36 := by
  simp [groups, group, id.length_digits]

/-- No digit is the letter that the prefix `urn:uuid:` begins with. -/
theorem toLower_digitChar_ne : ∀ n < 16, (Nat.digitChar n).toLower ≠ 'u' := by
  decide

/-- A text that begins with a digit does not begin with the prefix `urn:uuid:`. -/
theorem after?_urn (id : Uuid) : after? "urn:uuid:".toList (group groups id.digits) = none := by
  obtain ⟨n, rest, hn, hdigits⟩ : ∃ n rest, n < 16 ∧ id.digits = Nat.digitChar n :: rest := by
    rw [digits, List.range_succ_eq_map, List.map_cons]
    exact ⟨_, _, Nat.mod_lt _ (by decide), rfl⟩
  rw [after?, if_neg]
  -- The text begins with a hexadecimal digit, and no such digit is the prefix's first letter.
  intro hprefix
  rw [hdigits] at hprefix
  exact toLower_digitChar_ne n hn (List.cons.inj hprefix).1

/-- `ofText?` gives the identifier back from `toText`. -/
theorem ofText?_toText (id : Uuid) : ofText? id.toText = some id := by
  have hgrouped : ofGrouped? (group groups id.digits) = some id := by
    rw [ofGrouped?, ungroup?_group (by decide) (by rw [length_digits]; rfl), Option.bind_some,
      ofDigits?_digits]
  -- Of the forms that are accepted, the length leaves the one with hyphens or with the prefix.
  rw [ofText?, toText, String.toList_ofList]
  simp only [length_group]
  rw [if_neg (by decide), if_neg (by decide), after?_urn]
  exact hgrouped

end DocQuery.Uuid
