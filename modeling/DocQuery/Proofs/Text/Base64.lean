import Mathlib.Tactic
import DocQuery.Text.Base64

/-!
# Base64 texts read back

Bytes read back from their text, and a text that can be read is the one that its bytes have: reading
is strict, so no other text stands for the same bytes.

## Key results

- `Base64.value?_digit`: every digit reads back as its number
- `Base64.decode?_encode`: the text of bytes reads back as the bytes
- `Base64.encode_of_decode?`: a text that is read is the text of its bytes
-/

namespace DocQuery.Base64

/-! ## Digits -/

/-- `value?` reads a `digit` as its number; there are 64 of them. -/
theorem value?_digit : ∀ n < 64, value? (digit n) = some n := by
  decide

/-- No `digit` is the sign `=` that fills up. -/
theorem digit_ne_filler : ∀ n < 64, digit n ≠ '=' := by
  decide

/-! ## Groups -/

/-- A group of four digits stands for three bytes, and `decodeChars?` goes on behind it. -/
theorem decodeChars?_digits {p q r s : Nat} (hp : p < 64) (hq : q < 64) (hr : r < 64)
    (hs : s < 64) (rest : List Char) :
    decodeChars? (digit p :: digit q :: digit r :: digit s :: rest) = (decodeChars? rest).map fun
      bytes => UInt8.ofNat ((((p * 64 + q) * 64 + r) * 64 + s) / 65536) ::
        UInt8.ofNat ((((p * 64 + q) * 64 + r) * 64 + s) / 256 % 256) ::
        UInt8.ofNat ((((p * 64 + q) * 64 + r) * 64 + s) % 256) :: bytes := by
  rw [decodeChars?]
  · simp only [value?_digit, hp, hq, hr, hs]
    cases decodeChars? rest <;> rfl
  · -- Only a group that is filled up is read in another way.
    intro _ hfiller _
    exact digit_ne_filler s hs hfiller
  · intro hfiller _
    exact digit_ne_filler s hs hfiller

/-- `decodeChars?` gives the bytes back from `encodeChars`. -/
theorem decodeChars?_encodeChars (bytes : List UInt8) :
    decodeChars? (encodeChars bytes) = some bytes := by
  -- One byte and two bytes at the end are filled up with zero bits, which reading checks.
  fun_induction encodeChars bytes with
  | case1 => rfl
  -- One byte: two digits, of which the second has four zero bits.
  | case2 a n =>
    have ha : a.toNat < 256 := a.toNat_lt
    have hn : n = a.toNat * 16 := rfl
    have hvalue : n / 64 * 64 + n % 64 = a.toNat * 16 := by omega
    rw [decodeChars?, value?_digit _ (by omega), value?_digit _ (by omega)]
    show (if (n / 64 * 64 + n % 64) % 16 = 0 then _ else _) = _
    rw [if_pos (by omega), hvalue, Nat.mul_div_cancel _ (by decide), UInt8.ofNat_toNat]
    rfl
  -- Two bytes: three digits, of which the third has two zero bits.
  | case3 a b n =>
    have ha : a.toNat < 256 := a.toNat_lt
    have hb : b.toNat < 256 := b.toNat_lt
    have hn : n = (a.toNat * 256 + b.toNat) * 4 := rfl
    have hvalue : (n / 4096 * 64 + n / 64 % 64) * 64 + n % 64 = n := by omega
    rw [decodeChars?, value?_digit _ (by omega), value?_digit _ (by omega),
      value?_digit _ (by omega)]
    · show (if ((n / 4096 * 64 + n / 64 % 64) * 64 + n % 64) % 4 = 0 then _ else _) = _
      have hfirst : n / 1024 = a.toNat := by omega
      have hsecond : n / 4 % 256 = b.toNat := by omega
      rw [hvalue, if_pos (by omega), hfirst, hsecond, UInt8.ofNat_toNat, UInt8.ofNat_toNat]
      rfl
    · exact digit_ne_filler _ (by omega)
  -- Three bytes: four digits, and no bits are left over.
  | case4 a b c rest n ih =>
    have ha : a.toNat < 256 := a.toNat_lt
    have hb : b.toNat < 256 := b.toNat_lt
    have hc : c.toNat < 256 := c.toNat_lt
    have hn : n = (a.toNat * 256 + b.toNat) * 256 + c.toNat := rfl
    have hvalue : ((n / 262144 * 64 + n / 4096 % 64) * 64 + n / 64 % 64) * 64 + n % 64 = n := by
      omega
    have hfirst : n / 65536 = a.toNat := by omega
    have hsecond : n / 256 % 256 = b.toNat := by omega
    have hthird : n % 256 = c.toNat := by omega
    rw [decodeChars?_digits (by omega) (by omega) (by omega) (by omega), ih, hvalue, hfirst,
      hsecond, hthird, Option.map_some, UInt8.ofNat_toNat, UInt8.ofNat_toNat, UInt8.ofNat_toNat]

/-- `decode?` gives the bytes back from `encode`. -/
theorem decode?_encode (bytes : List UInt8) : decode? (encode bytes) = some bytes := by
  rw [decode?, encode, String.toList_ofList, decodeChars?_encodeChars]

/-! ## Texts that are read -/

/-- A character with a `value?` is the `digit` of the number. -/
theorem digit_of_value? {c : Char} {n : Nat} (h : value? c = some n) : n < 64 ∧ digit n = c := by
  rw [value?] at h
  split_ifs at h with hupper hlower hdigit hplus hslash
  · -- The ranges are those of `digit`: 26 upper case letters, 26 lower case letters and 10 digits.
    obtain ⟨hlo, hhi⟩ := hupper
    have hlo : 65 ≤ c.toNat := hlo
    have hhi : c.toNat ≤ 90 := hhi
    obtain rfl : c.toNat - 65 = n := Option.some.inj h
    refine ⟨by omega, ?_⟩
    rw [digit, if_pos (by omega)]
    show Char.ofNat (65 + (c.toNat - 65)) = c
    rw [Nat.add_sub_cancel' hlo, Char.ofNat_toNat]
  · obtain ⟨hlo, hhi⟩ := hlower
    have hlo : 97 ≤ c.toNat := hlo
    have hhi : c.toNat ≤ 122 := hhi
    obtain rfl : c.toNat - 97 + 26 = n := Option.some.inj h
    refine ⟨by omega, ?_⟩
    rw [digit, if_neg (by omega), if_pos (by omega), Nat.add_sub_cancel]
    show Char.ofNat (97 + (c.toNat - 97)) = c
    rw [Nat.add_sub_cancel' hlo, Char.ofNat_toNat]
  · obtain ⟨hlo, hhi⟩ := hdigit
    have hlo : 48 ≤ c.toNat := hlo
    have hhi : c.toNat ≤ 57 := hhi
    obtain rfl : c.toNat - 48 + 52 = n := Option.some.inj h
    refine ⟨by omega, ?_⟩
    rw [digit, if_neg (by omega), if_neg (by omega), if_pos (by omega), Nat.add_sub_cancel]
    show Char.ofNat (48 + (c.toNat - 48)) = c
    rw [Nat.add_sub_cancel' hlo, Char.ofNat_toNat]
  · -- The last two digits are signs.
    obtain rfl := Option.some.inj h
    exact ⟨by decide, by rw [hplus]; rfl⟩
  · obtain rfl := Option.some.inj h
    exact ⟨by decide, by rw [hslash]; rfl⟩

theorem toNat_ofNat {n : Nat} (h : n < 256) : (UInt8.ofNat n).toNat = n := by
  rw [UInt8.toNat_ofNat']
  exact Nat.mod_eq_of_lt h

/-- `encodeChars` gives the characters back from `decodeChars?`, as only one text is read as the
    bytes. -/
theorem encodeChars_of_decodeChars? {cs : List Char} {bytes : List UInt8}
    (h : decodeChars? cs = some bytes) : encodeChars bytes = cs := by
  -- The bits that stand for nothing are zero, so the numbers come back whole.
  fun_induction decodeChars? cs generalizing bytes with
  | case1 =>
    obtain rfl := Option.some.inj h
    rfl
  | case2 a b =>
    obtain ⟨p, hp, h⟩ := Option.bind_eq_some_iff.mp h
    obtain ⟨q, hq, h⟩ := Option.bind_eq_some_iff.mp h
    obtain ⟨hp, ha⟩ := digit_of_value? hp
    obtain ⟨hq, hb⟩ := digit_of_value? hq
    dsimp only at h
    -- The four bits behind the byte have to be zero.
    split_ifs at h with hrest
    obtain rfl := Option.some.inj h
    have hbyte : (UInt8.ofNat ((p * 64 + q) / 16)).toNat = (p * 64 + q) / 16 :=
      toNat_ofNat (by omega)
    have hfirst : (p * 64 + q) / 16 * 16 / 64 = p := by omega
    have hsecond : (p * 64 + q) / 16 * 16 % 64 = q := by omega
    rw [encodeChars, hbyte, hfirst, hsecond, ha, hb]
  | case3 a b c =>
    obtain ⟨p, hp, h⟩ := Option.bind_eq_some_iff.mp h
    obtain ⟨q, hq, h⟩ := Option.bind_eq_some_iff.mp h
    obtain ⟨r, hr, h⟩ := Option.bind_eq_some_iff.mp h
    obtain ⟨hp, ha⟩ := digit_of_value? hp
    obtain ⟨hq, hb⟩ := digit_of_value? hq
    obtain ⟨hr, hc⟩ := digit_of_value? hr
    dsimp only at h
    -- The two bits behind the bytes have to be zero.
    split_ifs at h with hrest
    obtain rfl := Option.some.inj h
    obtain ⟨n, hn⟩ : ∃ n, n = (p * 64 + q) * 64 + r := ⟨_, rfl⟩
    rw [← hn] at hrest ⊢
    have hbyte : (UInt8.ofNat (n / 1024)).toNat = n / 1024 := toNat_ofNat (by omega)
    have hbyte' : (UInt8.ofNat (n / 4 % 256)).toNat = n / 4 % 256 := toNat_ofNat (by omega)
    have hwhole : (n / 1024 * 256 + n / 4 % 256) * 4 = n := by omega
    have hfirst : n / 4096 = p := by omega
    have hsecond : n / 64 % 64 = q := by omega
    have hthird : n % 64 = r := by omega
    rw [encodeChars, hbyte, hbyte', hwhole, hfirst, hsecond, hthird, ha, hb, hc]
  | case4 a b c d rest _ _ ih =>
    obtain ⟨p, hp, h⟩ := Option.bind_eq_some_iff.mp h
    obtain ⟨q, hq, h⟩ := Option.bind_eq_some_iff.mp h
    obtain ⟨r, hr, h⟩ := Option.bind_eq_some_iff.mp h
    obtain ⟨s, hs, h⟩ := Option.bind_eq_some_iff.mp h
    obtain ⟨others, hothers, h⟩ := Option.bind_eq_some_iff.mp h
    -- All bits stand for something, so nothing is checked.
    obtain rfl := Option.some.inj h
    obtain ⟨hp, ha⟩ := digit_of_value? hp
    obtain ⟨hq, hb⟩ := digit_of_value? hq
    obtain ⟨hr, hc⟩ := digit_of_value? hr
    obtain ⟨hs, hd⟩ := digit_of_value? hs
    obtain ⟨n, hn⟩ : ∃ n, n = ((p * 64 + q) * 64 + r) * 64 + s := ⟨_, rfl⟩
    rw [← hn]
    have hbyte : (UInt8.ofNat (n / 65536)).toNat = n / 65536 := toNat_ofNat (by omega)
    have hbyte' : (UInt8.ofNat (n / 256 % 256)).toNat = n / 256 % 256 := toNat_ofNat (by omega)
    have hbyte'' : (UInt8.ofNat (n % 256)).toNat = n % 256 := toNat_ofNat (by omega)
    have hwhole : (n / 65536 * 256 + n / 256 % 256) * 256 + n % 256 = n := by omega
    have hfirst : n / 262144 = p := by omega
    have hsecond : n / 4096 % 64 = q := by omega
    have hthird : n / 64 % 64 = r := by omega
    have hfourth : n % 64 = s := by omega
    rw [encodeChars, hbyte, hbyte', hbyte'', hwhole, hfirst, hsecond, hthird, hfourth, ha, hb, hc,
      hd, ih hothers]
  | case5 => cases h

/-- `encode` gives the text back from `decode?`. -/
theorem encode_of_decode? {text : String} {bytes : List UInt8} (h : decode? text = some bytes) :
    encode bytes = text := by
  rw [encode, encodeChars_of_decodeChars? h, String.ofList_toList]

end DocQuery.Base64
