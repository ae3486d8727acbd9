import Mathlib.Tactic
import DocQuery.Json.Token
import DocQuery.Json.Writer

/-!
# Written strings read back

Reading a string undoes the escapes of its characters one by one. A character that is written by its
number is never taken for half of a surrogate pair, as such characters are below the blank.

## Key results

- `Token.stringBody?_escape`: the text of a character reads back as the character
- `Token.next?_writeString`: the text of a string reads back as the string
-/

namespace DocQuery.Json

namespace Token

/-- `hexValue?` reads a digit of `hexDigit` as its number; there are sixteen cases. -/
theorem hexValue?_hexDigit : ∀ n < 16, hexValue? (hexDigit n) = some n := by
  decide

variable {rest cs after : List Char}

/-- An escape `\uXXXX` with a number below `0xD800`, where the surrogates start, is the character of
    the number, whatever follows. -/
private theorem stringBody?_unit {a b c d : Char} {unit : Nat} (hunit : unit? a b c d = some unit)
    (hlow : unit < 0xD800) (h : stringBody? rest = some (cs, after)) :
    stringBody? ('\\' :: 'u' :: a :: b :: c :: d :: rest) =
      some (Char.ofNat unit :: cs, after) := by
  have hnot : ¬ (0xD800 ≤ unit ∧ unit < 0xDC00) := by omega
  have hnot' : ¬ (0xDC00 ≤ unit ∧ unit < 0xE000) := by omega
  have hnot'' : ¬ (0xD800 ≤ unit ∧ unit < 0xE000) := by omega
  unfold stringBody?
  split
  case h_2 heq =>
    -- Another such escape follows; only a high surrogate would take it along.
    simp only [List.cons.injEq, true_and] at heq
    obtain ⟨rfl, rfl, rfl, rfl, rfl⟩ := heq
    simp [hunit, hnot, hnot', h]
  case h_3 heq =>
    -- The number stands alone, and is no half of a pair.
    simp only [List.cons.injEq, true_and] at heq
    obtain ⟨rfl, rfl, rfl, rfl, rfl⟩ := heq
    simp [hunit, hnot'', h]
  -- The string does not end at a backslash.
  case h_1 heq => simp at heq
  case h_4 hother heq =>
    -- The shorter escapes come after those of four digits that are read above.
    simp only [List.cons.injEq, true_and] at heq
    obtain ⟨rfl, rfl⟩ := heq
    exact (hother a b c d rest rfl rfl).elim
  -- A backslash is no plain character.
  case h_5 hother heq =>
    obtain ⟨rfl, rfl⟩ := List.cons.inj heq
    exact (hother _ _ rfl rfl).elim
  case h_6 heq => cases heq

/-- The text of a character under `escapeChar` reads back as the character, in front of any text
    that reads. -/
theorem stringBody?_escape (c : Char) (h : stringBody? rest = some (cs, after)) :
    stringBody? (escapeChar c ++ rest) = some (c :: cs, after) := by
  unfold escapeChar
  split
  case h_8 hquote hslash _ _ _ _ _ =>
    split
    · -- A control character is written by its number.
      rename_i hlow
      have hunit : unit? '0' '0' (hexDigit (c.toNat / 16)) (hexDigit (c.toNat % 16)) =
          some c.toNat := by
        have hzero : hexValue? '0' = some 0 := rfl
        have hdigits : ((0 * 16 + 0) * 16 + c.toNat / 16) * 16 + c.toNat % 16 = c.toNat := by omega
        simp only [unit?, hzero, hexValue?_hexDigit _ (show c.toNat / 16 < 16 by omega),
          hexValue?_hexDigit _ (show c.toNat % 16 < 16 by omega)]
        exact congrArg some hdigits
      have hread := stringBody?_unit hunit (by omega) h
      rwa [Char.ofNat_toNat] at hread
    · -- Every other character stands for itself.
      rename_i hlow
      have hplain : ¬ (c.toNat < 0x20 ∨ c = '\\') := fun hor => hor.elim hlow hslash
      show stringBody? (c :: rest) = _
      unfold stringBody?
      split
      case h_5 heq =>
        -- It is neither the quote nor the backslash, and is not below the blank.
        obtain ⟨rfl, rfl⟩ := List.cons.inj heq
        rw [if_neg hplain, h]
        rfl
      case h_6 heq => cases heq
      -- The quote has an escape of its own, and so has the backslash.
      case h_1 heq => exact absurd (List.cons.inj heq).1 hquote
      all_goals
        rename_i heq
        exact absurd (List.cons.inj heq).1 hslash
  -- What is left has an escape of one letter, which `escaped?` looks up.
  all_goals
    show stringBody? ('\\' :: _ :: rest) = _
    unfold stringBody?
    simp [escaped?, h]

/-- The text of the characters of a string reads back as the characters, up to the quote behind
    them. -/
theorem stringBody?_flatMap_escape (cs rest : List Char) :
    stringBody? (cs.flatMap escapeChar ++ '"' :: rest) = some (cs, rest) := by
  induction cs with
  | nil =>
    show stringBody? ('"' :: rest) = _
    unfold stringBody?
    rfl
  | cons c cs ih =>
    rw [List.flatMap_cons, List.append_assoc]
    exact stringBody?_escape c ih

/-- The text of `writeString` reads back as the string, whatever follows. -/
theorem next?_writeString (s : String) (rest : List Char) :
    next? ((writeString s).toList ++ rest) = some (.string s, rest) := by
  have htext : (writeString s).toList ++ rest =
      '"' :: (s.toList.flatMap escapeChar ++ '"' :: rest) := by
    -- `writeString` puts quotes around the escaped characters, and `next?` sees the first of them.
    simp [writeString]
  rw [htext]
  show quoted? (s.toList.flatMap escapeChar ++ '"' :: rest) = _
  rw [quoted?, stringBody?_flatMap_escape]
  simp

end Token

end DocQuery.Json
