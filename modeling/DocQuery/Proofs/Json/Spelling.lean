import DocQuery.Json.Token
import DocQuery.Json.Writer
import DocQuery.Proofs.Number.Decimal
import DocQuery.Proofs.Number.Shortest

/-!
# Written numbers read back

The text of a number without its sign is a whole part, an optional fraction and an optional
exponent. A `Spelling` has these parts, and its text is taken apart into the same parts again. The
layouts of shortest digits are spellings whose magnitude rounds to the number.

## Key results

- `Spelling.unsigned?_text`: the text of a spelling reads back as the value of its parts
- `Spelling.exists_text_eq_write`: digits at a power of ten are written as a spelling of both
- `reads_integer`, `reads_float`: whole numbers and finite numbers read back
-/

namespace DocQuery.Json

/-- What follows a value in a text: nothing, a comma, or the `]` or `\x7d` that ends an array or
    object. -/
def EndsValue (rest : List Char) : Prop := ∀ c ∈ rest.head?, c = ',' ∨ c = ']' ∨ c = '\x7d'

/-- What follows a value is not part of a number: no digit, point or exponent. -/
theorem EndsValue.head {rest : List Char} (h : EndsValue rest) :
    ∀ c ∈ rest.head?, c.isDigit = false ∧ c ≠ '.' ∧ ¬ (c = 'e' ∨ c = 'E') := by
  intro c hc
  rcases h c hc with rfl | rfl | rfl <;> decide

/-- The characters, in front of what follows a value, are read by `next?` as the token. -/
def Token.Reads (cs : List Char) (token : Token) : Prop :=
  cs ≠ [] ∧ ∀ rest, EndsValue rest → Token.next? (cs ++ rest) = some (token, rest)

/-- The parts of the text of a number without its sign. Without a `fraction` there is no point. -/
structure Spelling where
  whole : List Char
  fraction : List Char
  exp : Option Int
  whole_digits : ∀ c ∈ whole, c.isDigit = true
  fraction_digits : ∀ c ∈ fraction, c.isDigit = true
  /-- Only a single zero starts with a zero. -/
  whole_head : whole = ['0'] ∨ ∃ c ∈ whole.head?, c ≠ '0'

namespace Spelling

/-- The text of an exponent, which always has a sign: `e+21`, `e-7`. -/
def exponentText (n : Int) : List Char :=
  'e' :: (if n < 0 then '-' else '+') :: Nat.toDigits 10 n.natAbs

/-- The text of a fraction, which has a point. -/
def fractionText (fraction : List Char) : List Char :=
  if fraction = [] then [] else '.' :: fraction

/-- The text of the whole part, of the fraction and of the exponent, one behind the other. -/
def text (s : Spelling) : List Char :=
  s.whole ++ (fractionText s.fraction ++ s.exp.elim [] exponentText)

/-- The fraction where there is a point, as `Token.number?` takes it. -/
def fraction? (s : Spelling) : Option (List Char) :=
  if s.fraction = [] then none else some s.fraction

variable {s : Spelling} {rest : List Char} {negative : Bool}

/-! ## Reading the parts -/

theorem isDigit_toDigits (n : Nat) : ∀ c ∈ Nat.toDigits 10 n, c.isDigit = true :=
  fun _ hc => Nat.isDigit_of_mem_toDigits (by omega) (le_refl 10) hc

/-- A text without an exponent is read up to its end: `spanExponent?` takes nothing. -/
theorem spanExponent?_none (h : EndsValue rest) : Token.spanExponent? rest = some (none, rest) := by
  cases rest with
  | nil => rfl
  | cons c rest =>
    rw [Token.spanExponent?, if_neg (h.head c rfl).2.2]

/-- A whole number is its `natAbs` under its sign. -/
theorem signed_natAbs (n : Int) :
    (if decide (n < 0) = true then -(n.natAbs : Int) else n.natAbs) = n := by
  by_cases hn : n < 0
  · rw [if_pos (decide_eq_true hn)]
    omega
  · rw [if_neg (by simp [hn])]
    omega

/-- `spanExponent?` gives the number of `exponentText` back. -/
theorem spanExponent?_some (n : Int) (h : EndsValue rest) :
    Token.spanExponent? (exponentText n ++ rest) = some (some n, rest) := by
  have hdigits : Decimal.spanDigits (Nat.toDigits 10 n.natAbs ++ rest) =
      (Nat.toDigits 10 n.natAbs, rest) :=
    Decimal.spanDigits_append (isDigit_toDigits _) fun c hc => (h.head c hc).1
  have hsign : Decimal.spanSign ((if n < 0 then '-' else '+') ::
      (Nat.toDigits 10 n.natAbs ++ rest)) = (decide (n < 0), Nat.toDigits 10 n.natAbs ++ rest) := by
    by_cases hn : n < 0 <;> simp [hn, Decimal.spanSign]
  rw [exponentText, List.cons_append, List.cons_append, Token.spanExponent?, if_pos (Or.inl rfl)]
  simp only [hsign, hdigits]
  -- There are digits, so the exponent is not refused.
  split
  · rename_i heq
    exact absurd (Prod.mk.inj heq).1 Nat.toDigits_ne_nil
  · rename_i heq
    obtain ⟨rfl, rfl⟩ := Prod.mk.inj heq
    rw [Decimal.digitsValue_toDigits, signed_natAbs]

/-- `spanExponent?_none` and `spanExponent?_some` in one. -/
theorem spanExponent?_text (exp : Option Int) (h : EndsValue rest) :
    Token.spanExponent? (exp.elim [] exponentText ++ rest) = some (exp, rest) := by
  cases exp with
  | none => exact spanExponent?_none h
  | some n => exact spanExponent?_some n h

/-- Neither the exponent nor the end of a number continues its digits or is a point. -/
theorem head_exponent (exp : Option Int) (h : EndsValue rest) :
    ∀ c ∈ (exp.elim [] exponentText ++ rest).head?, c.isDigit = false ∧ c ≠ '.' := by
  intro c hc
  cases exp with
  | none => exact ⟨(h.head c hc).1, (h.head c hc).2.1⟩
  | some n =>
    -- An exponent starts with its letter.
    obtain rfl : 'e' = c := Option.some.inj hc
    decide

/-- `spanFraction?` gives the fraction of a spelling back. -/
theorem spanFraction?_text (s : Spelling) (h : EndsValue rest) :
    Token.spanFraction? (fractionText s.fraction ++ (s.exp.elim [] exponentText ++ rest)) =
      some (s.fraction?, s.exp.elim [] exponentText ++ rest) := by
  by_cases hfraction : s.fraction = []
  · rw [fractionText, fraction?, if_pos hfraction, if_pos hfraction, List.nil_append]
    unfold Token.spanFraction?
    -- Without a point nothing is taken, and what follows is no point.
    split
    · rename_i heq
      exact absurd rfl (head_exponent s.exp h '.' (heq ▸ rfl)).2
    · rfl
  · rw [fractionText, fraction?, if_neg hfraction, if_neg hfraction, List.cons_append,
      Token.spanFraction?, Decimal.spanDigits_append s.fraction_digits
        fun c hc => (head_exponent s.exp h c hc).1]
    -- Behind a point there are digits, as the fraction is not empty.
    split
    · rename_i heq
      exact absurd (Prod.mk.inj heq).1 hfraction
    · rename_i heq
      obtain ⟨rfl, rfl⟩ := Prod.mk.inj heq
      rfl

/-- `spanWhole?` gives the whole part of a spelling back. -/
theorem spanWhole?_append (s : Spelling) (h : ∀ c ∈ rest.head?, c.isDigit = false) :
    Token.spanWhole? (s.whole ++ rest) = some (s.whole, rest) := by
  rcases s.whole_head with hzero | ⟨c, hc, hne⟩
  · rw [hzero]
    rfl
  · -- The digits are taken up to the first other character, as the first one is no zero.
    obtain ⟨cs, hcs⟩ : ∃ cs, s.whole = c :: cs := ⟨_, List.eq_cons_of_mem_head? hc⟩
    have hdigits := Decimal.spanDigits_append s.whole_digits h
    rw [hcs, List.cons_append] at hdigits ⊢
    unfold Token.spanWhole?
    split
    · rename_i heq
      exact absurd (List.cons.inj heq).1 hne
    · rw [hdigits]

/-- `unsigned?` reads the text of a spelling as the value that `number?` gives for its parts. -/
theorem unsigned?_text {value : Json}
    (hvalue : Token.number? negative s.whole s.fraction? s.exp = some value)
    (h : EndsValue rest) :
    Token.unsigned? negative (s.text ++ rest) = some (.atom value, rest) := by
  -- Behind the whole part stands the point of a fraction, or what `head_exponent` says.
  have hhead : ∀ c ∈ (fractionText s.fraction ++ (s.exp.elim [] exponentText ++ rest)).head?,
      c.isDigit = false := by
    intro c hc
    rw [fractionText] at hc
    split at hc
    · exact (head_exponent s.exp h c hc).1
    · obtain rfl : '.' = c := Option.some.inj hc
      rfl
  simp only [text, List.append_assoc, Token.unsigned?, spanWhole?_append s hhead,
    spanFraction?_text s h, spanExponent?_text s.exp h, Option.bind_eq_bind, Option.bind_some,
    hvalue]
  rfl

/-! ## The value -/

/-- What the digits stand for without the sign: `whole` and `fraction` as one number, times ten to
    the exponent less the places of the fraction. -/
def magnitude (s : Spelling) : Rat :=
  Decimal.digitsValue (s.whole ++ s.fraction) * 10 ^ (s.exp.getD 0 - s.fraction.length)

/-- A number with a fraction or an exponent is its `magnitude` rounded once. -/
theorem number?_eq_float {x : Binary64} (hmark : s.fraction ≠ [] ∨ s.exp.isSome = true)
    (hround : Binary.roundMagnitude negative s.magnitude = x) (hx : x.isFinite = true) :
    Token.number? negative s.whole s.fraction? s.exp = some (.float x) := by
  have hfraction : s.fraction?.getD [] = s.fraction := by
    rw [fraction?]
    split
    · rename_i h
      exact h.symm
    · rfl
  have hbinary :
      ((Decimal.ofParts negative s.whole s.fraction (s.exp.getD 0)).toBinary : Binary64) = x := by
    -- The digits are rounded directly: there is no step by way of another number.
    rw [Decimal.toBinary_eq_roundMagnitude (by decide) (by decide)]
    exact hround
  have hmark' : (s.fraction?.isSome || s.exp.isSome) = true := by
    rw [fraction?]
    rcases hmark with h | h
    · rw [if_neg h]
      rfl
    · rw [h, Bool.or_true]
  simp only [Token.number?, hmark', if_true, hfraction, hbinary, hx]

/-- A number of digits alone is the whole number, but for a zero with a sign. -/
theorem number?_eq_integer {n : Int} (hmark : s.fraction = [] ∧ s.exp = none)
    (hdigits : Decimal.digitsValue s.whole = n.natAbs) (hnegative : negative = decide (n < 0))
    (hword : isWord n = true) :
    Token.number? negative s.whole s.fraction? s.exp = some (.integer n) := by
  have hfraction : s.fraction? = none := if_pos hmark.1
  have hvalue : (if negative = true then -(n.natAbs : Int) else n.natAbs) = n := by
    subst hnegative
    exact signed_natAbs n
  -- A negative number is not zero, so the case of a negative zero does not come up.
  have hzero : (negative && decide (n.natAbs = 0)) = false := by
    by_cases hn : n < 0
    · have : n.natAbs ≠ 0 := by omega
      simp [this]
    · simp [hnegative, hn]
  simp only [Token.number?, hmark.2, hfraction, hdigits, hvalue, hword, hzero, Option.isSome_none,
    Bool.or_self, Bool.not_false, Bool.and_self, Bool.false_eq_true, if_true, if_false]

/-! ## Written digits -/

theorem isDigit_zeros (n : Nat) : ∀ c ∈ List.replicate n '0', c.isDigit = true := by
  intro c hc
  rw [List.eq_of_mem_replicate hc]
  rfl

/-- The digits of a number that is not zero do not start with a zero. -/
theorem head_toDigits {n : Nat} (h : n ≠ 0) : ∃ c ∈ (Nat.toDigits 10 n).head?, c ≠ '0' := by
  induction n using Nat.strongRecOn with
  | ind n ih =>
    -- The first digit is that of the number without its last one, down to a single digit.
    by_cases hn : n < 10
    · rw [Nat.toDigits_of_lt_base hn]
      exact ⟨_, rfl, fun hzero => h (Nat.digitChar_eq_zero.mp hzero)⟩
    · obtain ⟨c, hc, hne⟩ := ih (n / 10) (by omega) (by omega)
      rw [Nat.toDigits_of_base_le (by omega) (by omega), List.head?_append]
      exact ⟨c, by rw [Option.mem_def.mp hc]; rfl, hne⟩

section Written

variable {digits : Nat} (h : digits ≠ 0)

/-- The spelling with zeros behind the digits, and a zero behind the point. -/
def ofWhole (zeros : Nat) : Spelling where
  whole := Nat.toDigits 10 digits ++ List.replicate zeros '0'
  fraction := ['0']
  exp := none
  whole_digits := List.forall_mem_append.mpr ⟨isDigit_toDigits digits, isDigit_zeros zeros⟩
  fraction_digits := isDigit_zeros 1
  whole_head := by
    obtain ⟨c, hc, hne⟩ := head_toDigits h
    exact Or.inr ⟨c, by rw [List.head?_append, Option.mem_def.mp hc]; rfl, hne⟩

/-- The spelling with a point after `place` digits. -/
def ofSplit (place : Nat) (hplace : place ≠ 0) (exp : Option Int) : Spelling where
  whole := (Nat.toDigits 10 digits).take place
  fraction := (Nat.toDigits 10 digits).drop place
  exp := exp
  whole_digits := fun c hc => isDigit_toDigits digits c (List.mem_of_mem_take hc)
  fraction_digits := fun c hc => isDigit_toDigits digits c (List.mem_of_mem_drop hc)
  whole_head := by
    obtain ⟨c, hc, hne⟩ := head_toDigits h
    exact Or.inr ⟨c, by rw [List.head?_take, if_neg hplace]; exact hc, hne⟩

/-- The spelling with a zero, a point and more zeros before the digits. -/
def ofFraction (zeros digits : Nat) : Spelling where
  whole := ['0']
  fraction := List.replicate zeros '0' ++ Nat.toDigits 10 digits
  exp := none
  whole_digits := isDigit_zeros 1
  fraction_digits := List.forall_mem_append.mpr ⟨isDigit_zeros zeros, isDigit_toDigits digits⟩
  whole_head := Or.inl rfl

/-- The `magnitude` of `ofWhole`: each zero behind the digits is a factor of ten, and the one behind
    the point counts for nothing. -/
theorem magnitude_ofWhole (zeros : Nat) :
    (ofWhole h zeros).magnitude = digits * 10 ^ (zeros : Int) := by
  -- The appended zero of the fraction is undone by the scale, one place down.
  have hvalue : Decimal.digitsValue ((ofWhole h zeros).whole ++ (ofWhole h zeros).fraction) =
      digits * 10 ^ zeros * 10 := by
    rw [ofWhole, Decimal.digitsValue_append, Decimal.digitsValue_append,
      Decimal.digitsValue_toDigits, Decimal.digitsValue_zeros, List.length_replicate]
    rfl
  rw [magnitude, hvalue]
  simp [ofWhole]

/-- The `magnitude` of `ofSplit`: the point takes the digits behind it from the exponent. -/
theorem magnitude_ofSplit (place : Nat) (hplace : place ≠ 0) (exp : Option Int) :
    (ofSplit h place hplace exp).magnitude =
      digits * 10 ^ (exp.getD 0 - ((Nat.toDigits 10 digits).length - place : Nat)) := by
  simp only [magnitude, ofSplit, List.take_append_drop, Decimal.digitsValue_toDigits,
    List.length_drop]

/-- The `magnitude` of `ofFraction`: all zeros and digits are behind the point. -/
theorem magnitude_ofFraction (zeros digits : Nat) :
    (ofFraction zeros digits).magnitude =
      digits * 10 ^ (-(zeros + (Nat.toDigits 10 digits).length : Nat) : Int) := by
  have hvalue : Decimal.digitsValue ((ofFraction zeros digits).whole ++
      (ofFraction zeros digits).fraction) = digits := by
    have hzero : Decimal.digitsValue ['0'] = 0 := Decimal.digitsValue_zeros 1
    rw [ofFraction, Decimal.digitsValue_append, Decimal.digitsValue_append, hzero,
      Decimal.digitsValue_toDigits, Decimal.digitsValue_zeros, Nat.zero_mul, Nat.zero_mul,
      Nat.zero_add, Nat.zero_add]
  rw [magnitude, hvalue]
  simp [ofFraction]

end Written

/-- The text that `floatLayout` gives for digits at a power of ten is a spelling of their
    product. -/
theorem exists_text_eq_write {digits : Nat} (h : digits ≠ 0) (power : Int) :
    ∃ s : Spelling, s.text = (floatLayout.write digits power).toList ∧
      (s.fraction ≠ [] ∨ s.exp.isSome = true) ∧ s.magnitude = digits * 10 ^ power := by
  have hlength : 0 < (Nat.toDigits 10 digits).length := Nat.length_toDigits_pos
  simp only [NumberLayout.write]
  split
  · -- The point stands behind the digits, among them or before them.
    split_ifs with hwhole hfirst
    · refine ⟨ofWhole h power.toNat, ?_, Or.inl (List.cons_ne_nil _ _), ?_⟩
      · simp [ofWhole, text, fractionText, floatLayout, NumberLayout.zeros]
      · rw [magnitude_ofWhole, Int.toNat_of_nonneg hwhole]
    · obtain ⟨place, hplace⟩ : ∃ place,
          (power + (Nat.toDigits 10 digits).length - 1 + 1).toNat = place := ⟨_, rfl⟩
      have hinside : place < (Nat.toDigits 10 digits).length := by omega
      -- The place of the point is a number of digits that are there, so digits are on both sides.
      rw [hplace]
      refine ⟨ofSplit h place (by omega) none, ?_, Or.inl ?_, ?_⟩
      · simp [ofSplit, text, fractionText, hinside]
      · simp [ofSplit, hinside]
      · rw [magnitude_ofSplit, Option.getD_none]
        congr 2
        omega
    · refine ⟨ofFraction (-(power + (Nat.toDigits 10 digits).length - 1) - 1).toNat digits, ?_,
        Or.inl ?_, ?_⟩
      · simp [ofFraction, text, fractionText, NumberLayout.zeros]
      · simp [ofFraction]
      · rw [magnitude_ofFraction]
        congr 2
        omega
  · -- A number that is very great or very small has one digit before the point and an exponent.
    refine ⟨ofSplit h 1 Nat.one_ne_zero (some (power + (Nat.toDigits 10 digits).length - 1)),
      ?_, Or.inr rfl, ?_⟩
    · -- A single digit has no fraction.
      have hone : (Nat.toDigits 10 digits).drop 1 = [] ↔ (Nat.toDigits 10 digits).length = 1 := by
        rw [List.drop_eq_nil_iff]
        omega
      simp only [ofSplit, text, fractionText, hone, exponentText, Option.elim_some]
      split_ifs <;> simp
    · rw [magnitude_ofSplit, Option.getD_some]
      congr 2
      omega

/-- The spelling of a whole number by its digits alone. -/
def ofNat (n : Nat) : Spelling where
  whole := Nat.toDigits 10 n
  fraction := []
  exp := none
  whole_digits := isDigit_toDigits n
  fraction_digits := List.forall_mem_nil _
  whole_head := by
    by_cases hn : n = 0
    · exact Or.inl (hn ▸ Nat.toDigits_zero 10)
    · exact Or.inr (head_toDigits hn)

/-! ## Tokens -/

/-- A digit is none of the characters that start another token, so `next?` hands it to
    `unsigned?`. -/
private theorem next?_digit {c : Char} (h : c.isDigit = true) (cs : List Char) :
    Token.next? (c :: cs) = Token.unsigned? false (c :: cs) := by
  unfold Token.next?
  split
  case h_12 => rfl
  all_goals
    rename_i heq
    -- Every other case asks for a character that is no digit.
    obtain ⟨rfl, -⟩ := List.cons.inj heq
    exact absurd h (by decide)

theorem whole_ne_nil (s : Spelling) : s.whole ≠ [] := by
  intro hnil
  rcases s.whole_head with hzero | ⟨c, hc, -⟩
  · simp [hnil] at hzero
  · simp [hnil] at hc

/-- The text of a spelling with its sign is the token of the number. -/
theorem reads_text
    (hvalue : Token.number? negative s.whole s.fraction? s.exp = some value) :
    Token.Reads (if negative = true then '-' :: s.text else s.text) (.atom value) := by
  obtain ⟨c, cs, hwhole⟩ := List.exists_cons_of_ne_nil s.whole_ne_nil
  have hdigit : c.isDigit = true := s.whole_digits c (hwhole ▸ List.mem_cons_self ..)
  cases negative with
  -- A sign is taken off by `next?` itself.
  | true => exact ⟨List.cons_ne_nil _ _, fun rest h => unsigned?_text hvalue h⟩
  | false =>
    -- Without a sign the first character is a digit of the whole part.
    refine ⟨by simp [text, hwhole], fun rest h => ?_⟩
    have hread := unsigned?_text hvalue h
    simp only [Bool.false_eq_true, if_false, text, hwhole, List.cons_append] at hread ⊢
    rw [next?_digit hdigit, hread]

private theorem toList_signed {text : String} {cs : List Char} (h : cs = text.toList)
    (negative : Bool) :
    (if negative = true then "-" ++ text else text).toList =
      if negative = true then '-' :: cs else cs := by
  cases negative <;> simp [h]

/-- The text of a finite number is a spelling whose `magnitude` rounds to the number, with a
    fraction or an exponent, so that it is not taken for a whole number. -/
theorem exists_text_eq_writeFloat (negative : Bool) {mant : Nat} {exp : Int}
    (h : Format.double.Canonical mant exp) :
    ∃ s : Spelling, (writeFloat (.finite negative mant exp h)).toList =
        (if negative then '-' :: s.text else s.text) ∧ (s.fraction ≠ [] ∨ s.exp.isSome = true) ∧
      Binary.roundMagnitude negative s.magnitude = .finite negative mant exp h := by
  simp only [writeFloat, Binary.isFinite, if_true, Binary.write]
  by_cases hmant : mant = 0
  · -- Both zeros are written as such, with the sign that they have.
    subst hmant
    have htext : (ofFraction 0 0).text = ("0" ++ floatLayout.wholeMark).toList := by
      simp [ofFraction, text, fractionText, floatLayout]
    rw [if_pos rfl]
    refine ⟨ofFraction 0 0, toList_signed htext negative, Or.inl (List.cons_ne_nil _ _), ?_⟩
    have hexact : Binary.exact negative 0 exp = 0 := Binary.exact_eq_zero_iff.mpr rfl
    have hround : Binary.round negative (Binary.exact negative 0 exp) = .finite negative 0 exp h :=
      Binary.round_exact Format.double_valid h
    rw [hexact, Binary.round, if_pos rfl] at hround
    rw [magnitude_ofFraction, Nat.cast_zero, zero_mul]
    exact hround
  · -- The shortest digits are those that round to the number.
    obtain ⟨s, htext, hmark, hvalue⟩ := exists_text_eq_write
      (Binary.shortest_ne_zero Format.double_valid h hmant .even) (Binary.shortest .even mant exp).2
    refine ⟨s, ?_, hmark, ?_⟩
    · rw [if_neg hmant]
      exact toList_signed htext negative
    · rw [hvalue]
      exact Binary.roundMagnitude_shortest Format.double_valid h hmant .even negative

end Spelling

/-- A whole number with `isWord` reads back from its text. -/
theorem reads_integer {n : Int} (h : isWord n = true) :
    Token.Reads (toString n).toList (.atom (.integer n)) := by
  -- The text of an integer is the spelling of its magnitude, after its sign.
  have htext : (toString n).toList = if decide (n < 0) = true then
      '-' :: (Spelling.ofNat n.natAbs).text else (Spelling.ofNat n.natAbs).text := by
    rw [Int.toString_eq_repr, Int.repr_eq_if]
    by_cases hn : n < 0
    · have hsize : (-n).toNat = n.natAbs := by omega
      simp [hn, hn.not_ge, hsize, Spelling.text, Spelling.fractionText, Spelling.ofNat]
    · have hsize : n.toNat = n.natAbs := by omega
      simp [hn, not_lt.mp hn, hsize, Spelling.text, Spelling.fractionText, Spelling.ofNat]
  have hdigits := Decimal.digitsValue_toDigits n.natAbs
  rw [htext]
  exact Spelling.reads_text (Spelling.number?_eq_integer ⟨rfl, rfl⟩ hdigits rfl h)

/-- A finite number reads back from `writeFloat`. -/
theorem reads_float {x : Binary64} (h : x.isFinite = true) :
    Token.Reads (writeFloat x).toList (.atom (.float x)) := by
  cases x with
  | finite negative mant exp hcanonical =>
    obtain ⟨s, htext, hmark, hround⟩ := Spelling.exists_text_eq_writeFloat negative hcanonical
    rw [htext]
    exact Spelling.reads_text (Spelling.number?_eq_float hmark hround rfl)
  | nan => cases h
  | infinity => cases h

end DocQuery.Json
