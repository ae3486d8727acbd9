import Mathlib
import DocQuery.Proofs.Number.Decimal
import DocQuery.Time.Text

/-!
# What texts of offsets are read as

An offset is written as `Z`, or as a sign before `hh:mm`, `hhmm` or `hh`. All such texts are read,
but they are not the only ones: five characters with a colon in the middle lose every colon, so that
a second colon takes the place of a digit. Where three digits are left the last one counts as the
minutes, and where fewer than two are left the program stops.

## Key results

- `ZoneOffset.offsetDigits?_eq_some_iff`: the digits that are left behind a sign
- `ZoneOffset.ofText_outcomes`: every outcome of reading an offset, for every text
- `ZoneOffset.ofText_toText`: an offset of whole minutes is read from its text
-/

namespace DocQuery.ZoneOffset

/-! ## Forms of offsets -/

/-- The character of a sign: `-` where the offset is negative. -/
def signChar : Bool → Char
  | false => '+'
  | true => '-'

/-- The seconds of hours and minutes behind a sign, in digits that `Decimal.digitsValue` reads. -/
def signedSeconds (negative : Bool) (hours minutes : List Char) : Int :=
  let seconds : Int := Decimal.digitsValue hours * 3600 + Decimal.digitsValue minutes * 60
  if negative then -seconds else seconds

/-- Hours and minutes of a clock, in two digits each: at most `23:59`. -/
structure Clock (hours minutes : List Char) : Prop where
  hours_length : hours.length = 2
  minutes_length : minutes.length = 2
  digits : ∀ c ∈ hours ++ minutes, c.isDigit = true
  hours_lt : Decimal.digitsValue hours < 24
  minutes_lt : Decimal.digitsValue minutes < 60

/-- How hours and minutes may follow the sign: `hh:mm`, `hhmm`, or `hh` for full hours. -/
inductive Form (hours minutes : List Char) : List Char → Prop where
  | colon : Form hours minutes (hours ++ ':' :: minutes)
  | plain : Form hours minutes (hours ++ minutes)
  | hoursOnly (full : minutes = ['0', '0']) : Form hours minutes hours

/-- The text is an offset of so many seconds: `Z`, or a sign with `hh:mm`, `hhmm` or `hh`. -/
inductive Spells : List Char → Int → Prop where
  | utc : Spells ['Z'] 0
  | signed {negative : Bool} {hours minutes rest : List Char} (clock : Clock hours minutes)
    (form : Form hours minutes rest) :
    Spells (signChar negative :: rest) (signedSeconds negative hours minutes)

/-- Five characters with a colon in the middle, to which these are left without colons, as
    `List.filter` leaves them. -/
structure LosesColons (rest left : List Char) : Prop where
  length : rest.length = 5
  middle : rest[2]? = some ':'
  filter : rest.filter (· ≠ ':') = left

/-- A second colon stands in the place of a digit, as in `+01:2:`: three digits are left behind the
    sign, and the last one counts as the minutes. -/
inductive Misspells : List Char → Int → Prop where
  | signed {negative : Bool} {rest hours : List Char} {minute : Char}
    (loses : LosesColons rest (hours ++ [minute])) (hours_length : hours.length = 2)
    (digits : ∀ c ∈ hours ++ [minute], c.isDigit = true)
    (hours_lt : Decimal.digitsValue hours < 24) :
    Misspells (signChar negative :: rest) (signedSeconds negative hours [minute])

/-- Colons stand in the places of three digits or more, as in `+1::::`: what is left behind the sign
    is too short to be cut into hours and minutes. -/
inductive Starves : List Char → Prop where
  | signed {negative : Bool} {rest left : List Char} (loses : LosesColons rest left)
    (few : left.length < 2) (digits : ∀ c ∈ left, c.isDigit = true) :
    Starves (signChar negative :: rest)

/-! ## Digits -/

/-- A single digit is a number of minutes, below 60. -/
theorem digitsValue_singleton_lt {c : Char} (h : c.isDigit = true) :
    Decimal.digitsValue [c] < 60 := by
  simp only [Char.isDigit, Bool.and_eq_true, decide_eq_true_eq, UInt32.le_iff_toNat_le] at h
  have hnine : c.toNat ≤ 57 := h.2
  simp only [Decimal.digitsValue, List.foldl_cons, List.foldl_nil]
  omega

theorem ne_colon_of_isDigit {c : Char} (h : c.isDigit = true) : c ≠ ':' := by
  rintro rfl
  exact absurd h (by decide)

/-- Five characters with a colon in the middle are two pairs around the colon. -/
theorem exists_of_middle {rest : List Char} (hlength : rest.length = 5)
    (hmiddle : rest[2]? = some ':') :
    ∃ first last : List Char, first.length = 2 ∧ last.length = 2 ∧
      rest = first ++ ':' :: last := by
  refine ⟨rest.take 2, rest.drop 3, by simp [hlength], by simp [hlength], ?_⟩
  have hcolon : rest.drop 2 = ':' :: rest.drop 3 := by
    rw [List.drop_eq_getElem_cons (by omega)]
    rw [List.getElem?_eq_getElem (by omega)] at hmiddle
    rw [Option.some.inj hmiddle]
  rw [← hcolon, List.take_append_drop]

theorem filter_digits {cs : List Char} (h : ∀ c ∈ cs, c.isDigit = true) :
    cs.filter (· ≠ ':') = cs :=
  List.filter_eq_self.mpr fun c hc => decide_eq_true (ne_colon_of_isDigit (h c hc))

/-- The digits that `offsetDigits?` finds behind a sign: those of a `Form`, or what lost its colons
    leaves. -/
theorem offsetDigits?_eq_some_iff {rest digits : List Char}
    (h : ∀ c ∈ digits, c.isDigit = true) :
    offsetDigits? rest = some digits ↔
      (∃ hours minutes, hours.length = 2 ∧ minutes.length = 2 ∧ digits = hours ++ minutes ∧
        Form hours minutes rest) ∨
      digits.length < 4 ∧ LosesColons rest digits := by
  unfold offsetDigits?
  constructor
  · intro hdigits
    split_ifs at hdigits with hcolon hfour htwo
    · obtain rfl := Option.some.inj hdigits
      obtain ⟨first, last, hfirst, hlast, rfl⟩ := exists_of_middle hcolon.1 hcolon.2
      have hfilter : (first ++ ':' :: last).filter (· ≠ ':') =
          first.filter (· ≠ ':') ++ last.filter (· ≠ ':') := by simp
      by_cases hall : ∀ c ∈ first ++ last, c ≠ ':'
      · -- The colon in the middle is the only one.
        have hkeep : ∀ cs, cs ⊆ first ++ last → cs.filter (· ≠ ':') = cs := fun cs hcs =>
          List.filter_eq_self.mpr fun c hc => decide_eq_true (hall c (hcs hc))
        refine .inl ⟨first, last, hfirst, hlast, ?_, .colon⟩
        rw [hfilter, hkeep first (by simp), hkeep last (by simp)]
      · -- One of the four other characters is a colon as well, so fewer than four are left.
        refine .inr ⟨?_, hcolon.1, hcolon.2, rfl⟩
        push Not at hall
        obtain ⟨c, hc, rfl⟩ := hall
        have hless : ((first ++ last).filter (· ≠ ':')).length < (first ++ last).length :=
          List.length_filter_lt_length_iff_exists.mpr ⟨':', hc, by simp⟩
        rw [hfilter, ← List.filter_append]
        simpa [hfirst, hlast] using hless
    · -- Four characters are hours and minutes without a colon.
      obtain rfl := Option.some.inj hdigits
      refine .inl ⟨rest.take 2, rest.drop 2, by simp [hfour], by simp [hfour], by simp, ?_⟩
      have hform : Form (rest.take 2) (rest.drop 2) (rest.take 2 ++ rest.drop 2) := .plain
      rwa [List.take_append_drop] at hform
    · -- Two characters are hours, and the minutes are added.
      obtain rfl := Option.some.inj hdigits
      exact .inl ⟨rest, ['0', '0'], htwo, rfl, rfl, .hoursOnly rfl⟩
  · -- Each form has a length of its own, which is what is asked for.
    rintro (⟨hours, minutes, hhours, hminutes, rfl, hform⟩ | ⟨-, hlength, hmiddle, rfl⟩)
    · rw [List.forall_mem_append] at h
      cases hform with
      | colon =>
        have hmiddle : (hours ++ ':' :: minutes)[2]? = some ':' := by
          rw [List.getElem?_append_right (by omega), hhours]
          rfl
        rw [if_pos ⟨by simp [hhours, hminutes], hmiddle⟩, List.filter_append,
          List.filter_cons_of_neg (by simp), filter_digits h.1, filter_digits h.2]
      | plain =>
        have hfour : (hours ++ minutes).length = 4 := by simp [hhours, hminutes]
        rw [if_neg (by omega), if_pos hfour]
      | hoursOnly full =>
        rw [if_neg (by omega), if_neg (by omega), if_pos hhours, full]
    · rw [if_pos ⟨hlength, hmiddle⟩]

/-! ## Reading -/

/-- `ofSeconds?` gives an offset of so many seconds if, and only if, these seconds make one. -/
theorem ofSeconds?_eq_some_iff {seconds : Int} {z : ZoneOffset} :
    ofSeconds? seconds = some z ↔ z.seconds = seconds := by
  unfold ofSeconds?
  constructor
  · intro h
    split_ifs at h
    rw [← Option.some.inj h]
  · rintro rfl
    rw [dif_pos z.inRange]

/-- The three ways in which the text of an offset begins, and what `ofText` does with each. -/
theorem ofText_cases (text : String) :
    (text.toList = ['Z'] ∧ ofText text = .ok utc) ∨
    (∃ negative rest, text.toList = signChar negative :: rest ∧
      ofText text = ofSigned text negative rest) ∨
    (text.toList ≠ ['Z'] ∧ (∀ negative rest, text.toList ≠ signChar negative :: rest) ∧
      ofText text = .error (.argument (.timezone (Quoted.string text)))) := by
  rw [ofText]
  -- The cases of `ofText`: `Z`, the two signs and everything else.
  split
  next h => exact .inl ⟨h, rfl⟩
  next rest h => exact .inr (.inl ⟨false, rest, h, rfl⟩)
  next rest h => exact .inr (.inl ⟨true, rest, h, rfl⟩)
  next hutc hplus hminus =>
    refine .inr (.inr ⟨hutc, fun negative rest => ?_, rfl⟩)
    cases negative with
    | false => exact hplus rest
    | true => exact hminus rest

section Signed

variable {text : String} {negative : Bool} {rest : List Char}

/-- What `ofSigned` does behind a sign once the digits are known: digits that are too few are cut
    all the same, which stops the program. -/
theorem ofSigned_of_digits {digits : List Char} (h : offsetDigits? rest = some digits) :
    ofSigned text negative rest =
      if ∀ c ∈ digits, c.isDigit = true then
        if digits.length < 2 then .error .aborted
        else if 2 < digits.length ∧ Decimal.digitsValue (digits.drop 2) < 60 then
          (ofSeconds? (signedSeconds negative (digits.take 2) (digits.drop 2))).elim
            (.error (.argument (.timezone (Quoted.string text)))) .ok
        else .error (.argument (.timezone (Quoted.string text)))
      else .error (.argument (.timezone (Quoted.string text))) := by
  simp only [ofSigned, h, signedSeconds]
  by_cases hall : digits.all Char.isDigit = true
  · rw [if_neg (by simp [hall]), if_pos (List.all_eq_true.mp hall)]
    -- The digits are cut after the second one before their number is looked at.
    by_cases hfew : digits.length < 2
    · rw [if_pos hfew, if_pos hfew]
    · rw [if_neg hfew, if_neg hfew]
      by_cases hminutes : 2 < digits.length ∧ Decimal.digitsValue (digits.drop 2) < 60
      · -- Whether the seconds make an offset or not, both sides go by it.
        rw [if_pos hminutes, if_neg (by omega)]
        generalize ofSeconds? _ = found
        cases found <;> rfl
      · rw [if_neg hminutes, if_pos (by omega)]
  · rw [if_pos (by simp [hall]), if_neg (mt List.all_eq_true.mpr hall)]

/-- `ofSigned` reads two digits as the hours and those that follow as the minutes. -/
theorem ofSigned_eq_ok_iff {z : ZoneOffset} :
    ofSigned text negative rest = .ok z ↔
      ∃ hours minutes, offsetDigits? rest = some (hours ++ minutes) ∧ hours.length = 2 ∧
        minutes ≠ [] ∧ (∀ c ∈ hours ++ minutes, c.isDigit = true) ∧
        Decimal.digitsValue minutes < 60 ∧ z.seconds = signedSeconds negative hours minutes := by
  constructor
  · intro h
    cases hdigits : offsetDigits? rest with
    | none => simp [ofSigned, hdigits] at h
    -- There are two digits at least, or `ofSigned` would have been aborted.
    | some digits =>
      rw [ofSigned_of_digits hdigits] at h
      split_ifs at h with hall hfew hminutes
      -- The minutes were in their range, so the seconds decide.
      generalize hfound : ofSeconds? _ = found at h
      cases found with
      | none => cases h
      | some offset =>
        obtain rfl := Except.ok.inj h
        -- The first two digits are the hours, and the others the minutes.
        refine ⟨digits.take 2, digits.drop 2, by rw [List.take_append_drop], by simp; omega,
          by simp; omega, by rwa [List.take_append_drop], hminutes.2,
          ofSeconds?_eq_some_iff.mp hfound⟩
  · rintro ⟨hours, minutes, hdigits, hlength, hne, hall, hminutes, hseconds⟩
    have hlong : 0 < minutes.length := List.length_pos_iff.mpr hne
    -- Conversely the digits pass each check in turn.
    have henough : ¬ (hours ++ minutes).length < 2 := by
      rw [List.length_append]
      omega
    rw [ofSigned_of_digits hdigits, if_pos hall, if_neg henough, ← hlength,
      List.take_left, List.drop_left, if_pos ⟨by simpa using hlong, hminutes⟩,
      ofSeconds?_eq_some_iff.mpr hseconds]
    rfl

/-- `ofSigned` stops the program where digits are too few to be cut. -/
theorem ofSigned_aborted_iff :
    ofSigned text negative rest = .error .aborted ↔
      ∃ digits, offsetDigits? rest = some digits ∧ (∀ c ∈ digits, c.isDigit = true) ∧
        digits.length < 2 := by
  cases hdigits : offsetDigits? rest with
  | none => simp [ofSigned, hdigits]
  | some digits =>
    rw [ofSigned_of_digits hdigits]
    simp only [Option.some.injEq, exists_eq_left']
    -- Of the outcomes with digits the one for too few of them is `aborted`.
    split_ifs with hall hfew hminutes
    · exact ⟨fun _ => ⟨hall, hfew⟩, fun _ => rfl⟩
    · generalize ofSeconds? _ = found
      cases found <;> simp [hfew]
    · simp [hfew]
    · simp [hall]

/-- All that is wrong behind a sign is told by one error, with the text in it, unless the program
    stops. -/
theorem error_of_ofSigned {e : Error} (h : ofSigned text negative rest = .error e) :
    e = .aborted ∨ e = .argument (.timezone (Quoted.string text)) := by
  cases hdigits : offsetDigits? rest with
  -- Without digits the text is refused.
  | none =>
    rw [ofSigned, hdigits] at h
    exact .inr (Except.error.inj h).symm
  | some digits =>
    rw [ofSigned_of_digits hdigits] at h
    -- Too few digits abort; wrong characters, minutes and seconds past a day are refused.
    split_ifs at h
    · exact .inl (Except.error.inj h).symm
    · generalize ofSeconds? _ = found at h
      cases found with
      | none => exact .inr (Except.error.inj h).symm
      | some offset => cases h
    · exact .inr (Except.error.inj h).symm
    · exact .inr (Except.error.inj h).symm

end Signed

/-! ## What is read -/

section Signed

variable {negative : Bool} {rest : List Char}

/-- A sign is not the letter of universal time. -/
@[simp] theorem signChar_ne_utc : signChar negative ≠ 'Z' := by
  cases negative <;> decide

theorem signChar_inj {negative' : Bool} (h : signChar negative = signChar negative') :
    negative = negative' := by
  cases negative <;> cases negative' <;> first | rfl | exact absurd h (by decide)

/-- The hours are those of a clock where the seconds are those of an offset, which is shorter than a
    day. -/
theorem hours_lt_of_seconds {z : ZoneOffset} {hours minutes : List Char}
    (h : z.seconds = signedSeconds negative hours minutes) : Decimal.digitsValue hours < 24 := by
  have hrange := z.inRange
  rw [h, signedSeconds] at hrange
  split_ifs at hrange <;> omega

/-- What `Spells` says of a text with a sign. -/
theorem spells_signed_iff {seconds : Int} :
    Spells (signChar negative :: rest) seconds ↔
      ∃ hours minutes, Clock hours minutes ∧ Form hours minutes rest ∧
        seconds = signedSeconds negative hours minutes := by
  constructor
  · -- The text of the sign is generalized, as the cases of `Spells` ask for a text of their own.
    generalize htext : signChar negative :: rest = cs
    intro h
    cases h with
    | utc => exact absurd (List.cons.inj htext).1 signChar_ne_utc
    | signed clock form =>
      obtain ⟨hsign, rfl⟩ := List.cons.inj htext
      obtain rfl := signChar_inj hsign
      exact ⟨_, _, clock, form, rfl⟩
  · rintro ⟨hours, minutes, clock, form, rfl⟩
    exact .signed clock form

/-- What `Misspells` says of a text with a sign. -/
theorem misspells_signed_iff {seconds : Int} :
    Misspells (signChar negative :: rest) seconds ↔
      ∃ hours minute, LosesColons rest (hours ++ [minute]) ∧ hours.length = 2 ∧
        (∀ c ∈ hours ++ [minute], c.isDigit = true) ∧ Decimal.digitsValue hours < 24 ∧
        seconds = signedSeconds negative hours [minute] := by
  constructor
  · generalize htext : signChar negative :: rest = cs
    rintro (⟨loses, hlength, hdigits, hhours⟩)
    obtain ⟨hsign, rfl⟩ := List.cons.inj htext
    obtain rfl := signChar_inj hsign
    exact ⟨_, _, loses, hlength, hdigits, hhours, rfl⟩
  · rintro ⟨hours, minute, loses, hlength, hdigits, hhours, rfl⟩
    exact .signed loses hlength hdigits hhours

/-- What `Starves` says of a text with a sign. -/
theorem starves_signed_iff :
    Starves (signChar negative :: rest) ↔
      ∃ left, LosesColons rest left ∧ left.length < 2 ∧ ∀ c ∈ left, c.isDigit = true := by
  constructor
  · generalize htext : signChar negative :: rest = cs
    rintro (⟨loses, hfew, hdigits⟩)
    obtain ⟨-, rfl⟩ := List.cons.inj htext
    exact ⟨_, loses, hfew, hdigits⟩
  · rintro ⟨left, loses, hfew, hdigits⟩
    exact .signed loses hfew hdigits

/-- What `ofSigned` reads behind a sign is a form, or it lost a digit to a colon. -/
theorem ofSigned_eq_ok_iff_spells {text : String} {z : ZoneOffset} :
    ofSigned text negative rest = .ok z ↔
      Spells (signChar negative :: rest) z.seconds ∨
      Misspells (signChar negative :: rest) z.seconds := by
  rw [ofSigned_eq_ok_iff, spells_signed_iff, misspells_signed_iff]
  constructor
  · rintro ⟨hours, minutes, hread, hlength, hne, hdigits, hminutes, hseconds⟩
    have hhours := hours_lt_of_seconds hseconds
    rcases (offsetDigits?_eq_some_iff hdigits).mp hread with
      ⟨hours', minutes', hlength', htwo, heq, hform⟩ | ⟨hshort, hloses⟩
    · -- All four digits are there, so it is a form.
      obtain ⟨rfl, rfl⟩ := List.append_inj heq (hlength.trans hlength'.symm)
      exact .inl ⟨_, _, ⟨hlength, htwo, hdigits, hhours, hminutes⟩, hform, hseconds⟩
    · -- Of three digits one is left for the minutes.
      have hone : minutes.length = 1 := by
        have := List.length_pos_iff.mpr hne
        rw [List.length_append] at hshort
        omega
      obtain ⟨minute, rfl⟩ := List.length_eq_one_iff.mp hone
      exact .inr ⟨_, _, hloses, hlength, hdigits, hhours, hseconds⟩
  · rintro (⟨hours, minutes, clock, form, hseconds⟩ |
      ⟨hours, minute, hloses, hlength, hdigits, -, hseconds⟩)
    · refine ⟨hours, minutes, (offsetDigits?_eq_some_iff clock.digits).mpr (.inl ⟨hours, minutes,
        clock.hours_length, clock.minutes_length, rfl, form⟩), clock.hours_length, ?_,
        clock.digits, clock.minutes_lt, hseconds⟩
      rintro rfl
      exact absurd clock.minutes_length (by decide)
    · refine ⟨hours, [minute], (offsetDigits?_eq_some_iff hdigits).mpr (.inr ⟨?_, hloses⟩),
        hlength, List.cons_ne_nil _ _, hdigits, ?_, hseconds⟩
      · simp [hlength]
      · exact digitsValue_singleton_lt (hdigits minute (by simp))

/-- `ofSigned` stops the program where too few digits outlast their colons. -/
theorem ofSigned_aborted_iff_starves {text : String} :
    ofSigned text negative rest = .error .aborted ↔ Starves (signChar negative :: rest) := by
  rw [ofSigned_aborted_iff, starves_signed_iff]
  refine exists_congr fun left => ⟨?_, ?_⟩
  · rintro ⟨hread, hdigits, hfew⟩
    rcases (offsetDigits?_eq_some_iff hdigits).mp hread with
      ⟨hours, minutes, hlength, -, rfl, -⟩ | ⟨-, hloses⟩
    · -- A form has four digits, which are enough.
      rw [List.length_append] at hfew
      omega
    · exact ⟨hloses, hfew, hdigits⟩
  · rintro ⟨hloses, hfew, hdigits⟩
    exact ⟨(offsetDigits?_eq_some_iff hdigits).mpr (.inr ⟨by omega, hloses⟩), hdigits, hfew⟩

end Signed

section Heads

variable {cs : List Char} {seconds : Int}

/-- A text with `Spells` is `Z` or starts with a sign. -/
theorem Spells.head (h : Spells cs seconds) :
    cs = ['Z'] ∧ seconds = 0 ∨ ∃ negative rest, cs = signChar negative :: rest := by
  cases h with
  | utc => exact .inl ⟨rfl, rfl⟩
  | signed => exact .inr ⟨_, _, rfl⟩

/-- A text with `Misspells` starts with a sign. -/
theorem Misspells.head (h : Misspells cs seconds) :
    ∃ negative rest, cs = signChar negative :: rest := by
  cases h
  exact ⟨_, _, rfl⟩

/-- A text with `Starves` starts with a sign. -/
theorem Starves.head (h : Starves cs) : ∃ negative rest, cs = signChar negative :: rest := by
  cases h
  exact ⟨_, _, rfl⟩

/-- Behind no sign, only universal time is spelled. -/
theorem spells_iff_of_no_sign (h : ∀ negative rest, cs ≠ signChar negative :: rest) :
    Spells cs seconds ∨ Misspells cs seconds ↔ cs = ['Z'] ∧ seconds = 0 := by
  constructor
  · -- All spellings but `Z` begin with a sign.
    rintro (hspells | hmisspells)
    · refine hspells.head.resolve_right ?_
      rintro ⟨negative, rest, hcs⟩
      exact h negative rest hcs
    · obtain ⟨negative, rest, hcs⟩ := hmisspells.head
      exact absurd hcs (h negative rest)
  · rintro ⟨rfl, rfl⟩
    exact .inl .utc

/-- Behind no sign, the program does not stop. -/
theorem not_starves_of_no_sign (h : ∀ negative rest, cs ≠ signChar negative :: rest) :
    ¬Starves cs := by
  intro hstarves
  obtain ⟨negative, rest, hcs⟩ := hstarves.head
  exact h negative rest hcs

end Heads

theorem utc_eq_iff {z : ZoneOffset} : utc = z ↔ z.seconds = 0 := by
  cases z
  simp [utc, eq_comm]

/-- Every outcome of `ofText`: an offset is read where the text `Spells` it, and where a colon took
    the place of one digit; the program stops where colons took the places of more; and all other
    texts are an error that shows them. -/
theorem ofText_outcomes (text : String) :
    (∀ z, ofText text = .ok z ↔
      Spells text.toList z.seconds ∨ Misspells text.toList z.seconds) ∧
    (ofText text = .error .aborted ↔ Starves text.toList) ∧
    (∀ e, ofText text = .error e →
      e = .aborted ∨ e = .argument (.timezone (Quoted.string text))) := by
  rcases ofText_cases text with
    ⟨hchars, htext⟩ | ⟨negative, rest, hchars, htext⟩ | ⟨hutc, hsigned, htext⟩
  · -- The text of universal time has no sign.
    have hsigned : ∀ negative rest, text.toList ≠ signChar negative :: rest := by
      intro negative rest h
      rw [hchars] at h
      exact signChar_ne_utc (List.cons.inj h).1.symm
    rw [htext]
    refine ⟨fun z => ?_, iff_of_false (by simp) (not_starves_of_no_sign hsigned), by simp⟩
    rw [spells_iff_of_no_sign hsigned, Except.ok.injEq, utc_eq_iff]
    exact (and_iff_right hchars).symm
  · -- Behind a sign it is `ofSigned` that reads.
    rw [htext, hchars]
    exact ⟨fun z => ofSigned_eq_ok_iff_spells, ofSigned_aborted_iff_starves,
      fun e h => error_of_ofSigned h⟩
  · -- Behind anything else nothing is read.
    rw [htext]
    refine ⟨fun z => iff_of_false (by simp) ?_,
      iff_of_false (by simp) (not_starves_of_no_sign hsigned),
      fun e h => .inr (Except.error.inj h).symm⟩
    rw [spells_iff_of_no_sign hsigned]
    exact fun h => hutc h.1

/-- A `Form` ends with a digit, that of the minutes or that of full hours. -/
theorem Form.exists_getLast? {hours minutes rest : List Char} (form : Form hours minutes rest)
    (clock : Clock hours minutes) : ∃ c, rest.getLast? = some c ∧ c.isDigit = true := by
  obtain ⟨hhours, hminutes⟩ := List.forall_mem_append.mp clock.digits
  -- Both numbers have two digits, and the last of them stands at the end of the text.
  have hlast : ∀ {cs : List Char}, cs.length = 2 → (∀ c ∈ cs, c.isDigit = true) →
      ∃ c, cs.getLast? = some c ∧ c.isDigit = true := by
    intro cs hlength hdigits
    have hne : cs ≠ [] := List.ne_nil_of_length_pos (by omega)
    exact ⟨cs.getLast hne, List.getLast?_eq_some_getLast hne, hdigits _ (List.getLast_mem hne)⟩
  obtain ⟨c, hc, hdigit⟩ := hlast clock.minutes_length hminutes
  cases form with
  | colon => exact ⟨c, by simp [List.getLast?_append, List.getLast?_cons, hc], hdigit⟩
  | plain => exact ⟨c, by simp [List.getLast?_append, hc], hdigit⟩
  | hoursOnly full => exact hlast clock.hours_length hhours

/-- No text with a colon at its end `Spells` an offset. -/
theorem not_spells_of_colon_last {cs : List Char} {seconds : Int}
    (h : cs.getLast? = some ':') : ¬Spells cs seconds := by
  intro hspells
  -- `Z` is no colon, and a clock's form ends in a digit.
  cases hspells with
  | utc => exact absurd h (by decide)
  | signed clock form =>
    obtain ⟨c, hc, hdigit⟩ := form.exists_getLast? clock
    rw [List.getLast?_cons, hc] at h
    obtain rfl := Option.some.inj h
    exact absurd hdigit (by decide)

/-- Of two texts that spell no offset, `ofText` reads one all the same, and the other stops the
    program. -/
theorem not_ofText_only_spelled :
    (ofText "+01:2:" = .ok ⟨3720, by decide⟩ ∧ ∀ seconds, ¬Spells "+01:2:".toList seconds) ∧
    (ofText "+1::::" = .error .aborted ∧ ∀ seconds, ¬Spells "+1::::".toList seconds) :=
  ⟨⟨by decide +kernel, fun _ => not_spells_of_colon_last (by decide +kernel)⟩,
    ⟨by decide +kernel, fun _ => not_spells_of_colon_last (by decide +kernel)⟩⟩

/-! ## Written offsets -/

/-- A number under `Time.padded` has zeros and its digits. -/
theorem toList_padded (width n : Nat) : (Time.padded width n).toList =
    List.replicate (width - (Nat.toDigits 10 n).length) '0' ++ Nat.toDigits 10 n := by
  rw [Time.padded, String.toList_ofList]

/-- A padded number consists of digits. -/
theorem isDigit_padded (width n : Nat) : ∀ c ∈ (Time.padded width n).toList, c.isDigit = true := by
  rw [toList_padded]
  refine List.forall_mem_append.mpr ⟨fun c hc => ?_, fun c hc => ?_⟩
  · rw [(List.mem_replicate.mp hc).2]
    decide
  · exact Nat.isDigit_of_mem_toDigits (by omega) (le_refl 10) hc

/-- A padded number keeps its value. -/
theorem digitsValue_padded (width n : Nat) :
    Decimal.digitsValue (Time.padded width n).toList = n := by
  rw [toList_padded, Decimal.digitsValue_append, Decimal.digitsValue_zeros,
    Decimal.digitsValue_toDigits, Nat.zero_mul, Nat.zero_add]

theorem length_padded {width n : Nat} (hwidth : 0 < width) (h : n < 10 ^ width) :
    (Time.padded width n).toList.length = width := by
  have hle := (Nat.length_toDigits_le_iff (by omega) hwidth).mpr h
  rw [toList_padded, List.length_append, List.length_replicate]
  omega

/-- `ofText` gives an offset of whole minutes back from `toText`. -/
theorem ofText_toText {z : ZoneOffset} (h : (60 : Int) ∣ z.seconds) : ofText z.toText = .ok z := by
  obtain ⟨hlow, hhigh⟩ := z.inRange
  set minutes := z.seconds.natAbs / 60 with hminutes
  set hours := (Time.padded 2 (minutes / 60)).toList with hhours
  set rest := (Time.padded 2 (minutes % 60)).toList with hrest
  have htext : z.toText.toList =
      signChar (decide (z.seconds < 0)) :: (hours ++ ':' :: rest) := by
    by_cases hneg : z.seconds < 0 <;>
      simp [toText, signChar, hneg, hours, rest, minutes]
  -- Padded numbers are the digits of a clock.
  have hclock : Clock hours rest := by
    refine ⟨length_padded (by omega) (by omega), length_padded (by omega) (by omega),
      List.forall_mem_append.mpr ⟨isDigit_padded _ _, isDigit_padded _ _⟩, ?_, ?_⟩
    · rw [hhours, digitsValue_padded]
      omega
    · rw [hrest, digitsValue_padded]
      omega
  -- Hours and minutes make up the seconds, as these are whole minutes.
  have hseconds : signedSeconds (decide (z.seconds < 0)) hours rest = z.seconds := by
    rw [signedSeconds, hhours, hrest, digitsValue_padded, digitsValue_padded]
    split_ifs with hneg <;> simp only [decide_eq_true_eq] at hneg <;> omega
  -- The text starts with its sign, so one of three cases is left.
  rcases ofText_cases z.toText with ⟨hutc, -⟩ | ⟨negative, cs, hcs, hread⟩ | ⟨-, hsign, -⟩
  · -- Neither of the two other cases begins with a sign.
    rw [htext] at hutc
    exact absurd (List.cons.inj hutc).1 signChar_ne_utc
  · rw [htext] at hcs
    obtain ⟨hsign, rfl⟩ := List.cons.inj hcs
    have hspells : Spells _ (signedSeconds (decide (z.seconds < 0)) hours rest) :=
      .signed hclock .colon
    rw [hseconds] at hspells
    rw [hread, ofSigned_eq_ok_iff_spells, ← hsign]
    exact .inl hspells
  · exact absurd htext (hsign _ _)

end DocQuery.ZoneOffset
