import DocQuery.Error
import DocQuery.Text.Quoted
import DocQuery.Time.Basic

/-!
# Texts of times

A zoned instant is shown as local date and time with its offset, the fraction of a second with 0, 3,
6 or 9 digits. A span is shown as a number of seconds. Offsets are written as `+hh:mm` and read as
`Z`, `+hh:mm`, `+hhmm` or `+hh`.
-/

namespace DocQuery

namespace Time

/-- Year, month and day of the day with the given number since the beginning of 1970, counted in
eras of 400 years that begin in March. -/
def civil (day : Int) : Int × Nat × Nat :=
  let shifted := day + 719468
  let era := shifted.fdiv 146097
  let dayOfEra := (shifted.fmod 146097).toNat
  let yearOfEra := (dayOfEra - dayOfEra / 1460 + dayOfEra / 36524 - dayOfEra / 146096) / 365
  -- A year that begins in March has its leap day at the end.
  let dayOfYear := dayOfEra - (365 * yearOfEra + yearOfEra / 4 - yearOfEra / 100)
  let month := (5 * dayOfYear + 2) / 153
  let dayOfMonth := dayOfYear - (153 * month + 2) / 5 + 1
  let year := yearOfEra + era * 400
  if month < 10 then (year, month + 3, dayOfMonth) else (year + 1, month - 9, dayOfMonth)

/-- A natural number with zeros in front, at least `width` digits. -/
def padded (width n : Nat) : String :=
  let ds := Nat.toDigits 10 n
  String.ofList (List.replicate (width - ds.length) '0' ++ ds)

/-- Years of four digits stand by themselves, all others after a sign. -/
def yearText (year : Int) : String :=
  if 0 ≤ year ∧ year ≤ 9999 then padded 4 year.toNat
  else (if year < 0 then "-" else "+") ++ padded 4 year.natAbs

/-- The fewest of 0, 3, 6 and 9 digits that show the nanoseconds exactly. -/
def fractionText (nanos : Nat) : String :=
  if nanos = 0 then ""
  else if nanos % 1000000 = 0 then "." ++ padded 3 (nanos / 1000000)
  else if nanos % 1000 = 0 then "." ++ padded 6 (nanos / 1000)
  else "." ++ padded 9 nanos

end Time

namespace ZoneOffset

/-- Hours and minutes, with the seconds rounded to the nearest minute. -/
def nearestMinuteText (z : ZoneOffset) : String :=
  let minutes := (z.seconds.natAbs + 30) / 60
  (if z.seconds < 0 then "-" else "+")
    ++ Time.padded 2 (minutes / 60) ++ ":" ++ Time.padded 2 (minutes % 60)

/-- Hours and minutes, without the seconds. -/
def toText (z : ZoneOffset) : String :=
  let minutes := z.seconds.natAbs / 60
  (if z.seconds < 0 then "-" else "+")
    ++ Time.padded 2 (minutes / 60) ++ ":" ++ Time.padded 2 (minutes % 60)

/-- The digits of an offset after its sign: `hh:mm` without its colon, `hhmm`, or `hh` with zeros
added. A text of five characters with a colon in the middle loses all its colons. -/
def offsetDigits? (rest : List Char) : Option (List Char) :=
  if rest.length = 5 ∧ rest[2]? = some ':' then some (rest.filter (· ≠ ':'))
  else if rest.length = 4 then some rest
  else if rest.length = 2 then some (rest ++ ['0', '0'])
  else none

/-- Reads what follows the sign of the offset written as `text`. Digits that are too few to be cut
into hours and minutes stop the program. -/
def ofSigned (text : String) (negative : Bool) (rest : List Char) : Except Error ZoneOffset :=
  let invalid : Except Error ZoneOffset := .error (.argument (.timezone (Quoted.string text)))
  match offsetDigits? rest with
  | none => invalid
  | some digits =>
    if !digits.all Char.isDigit then invalid
    else if digits.length < 2 then .error .aborted
    else
      let hours : Int := Decimal.digitsValue (digits.take 2)
      let minutes : Int := Decimal.digitsValue (digits.drop 2)
      if digits.length = 2 ∨ 60 ≤ minutes then invalid
      else
        let seconds := hours * 3600 + minutes * 60
        match ofSeconds? (if negative then -seconds else seconds) with
        | some offset => .ok offset
        | none => invalid

/-- Reads an offset. -/
def ofText (text : String) : Except Error ZoneOffset :=
  match text.toList with
  | ['Z'] => .ok utc
  | '+' :: rest => ofSigned text false rest
  | '-' :: rest => ofSigned text true rest
  | _ => .error (.argument (.timezone (Quoted.string text)))

end ZoneOffset

namespace Zoned

/-- Local date and time with the offset. -/
def toText (z : Zoned) : String :=
  let seconds := z.instant.seconds + z.offset.seconds
  let (year, month, day) := Time.civil (seconds.fdiv 86400)
  let clock := (seconds.fmod 86400).toNat
  Time.yearText year ++ "-" ++ Time.padded 2 month ++ "-" ++ Time.padded 2 day ++ "T"
    ++ Time.padded 2 (clock / 3600) ++ ":" ++ Time.padded 2 (clock / 60 % 60) ++ ":"
    ++ Time.padded 2 (clock % 60) ++ Time.fractionText z.instant.subsecond.toNat
    ++ z.offset.nearestMinuteText

end Zoned

namespace Span

/-- Seconds with the fewest digits of a fraction, such as `-PT0.5S`; the zero span counts days. -/
def toText (d : Span) : String :=
  if d.nanos = 0 then "P0D"
  else
    let whole := d.nanos.natAbs / 1000000000
    let rest := d.nanos.natAbs % 1000000000
    let fraction :=
      if rest = 0 then ""
      else
        let ds := (Time.padded 9 rest).toList.reverse.dropWhile (· == '0')
        "." ++ String.ofList ds.reverse
    (if d.nanos < 0 then "-" else "") ++ "PT" ++ toString whole ++ fraction ++ "S"

end Span

end DocQuery
