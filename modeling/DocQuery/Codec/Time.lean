import DocQuery.Datum.Text
import DocQuery.Number.Arithmetic
import DocQuery.Schema.Value

/-!
# Documents of times

A time is a pseudo object with its seconds since the epoch and its offset. The seconds are a floating
point number: in millisecond precision the whole milliseconds divided by a thousand, otherwise the
whole seconds plus a fraction. A span is a number of seconds; reading it keeps whole microseconds.
-/

namespace DocQuery

namespace Codec

/-- What is wrong with a document that is not of the expected kind: null has an error of its own. -/
def datumMismatch (type : Ty) (expected : String) : Datum → Error
  | .null => .nullNotAllowed type.text
  | other => .typeMismatch expected other.kind

/-- What is wrong with a value of another type: null has an error of its own. -/
def valueMismatch (type : Ty) : Value → Error
  | .null => .nullNotAllowed type.text
  | other => .typeMismatch type.text other.kind

/-- The whole part of a number, kept within 64 bits with a sign. -/
def toWord (x : Binary64) : Int := x.clampToInt IntKind.i64.least IntKind.i64.greatest

/-- Seconds since the epoch as a number. -/
def epochSeconds (millis : Bool) (t : Instant) : Binary64 :=
  if millis then Binary.ofInt t.millis / Binary.ofInt 1000
  else Binary.ofInt t.seconds + Binary.ofInt t.subsecond / Binary.ofInt 1000000000

def encodeTime (millis : Bool) (t : Zoned) : Datum :=
  .object [(Datum.tagKey, .string Datum.timeTag),
    ("epoch_time", .number (epochSeconds millis t.instant)),
    ("timezone", .string t.offset.toText)]

/-- The instant that a finite number of seconds since the epoch lies at. -/
def instantOf? (millis : Bool) (seconds : Binary64) : Option Instant :=
  if millis then
    let ms := toWord (seconds * Binary.ofInt 1000).roundHalfAway
    Instant.ofNanos? (ms * 1000000)
  else
    let whole := seconds.floor
    -- A fraction that rounds up to a second stays just below it.
    let nanos := ((seconds - whole) * Binary.ofInt 1000000000).roundHalfAway.clampToInt 0 999999999
    Instant.ofNanos? (toWord whole * Time.nanosPerSecond + nanos)

def decodeTime (millis : Bool) (type : Ty) (d : Datum) : Except Error Zoned :=
  if d.tag? ≠ some Datum.timeTag then .error (datumMismatch type "PTYPE<TIME>" d)
  else
    match (d.get? "epoch_time").bind Datum.asNumber? with
    | none => .error (.typeMismatch "TIME with numeric epoch_time" d.display)
    | some seconds => do
      let offset ←
        match d.get? "timezone" with
        | some (.string text) => ZoneOffset.ofText text
        | none => .ok ZoneOffset.utc
        | some other => .error (.typeMismatch "STRING timezone" other.kind)
      let outOfRange : Error := .argument (.epochOutOfRange seconds)
      if !seconds.isFinite then .error outOfRange
      else
        match instantOf? millis seconds with
        | some instant => .ok ⟨instant, offset⟩
        | none => .error outOfRange

/-- A span in seconds: its whole seconds and its fraction, both cut off toward zero, added. -/
def spanSeconds (d : Span) : Binary64 :=
  Binary.ofInt (d.nanos.tdiv Time.nanosPerSecond)
    + Binary.ofInt (d.nanos.tmod Time.nanosPerSecond) / Binary.ofInt 1000000000

/-- The span of a number of seconds, rounded to whole microseconds. -/
def spanOfSeconds (seconds : Binary64) : Except Error Span :=
  let micros := (seconds * Binary.ofInt 1000000).roundHalfAway
  let outOfRange : Except Error Span := .error (.number seconds .outOfRange Ty.span.text)
  if !micros.isFinite || (Binary.ofInt IntKind.i64.greatest).le micros.abs then outOfRange
  else
    match Span.ofNanos? (toWord micros * 1000) with
    | some d => .ok d
    | none => outOfRange

end Codec

end DocQuery
