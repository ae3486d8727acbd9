import DocQuery.Number.Integer

/-!
# Instants, offsets and spans

An instant is a number of nanoseconds since the beginning of 1970, an offset a number of seconds
less than a day east of the prime meridian, and a span a number of nanoseconds in either direction.
Instants reach over some 262000 years in both directions; spans are limited by their milliseconds,
which fit 64 bits.
-/

namespace DocQuery

namespace Time

def nanosPerSecond : Int := 1000000000

/-- The first instant, in seconds. -/
def firstSecond : Int := -8334601228800

/-- The second that the last instant lies in. -/
def lastSecond : Int := 8210266876799

/-- The longest span, in nanoseconds. -/
def longestSpan : Int := IntKind.i64.greatest * 1000000

end Time

structure Instant where
  nanos : Int
  inRange : Time.firstSecond * Time.nanosPerSecond ≤ nanos ∧
    nanos < (Time.lastSecond + 1) * Time.nanosPerSecond
deriving DecidableEq

namespace Instant

def ofNanos? (nanos : Int) : Option Instant :=
  if h : Time.firstSecond * Time.nanosPerSecond ≤ nanos ∧
      nanos < (Time.lastSecond + 1) * Time.nanosPerSecond then some ⟨nanos, h⟩ else none

def epoch : Instant := ⟨0, by decide⟩

/-- Whole seconds since the epoch, rounded down. -/
def seconds (t : Instant) : Int := t.nanos.fdiv Time.nanosPerSecond

/-- Nanoseconds since the last whole second. -/
def subsecond (t : Instant) : Int := t.nanos.fmod Time.nanosPerSecond

/-- Whole milliseconds since the epoch, rounded down. -/
def millis (t : Instant) : Int := t.nanos.fdiv 1000000

end Instant

/-- How many seconds local time is ahead of universal time. -/
structure ZoneOffset where
  seconds : Int
  inRange : -86400 < seconds ∧ seconds < 86400
deriving DecidableEq

namespace ZoneOffset

def ofSeconds? (seconds : Int) : Option ZoneOffset :=
  if h : -86400 < seconds ∧ seconds < 86400 then some ⟨seconds, h⟩ else none

def utc : ZoneOffset := ⟨0, by decide⟩

end ZoneOffset

/-- An instant together with the offset of the clock that shows it. -/
structure Zoned where
  instant : Instant
  offset : ZoneOffset
deriving DecidableEq

structure Span where
  nanos : Int
  inRange : -Time.longestSpan ≤ nanos ∧ nanos ≤ Time.longestSpan
deriving DecidableEq

namespace Span

def ofNanos? (nanos : Int) : Option Span :=
  if h : -Time.longestSpan ≤ nanos ∧ nanos ≤ Time.longestSpan then some ⟨nanos, h⟩ else none

def zero : Span := ⟨0, by decide⟩

/-- Whole seconds, rounded down. -/
def seconds (d : Span) : Int := d.nanos.fdiv Time.nanosPerSecond

/-- Nanoseconds beyond `seconds`. -/
def subsecond (d : Span) : Int := d.nanos.fmod Time.nanosPerSecond

end Span

end DocQuery
