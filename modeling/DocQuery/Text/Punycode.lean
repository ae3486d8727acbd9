/-!
# Punycode

A text with characters past ASCII, written with letters, digits and hyphens. The ASCII characters
stand first, with a hyphen after them. The others follow in the order of their codes, each as a
numeral for the insertions that are passed over since the one before: all places of the text for all
codes in between. Digits are `a` to `z` and `0` to `9`, the lowest first, and a digit below its
threshold ends a numeral.
-/

namespace DocQuery.Punycode

def digit (d : Nat) : Char := if d < 26 then Char.ofNat (d + 'a'.toNat) else Nat.digitChar (d - 26)

def digitValue? (c : Char) : Option Nat :=
  if 'a' ≤ c ∧ c ≤ 'z' then some (c.toNat - 'a'.toNat)
  else if '0' ≤ c ∧ c ≤ '9' then some (c.toNat - '0'.toNat + 26)
  else none

/-- The threshold at a place, of which each digit takes 36. It lies between 1 and 26. -/
def threshold (bias place : Nat) : Nat := min 26 (max 1 (place - bias))

/-- How many places a number takes, and what is left of it at the last. -/
def reduce (place n : Nat) : Nat × Nat :=
  if 455 < n then reduce (place + 36) (n / 35) else (place, n)
termination_by n
decreasing_by exact Nat.div_lt_self (by omega) (by omega)

/-- The bias of the numeral after that of `delta`, where `count` characters are there by then. -/
def adapt (isFirst : Bool) (delta count : Nat) : Nat :=
  let delta := if isFirst then delta / 700 else delta / 2
  let (place, rest) := reduce 0 (delta + delta / count)
  place + 36 * rest / (rest + 38)

/-- The digits of a numeral from a place on. -/
def numeral (bias place n : Nat) : List Char :=
  let t := threshold bias place
  if n < t then [digit n]
  else digit (t + (n - t) % (36 - t)) :: numeral bias (place + 36) ((n - t) / (36 - t))
termination_by n
decreasing_by
  have : 1 ≤ threshold bias place := by unfold threshold; omega
  exact Nat.lt_of_le_of_lt (Nat.div_le_self _ _) (by omega)

/-- The numerals written so far. -/
structure Encoder where
  digits : List Char := []
  bias : Nat := 72
  /-- The insertions passed over since the last numeral. -/
  delta : Nat := 0
  /-- The characters that are there so far. -/
  count : Nat

/-- Passes a character of the text while the characters of one code are inserted. -/
def Encoder.pass (basic code : Nat) (e : Encoder) (c : Char) : Encoder :=
  if c.toNat < code then { e with delta := e.delta + 1 }
  else if c.toNat = code then
    { digits := e.digits ++ numeral e.bias 36 e.delta
      bias := adapt (e.count == basic) e.delta (e.count + 1)
      count := e.count + 1 }
  else e

/-- Inserts the characters of each of the given codes, which rise from `next` on. -/
def Encoder.insert (text : List Char) (basic next : Nat) (e : Encoder) : List Nat → Encoder
  | [] => e
  | code :: codes =>
    let e := { e with delta := e.delta + (code - next) * (e.count + 1) }
    let e := text.foldl (Encoder.pass basic code) e
    Encoder.insert text basic (code + 1) { e with delta := e.delta + 1 } codes

def encode (text : List Char) : List Char :=
  let basic := text.filter (·.toNat < 128)
  let codes := ((text.map Char.toNat).filter (128 ≤ ·)).eraseDups.mergeSort
  let e := Encoder.insert text basic.length 128 { count := basic.length } codes
  basic ++ (if basic = [] then [] else ['-']) ++ e.digits

/-- The text read so far and the numeral that is being read. -/
structure Decoder where
  text : List Char
  code : Nat := 128
  /-- The place of the text after the last insertion. -/
  index : Nat := 0
  bias : Nat := 72
  delta : Nat := 0
  weight : Nat := 1
  place : Nat := 36

/-- Inserts the character of a whole numeral. -/
def Decoder.insert? (d : Decoder) (delta : Nat) : Option Decoder :=
  let count := d.text.length + 1
  let code := d.code + (d.index + delta) / count
  let index := (d.index + delta) % count
  if code.isValidChar then
    some {
      text := d.text.take index ++ Char.ofNat code :: d.text.drop index
      code
      index := index + 1
      bias := adapt (d.index == 0) delta count }
  else none

/-- Reads a digit. -/
def Decoder.read? (d : Decoder) (c : Char) : Option Decoder := do
  let value ← digitValue? c
  let delta := d.delta + value * d.weight
  let t := threshold d.bias d.place
  if value < t then d.insert? delta
  else return { d with delta, weight := d.weight * (36 - t), place := d.place + 36 }

/-- The ASCII characters of a text and its digits. A hyphen with nothing before it is read as a
digit, which it is not. -/
def splitBasic (text : List Char) : List Char × List Char :=
  match text.reverse.span (· ≠ '-') with
  | (digits, _ :: c :: before) => ((c :: before).reverse, digits.reverse)
  | _ => ([], text)

/-- Reads a text in lower case; nothing where the last numeral does not end. -/
def decode? (text : List Char) : Option (List Char) := do
  let (basic, digits) := splitBasic text
  let d ← digits.foldlM Decoder.read? { text := basic }
  if d.place = 36 then return d.text else none

end DocQuery.Punycode
