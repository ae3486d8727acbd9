import DocQuery.Text.DomainName

/-!
# Hosts of locators

A host is an address of four bytes, an address of eight 16 bit pieces in brackets, or a name. Names
are in ASCII and in lower case. A host whose last label is a number has to be an address; its parts
may be decimal, octal or hexadecimal, and the last of them fills the bytes that are left.
-/

namespace DocQuery.Host

/-- The parts of a text between occurrences of a separator. -/
def splitAt (sep : Char) : List Char → List (List Char)
  | [] => [[]]
  | c :: rest =>
    if c = sep then [] :: splitAt sep rest
    else match splitAt sep rest with
      | [] => [[c]]
      | part :: parts => (c :: part) :: parts

def digitValue? (base : Nat) (c : Char) : Option Nat :=
  let value? :=
    if '0' ≤ c ∧ c ≤ '9' then some (c.toNat - '0'.toNat)
    else if 'a' ≤ c ∧ c ≤ 'f' then some (c.toNat - 'a'.toNat + 10)
    else if 'A' ≤ c ∧ c ≤ 'F' then some (c.toNat - 'A'.toNat + 10)
    else none
  value?.filter (· < base)

def number? (base : Nat) (cs : List Char) : Option Nat :=
  cs.foldlM (fun n c => (digitValue? base c).map (base * n + ·)) 0

/-- A part of an address of four bytes. -/
def part? : List Char → Option Nat
  | [] => none
  | '0' :: 'x' :: digits => number? 16 digits
  | '0' :: 'X' :: digits => number? 16 digits
  | ['0'] => some 0
  | '0' :: digits => number? 8 digits
  | digits => number? 10 digits

/-- The labels of a name; a dot at the end adds none. -/
def labels (cs : List Char) : List (List Char) :=
  let parts := splitAt '.' cs
  if 1 < parts.length ∧ parts.getLast? = some [] then parts.dropLast else parts

/-- Whether the last label is a number, so that the host has to be an address. -/
def endsInNumber (cs : List Char) : Bool :=
  match (labels cs).getLast? with
  | some last => (last ≠ [] && last.all Char.isDigit) || (part? last).isSome && last.head? = some '0'
  | none => false

/-- The number of an address of four bytes. -/
def fourBytes? (cs : List Char) : Option Nat := do
  let parts ← (labels cs).mapM part?
  let last ← parts.getLast?
  let first := parts.dropLast
  -- All parts but the last are bytes.
  if 4 < parts.length ∨ first.any (255 < ·) ∨ Nat.pow 256 (4 - first.length) ≤ last then none
  else
    let high := first.foldl (fun n part => 256 * n + part) 0
    return high * Nat.pow 256 (4 - first.length) + last

def fourBytesText (n : Nat) : String :=
  ".".intercalate ((List.range 4).map fun i => toString (n / Nat.pow 256 (3 - i) % 256))

/-- A piece of up to four digits. -/
def piece? (part : List Char) : Option Nat :=
  if part = [] ∨ 4 < part.length then none else number? 16 part

/-- Two pieces written as four bytes. Here the bytes are decimal without zeros in front, and there
are four. -/
def bytePieces? (cs : List Char) : Option (List Nat) := do
  let bytes ← (splitAt '.' cs).mapM fun part =>
    if part = [] ∨ (1 < part.length ∧ part.head? = some '0') then none
    else (number? 10 part).filter (· < 256)
  match bytes with
  | [a, b, c, d] => return [a * 256 + b, c * 256 + d]
  | _ => none

/-- The pieces between colons. -/
def pieces? (cs : List Char) : Option (List Nat) :=
  if cs = [] then some [] else (splitAt ':' cs).mapM piece?

/-- The pieces at the end of an address, of which the last two may be written as bytes. -/
def lastPieces? (cs : List Char) : Option (List Nat) := do
  let parts := if cs = [] then [] else splitAt ':' cs
  let last := parts.getLastD []
  if last.contains '.' then return (← parts.dropLast.mapM piece?) ++ (← bytePieces? last)
  else pieces? cs

/-- The text before and after the first pair of colons. -/
def splitGap : List Char → Option (List Char × List Char)
  | ':' :: ':' :: rest => some ([], rest)
  | c :: rest => (splitGap rest).map fun (before, after) => (c :: before, after)
  | [] => none

/-- The eight pieces of an address; a pair of colons stands for at least one piece of zero. -/
def eightPieces? (cs : List Char) : Option (List Nat) := do
  match splitGap cs with
  | some (before, after) =>
    let before ← pieces? before
    let after ← lastPieces? after
    if before.length + after.length < 8 then
      return before ++ List.replicate (8 - before.length - after.length) 0 ++ after
    else none
  | none =>
    let pieces ← lastPieces? cs
    if pieces.length = 8 then return pieces else none

/-- Start and length of the first longest run of zeros. -/
def longestZeros (pieces : List Nat) : Nat × Nat :=
  (List.range pieces.length).foldl (fun (best : Nat × Nat) i =>
    let length := ((pieces.drop i).takeWhile (· == 0)).length
    if best.2 < length then (i, length) else best) (0, 0)

def hexText (n : Nat) : String := String.ofList (Nat.toDigits 16 n)

/-- The address in brackets; the longest run of at least two zeros is left out. -/
def eightPiecesText (pieces : List Nat) : String :=
  let (start, length) := longestZeros pieces
  let joined (ps : List Nat) : String := ":".intercalate (ps.map hexText)
  let text :=
    if length < 2 then joined pieces
    else joined (pieces.take start) ++ "::" ++ joined (pieces.drop (start + length))
  "[" ++ text ++ "]"

/-- Characters that no host contains. -/
def isForbidden (c : Char) : Bool :=
  c == '\x00' || c == '\t' || c == '\n' || c == '\r' || c == ' ' || c == '#' || c == '/' ||
    c == ':' || c == '<' || c == '>' || c == '?' || c == '@' || c == '[' || c == '\\' ||
    c == ']' || c == '^' || c == '|'

/-- Characters that no name contains. -/
def isForbiddenInName (c : Char) : Bool :=
  isForbidden c || c.toNat < 0x20 || 0x7f ≤ c.toNat || c == '%'

/-- The text of a host that is an address in brackets. -/
def bracketed? (cs : List Char) : Option String :=
  if cs.head? = some '[' ∧ cs.getLast? = some ']' then
    (eightPieces? (cs.drop 1).dropLast).map eightPiecesText
  else none

/-- Puts bytes in the place of percent signs with two digits. -/
def percentDecode : List Char → List UInt8
  | '%' :: a :: b :: rest =>
    match digitValue? 16 a, digitValue? 16 b with
    | some high, some low => UInt8.ofNat (16 * high + low) :: percentDecode rest
    | _, _ => '%'.toUInt8 :: percentDecode (a :: b :: rest)
  | c :: rest => String.utf8EncodeChar c ++ percentDecode rest
  | [] => []

/-- The name of a text in ASCII. -/
def asciiName? (text : String) : Option (List Char) := do
  let characters ← text.toList.mapM DomainName.fold?
  let labels ← (splitAt '.' characters.flatten).mapM DomainName.labelText?
  return ['.'].intercalate labels

/-- The text of a host: an address or a name. -/
def ofName? (cs : List Char) : Option String := do
  if cs.head? = some '[' then bracketed? cs
  else
    let name ← asciiName? (← String.fromUTF8? ⟨(percentDecode cs).toArray⟩)
    if name = [] ∨ name.any isForbiddenInName then none
    else if endsInNumber name then (fourBytes? name).map fourBytesText
    else return String.ofList name

end DocQuery.Host
