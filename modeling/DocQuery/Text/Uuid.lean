/-!
# Universally unique identifiers

An identifier is a number of 128 bits. It is written with 32 hexadecimal digits in groups of 8, 4, 4,
4 and 12 with hyphens between them. Reading also accepts the digits without hyphens, and the grouped
form in braces or after `urn:uuid:`. Letters may be small or capital.
-/

namespace DocQuery

structure Uuid where
  bits : BitVec 128
deriving DecidableEq

namespace Uuid

def nil : Uuid := ⟨0⟩

def hexValue? (c : Char) : Option Nat :=
  if '0' ≤ c ∧ c ≤ '9' then some (c.toNat - '0'.toNat)
  else if 'a' ≤ c ∧ c ≤ 'f' then some (c.toNat - 'a'.toNat + 10)
  else if 'A' ≤ c ∧ c ≤ 'F' then some (c.toNat - 'A'.toNat + 10)
  else none

/-- The identifier of 32 hexadecimal digits. -/
def ofDigits? (cs : List Char) : Option Uuid :=
  if cs.length = 32 then
    (cs.foldlM (fun n c => (hexValue? c).map (16 * n + ·)) 0).map fun n => ⟨BitVec.ofNat 128 n⟩
  else none

/-- The sizes of the groups between hyphens. -/
def groups : List Nat := [8, 4, 4, 4, 12]

/-- The digits of a text in groups of the given sizes with hyphens between them. -/
def ungroup? : List Nat → List Char → Option (List Char)
  | [], _ => none
  | [size], cs => if cs.length = size then some cs else none
  | size :: sizes, cs =>
    match cs.drop size with
    | '-' :: rest => (ungroup? sizes rest).map (cs.take size ++ ·)
    | _ => none

def ofGrouped? (cs : List Char) : Option Uuid := (ungroup? groups cs).bind ofDigits?

/-- What follows a given beginning of a text, which is in lower case. -/
def after? (start cs : List Char) : Option (List Char) :=
  if (cs.take start.length).map Char.toLower = start then some (cs.drop start.length) else none

def ofText? (text : String) : Option Uuid :=
  let cs := text.toList
  if cs.length = 32 then ofDigits? cs
  else if cs.length = 38 then
    if cs.head? = some '\x7b' ∧ cs.getLast? = some '\x7d' then ofGrouped? (cs.drop 1).dropLast
    else none
  else match after? "urn:uuid:".toList cs with
    | some rest => ofGrouped? rest
    | none => ofGrouped? cs

/-- The hexadecimal digits, the most significant first. -/
def digits (id : Uuid) : List Char :=
  (List.range 32).map fun i => Nat.digitChar (id.bits.toNat / Nat.pow 16 (31 - i) % 16)

/-- Puts hyphens between groups of the given sizes. -/
def group : List Nat → List Char → List Char
  | [], cs => cs
  | [_], cs => cs
  | size :: sizes, cs => cs.take size ++ '-' :: group sizes (cs.drop size)

def toText (id : Uuid) : String := String.ofList (group groups id.digits)

end Uuid

end DocQuery
