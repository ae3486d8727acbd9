import DocQuery.Text.Punycode

/-!
# Domain names

A name is a row of labels with dots between them. A character may stand for others, so that texts
that differ in case or in variants of letters give one name. A label that still holds characters
past ASCII is written in Punycode after `xn--`.

The alphabets known here are Latin up to U+017F, the modern letters of Greek and Cyrillic, the
Japanese syllables, the Han characters, the Korean syllables and the wide forms of ASCII: they run
from left to right, and no two of their characters join into one. A name in another alphabet is
refused, but for labels that are in Punycode already, which are taken as they are.
-/

namespace DocQuery.DomainName

/-- The text of a character that stands for several others, for none or for one elsewhere. -/
def special? : Nat → Option String
  | 0xAA => some "a"
  | 0xAD => some ""
  | 0xB2 => some "2"
  | 0xB3 => some "3"
  | 0xB5 => some "\u03BC"
  | 0xB9 => some "1"
  | 0xBA => some "o"
  | 0xBC => some "1\u20444"
  | 0xBD => some "1\u20442"
  | 0xBE => some "3\u20444"
  | 0x130 => some "i\u0307"
  | 0x132 | 0x133 => some "ij"
  | 0x13F | 0x140 => some "l\u00B7"
  | 0x149 => some "\u02BCn"
  | 0x178 => some "\u00FF"
  | 0x17F => some "s"
  | 0x386 => some "\u03AC"
  | 0x387 => some "\u00B7"
  | 0x38C => some "\u03CC"
  | 0x3002 | 0xFF61 => some "."
  | _ => none

/-- The ranges of codes of capital letters, each with the distance to the small letters. -/
def capitals : List (Nat × Nat × Nat) :=
  [(0x41, 0x5A, 32), (0xC0, 0xD6, 32), (0xD8, 0xDE, 32), (0x388, 0x38A, 37), (0x38E, 0x38F, 63),
    (0x391, 0x3A1, 32), (0x3A3, 0x3AB, 32), (0x400, 0x40F, 80), (0x410, 0x42F, 32)]

/-- The ranges in which each capital letter stands right before its small letter. -/
def pairs : List (Nat × Nat) :=
  [(0x100, 0x12F), (0x134, 0x137), (0x139, 0x13E), (0x141, 0x148), (0x14A, 0x177), (0x179, 0x17E)]

/-- The ranges of characters that stand for themselves where nothing above is about them. -/
def letters : List (Nat × Nat) :=
  [(0, 0x7F), (0xA1, 0xA7), (0xA9, 0xAE), (0xB0, 0xB3), (0xB5, 0xB7), (0xB9, 0x17F),
    (0x390, 0x390), (0x3AC, 0x3CE), (0x430, 0x45F), (0x3005, 0x3007), (0x3041, 0x3096),
    (0x309D, 0x309E), (0x30A1, 0x30FE), (0x3400, 0x9FFF), (0xAC00, 0xD7A3)]

/-- The code of the small letter of a capital one. -/
def small? (n : Nat) : Option Nat :=
  match capitals.find? fun (first, last, _) => first ≤ n && n ≤ last with
  | some (_, _, distance) => some (n + distance)
  | none =>
    match pairs.find? fun (first, last) => first ≤ n && n ≤ last with
    | some (first, _) => if (n - first) % 2 = 0 then some (n + 1) else none
    | none => none

/-- What a character stands for in a name; nothing where no name of a known alphabet has it. -/
def fold? (c : Char) : Option (List Char) :=
  -- The wide form of a character stands for what the character does.
  let n := if 0xFF01 ≤ c.toNat ∧ c.toNat ≤ 0xFF5E then c.toNat - 0xFEE0 else c.toNat
  match special? n with
  | some text => some text.toList
  | none =>
    match small? n with
    | some small => some [Char.ofNat small]
    | none =>
      if letters.any fun (first, last) => first ≤ n && n ≤ last then some [Char.ofNat n] else none

def isAscii (cs : List Char) : Bool := cs.all (·.toNat < 0x80)

/-- Whether a label in Punycode may hold a character. It holds none that stands for another. -/
def isSettled (c : Char) : Bool :=
  match fold? c with
  | some text => text == [c]
  | none => 0x17F < c.toNat

/-- The text of a label whose characters stand for themselves. One in Punycode has to be that of a
text with characters past ASCII. -/
def labelText? : List Char → Option (List Char)
  | 'x' :: 'n' :: '-' :: '-' :: code =>
    match Punycode.decode? code with
    | some label =>
      if !isAscii label && label.all isSettled then some ('x' :: 'n' :: '-' :: '-' :: code)
      else none
    | none => none
  | label =>
    if isAscii label then some label else some ("xn--".toList ++ Punycode.encode label)

end DocQuery.DomainName
