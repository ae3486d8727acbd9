import DocQuery.Number.Decimal
import DocQuery.Number.Integer
import DocQuery.Settings.Basic

/-!
# Keys as paths

A key of a file or of the environment names a setting and may lead on into its value: a dot and a
name lead to a member of a table, and an index in brackets leads to an item of a list. Names consist
of letters, digits, spaces, hyphens and underscores. A key of any other form is one name as a whole.
Names count without regard to case, so a path has them in lower case.
-/

namespace DocQuery.Settings

/-- A text in lower case. Keys and words of settings have ASCII letters only, so comparing them
needs no other case mapping. -/
def lower (text : String) : String := text.map Char.toLower

/-- A whole number of 64 bits. -/
def wordOfText? (text : String) : Option Int :=
  let (negative, digits) := Decimal.spanSign text.toList
  if digits = [] ∨ !digits.all Char.isDigit then none
  else
    let magnitude : Int := Decimal.digitsValue digits
    let n := if negative then -magnitude else magnitude
    if IntKind.i64.Holds n then some n else none

/-- A step from a value to one of its parts. -/
inductive Step where
  | member (name : String)
  | item (index : Int)
deriving DecidableEq

structure Path where
  name : String
  steps : List Step := []
deriving DecidableEq

namespace Path

def isNameChar (c : Char) : Bool := c.isAlphanum || c == ' ' || c == '-' || c == '_'

def isBlank (c : Char) : Bool := c == ' ' || c == '\t'

/-- The index of an item, which may have blanks around it. A negative one has a sign. -/
def index? (cs : List Char) : Option Int :=
  let digits := ((cs.dropWhile isBlank).reverse.dropWhile isBlank).reverse
  if digits.head? = some '+' then none else wordOfText? (String.ofList digits)

/-- The steps after the name of a setting. -/
def steps? : List Char → Option (List Step)
  | [] => some []
  | '.' :: rest => do
    let name := rest.takeWhile isNameChar
    if name = [] then none
    else return .member (String.ofList name) :: (← steps? (rest.dropWhile isNameChar))
  | '[' :: rest => do
    let index ← index? (rest.takeWhile (· ≠ ']'))
    if ']' ∈ rest then return .item index :: (← steps? ((rest.dropWhile (· ≠ ']')).drop 1))
    else none
  | _ => none
termination_by cs => cs.length
decreasing_by
  · exact Nat.lt_succ_of_le (List.dropWhile_sublist _).length_le
  · exact Nat.lt_succ_of_le
      (((List.drop_sublist _ _).trans (List.dropWhile_sublist _)).length_le)

/-- The path of a key. -/
def ofKey (key : String) : Path :=
  let key := lower key
  let (name, rest) := key.toList.span isNameChar
  match steps? rest with
  | some steps => if name = [] then ⟨key, []⟩ else ⟨String.ofList name, steps⟩
  | none => ⟨key, []⟩

end Path

end DocQuery.Settings
