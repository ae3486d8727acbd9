import DocQuery.Datum.Basic
import DocQuery.Json.Reader
import DocQuery.Json.Writer

/-!
# Texts of datums

A datum has two texts. The display is for people and escapes nothing. The JSON text can be read
back: a whole number without gaps around it is written as an integer, every other number with its
shortest digits. A datum also goes to and comes from a JSON value with distinct keys, either as it
stands or in the form of its text.
-/

namespace DocQuery.Datum

mutual

/-- The text for people: strings stand between quotes as they are. -/
def display : Datum → String
  | null => "null"
  | bool value => if value then "true" else "false"
  | number value => value.toText
  | string value => "\"" ++ value ++ "\""
  | array items => "[" ++ displayItems items ++ "]"
  | object members => "\x7b" ++ displayMembers members ++ "\x7d"

def displayItems : List Datum → String
  | [] => ""
  | [item] => display item
  | item :: rest => display item ++ ", " ++ displayItems rest

def displayMembers : List (String × Datum) → String
  | [] => ""
  | [(key, value)] => "\"" ++ key ++ "\": " ++ display value
  | (key, value) :: rest =>
    "\"" ++ key ++ "\": " ++ display value ++ ", " ++ displayMembers rest

end

/-- A whole number whose magnitude is at most `maxSafeInteger`. -/
def safeInteger? (x : Binary64) : Option Int :=
  match x.toRat? with
  | some q =>
    if Rounding.isIntegral q ∧ q.num.natAbs ≤ maxSafeInteger then some q.num else none
  | none => none

mutual

/-- The JSON value of the JSON text, in which keys may come up again. -/
def toJson : Datum → Json
  | null => .null
  | bool value => .bool value
  | number value =>
    match safeInteger? value with
    | some n => .integer n
    | none => .float value
  | string value => .string value
  | array items => .array (toJsonItems items)
  | object members => .object (toJsonMembers members)

def toJsonItems : List Datum → List Json
  | [] => []
  | item :: rest => toJson item :: toJsonItems rest

def toJsonMembers : List (String × Datum) → List (String × Json)
  | [] => []
  | (key, value) :: rest => (key, toJson value) :: toJsonMembers rest

end

mutual

/-- The datum of a JSON value. -/
def ofJson : Json → Datum
  | .null => null
  | .bool value => bool value
  | .integer value => ofInt value
  | .float value => number value
  | .string value => string value
  | .array items => array (ofJsonItems items)
  | .object members => object (ofJsonMembers members)

def ofJsonItems : List Json → List Datum
  | [] => []
  | item :: rest => ofJson item :: ofJsonItems rest

def ofJsonMembers : List (String × Json) → List (String × Datum)
  | [] => []
  | (key, value) :: rest => (key, ofJson value) :: ofJsonMembers rest

end

mutual

/-- The JSON value with distinct keys: a key keeps its first place and takes its last value. All
numbers are floating point numbers, and those that are not finite become null. -/
def toValue : Datum → Json
  | null => .null
  | bool value => .bool value
  | number value => if value.isFinite then .float value else .null
  | string value => .string value
  | array items => .array (toValueItems items)
  | object members => .object (toValueMembers [] members)

def toValueItems : List Datum → List Json
  | [] => []
  | item :: rest => toValue item :: toValueItems rest

def toValueMembers (done : List (String × Json)) : List (String × Datum) → List (String × Json)
  | [] => done
  | (key, value) :: rest => toValueMembers (Members.set key (toValue value) done) rest

end

/-- The JSON value that the text stands for, without writing it: whole numbers without gaps around
them are integers. -/
def serialize (d : Datum) : Json := d.toJson.settle

/-- The JSON text. -/
def write (d : Datum) : String := d.toJson.write

/-- Reads a JSON text; keys that come up again are kept. -/
def read? (text : String) : Option Datum := (Json.read? text).map ofJson

end DocQuery.Datum
