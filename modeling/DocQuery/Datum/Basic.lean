import DocQuery.Json.Basic

/-!
# Datums

A datum is a value of the database: what a query carries as a literal and what an answer consists
of. Numbers are 64 bit floating point numbers. An object is the list of its members in their order;
a key may come up again, and looking a key up finds its first member. An object with a string under
the reserved key `$reql_type$` is a pseudo type: the string is its tag.
-/

namespace DocQuery

inductive Datum where
  | null
  | bool (value : Bool)
  | number (value : Binary64)
  | string (value : String)
  | array (items : List Datum)
  | object (members : List (String × Datum))

namespace Datum

instance : Inhabited Datum := ⟨null⟩

/-- The reserved key of pseudo types. -/
def tagKey : String := "$reql_type$"

/-- The tag of times. -/
def timeTag : String := "TIME"

/-- The tag of byte strings. -/
def binaryTag : String := "BINARY"

/-- The tag of grouped results. -/
def groupedTag : String := "GROUPED_DATA"

/-- Whole numbers up to this magnitude have no gaps between them. -/
def maxSafeInteger : Nat := 9007199254740992

def ofInt (n : Int) : Datum := number (Binary.ofInt n)

def isNull : Datum → Bool
  | null => true
  | _ => false

def asString? : Datum → Option String
  | string value => some value
  | _ => none

def asNumber? : Datum → Option Binary64
  | number value => some value
  | _ => none

def asBool? : Datum → Option Bool
  | bool value => some value
  | _ => none

def asArray? : Datum → Option (List Datum)
  | array items => some items
  | _ => none

/-- How many items an array or members an object has. -/
def size? : Datum → Option Nat
  | array items => some items.length
  | object members => some members.length
  | _ => none

/-- The first member of an object with the given key. -/
def get? (key : String) : Datum → Option Datum
  | object members => Members.get? key members
  | _ => none

/-- The tag of a pseudo type. -/
def tag? (d : Datum) : Option String := (d.get? tagKey).bind asString?

/-- The name of a datum's kind. -/
def kind (d : Datum) : String :=
  match d with
  | null => "NULL"
  | bool _ => "BOOL"
  | number _ => "NUMBER"
  | string _ => "STRING"
  | array _ => "ARRAY"
  | object _ =>
    match d.tag? with
    | some tag => s!"PTYPE<{tag}>"
    | none => "OBJECT"

mutual

/-- Equality of contents: numbers by value, members in order. -/
def same : Datum → Datum → Bool
  | null, null => true
  | bool a, bool b => a == b
  | number a, number b => a == b
  | string a, string b => a == b
  | array a, array b => sameItems a b
  | object a, object b => sameMembers a b
  | _, _ => false

def sameItems : List Datum → List Datum → Bool
  | [], [] => true
  | a :: as, b :: bs => same a b && sameItems as bs
  | _, _ => false

def sameMembers : List (String × Datum) → List (String × Datum) → Bool
  | [], [] => true
  | (k, a) :: as, (l, b) :: bs => k == l && same a b && sameMembers as bs
  | _, _ => false

end

instance : BEq Datum := ⟨same⟩

mutual

/-- How deep arrays and objects are nested. -/
def depth : Datum → Nat
  | array items => depthItems items + 1
  | object members => depthMembers members + 1
  | _ => 0

def depthItems : List Datum → Nat
  | [] => 0
  | item :: rest => max (depth item) (depthItems rest)

def depthMembers : List (String × Datum) → Nat
  | [] => 0
  | (_, value) :: rest => max (depth value) (depthMembers rest)

end

end Datum

end DocQuery
