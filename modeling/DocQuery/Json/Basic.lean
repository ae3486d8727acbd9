import DocQuery.Members
import DocQuery.Number.Integer
import DocQuery.Number.Shortest

/-!
# JSON values

Whole numbers that fit 64 bits, signed or unsigned, are kept apart from all other numbers, because
their texts differ (`1` and `1.0`). An object is the list of its members in the order of the text,
in which a key may come up again; `Json.mergeKeys` gives every object distinct keys, and
`Json.settle` also takes the numbers out that are not finite.
-/

namespace DocQuery

inductive Json where
  | null
  | bool (value : Bool)
  | integer (value : Int)
  | float (value : Binary64)
  | string (value : String)
  | array (items : List Json)
  | object (members : List (String × Json))

namespace Json

instance : Inhabited Json := ⟨null⟩

mutual

/-- Distinct keys in every object: a key keeps its first place and takes its last value. -/
def mergeKeys : Json → Json
  | array items => array (mergeItems items)
  | object members => object (mergeMembers [] members)
  | other => other

def mergeItems : List Json → List Json
  | [] => []
  | item :: rest => mergeKeys item :: mergeItems rest

def mergeMembers (done : List (String × Json)) : List (String × Json) → List (String × Json)
  | [] => done
  | (key, value) :: rest => mergeMembers (Members.set key (mergeKeys value) done) rest

end

mutual

/-- A value kept in memory instead of written: numbers that are not finite become null, and every
object has distinct keys, of which each keeps its first place and takes its last value. -/
def settle : Json → Json
  | float value => if value.isFinite then float value else null
  | array items => array (settleItems items)
  | object members => object (settleMembers [] members)
  | other => other

def settleItems : List Json → List Json
  | [] => []
  | item :: rest => settle item :: settleItems rest

def settleMembers (done : List (String × Json)) : List (String × Json) → List (String × Json)
  | [] => done
  | (key, value) :: rest => settleMembers (Members.set key (settle value) done) rest

end

/-- The whole numbers that a JSON text keeps exactly. -/
def isWord (n : Int) : Bool := IntKind.i64.least ≤ n && n ≤ IntKind.u64.greatest

/-- The value of a number as a floating point number. -/
def asNumber? : Json → Option Binary64
  | integer n => some (Binary.ofInt n)
  | float x => some x
  | _ => none

end Json

end DocQuery
