import DocQuery.Schema.Value

/-!
# Record types and record values

Fields are found by name, the first of a name counting. A record value starts with the defaults of
its fields. `Field.plain` describes a field that goes by its own name and is always written.
-/

namespace DocQuery

namespace Field

/-- A field that goes by its own name, is always written and has the default of its type. -/
def plain (name : String) (type : Ty) : Field := ⟨name, name, type, true, Value.defaultFor type⟩

end Field

namespace RecordType

/-- A record type whose name is given by its members, so that equal members give equal names. -/
def anonymous (members : List (String × Ty)) : RecordType :=
  let shape := ", ".intercalate (members.map fun (name, type) => name ++ ": " ++ type.text)
  ⟨"\x7b" ++ shape ++ "\x7d", .anonymous, members.map fun (name, type) => Field.plain name type⟩

def field? (r : RecordType) (name : String) : Option Field :=
  r.fields.find? fun f => f.name == name

def fieldIndex? (r : RecordType) (name : String) : Option Nat :=
  r.fields.findIdx? fun f => f.name == name

/-- The first field with a document name, and its place. -/
def fieldByWireName? (r : RecordType) (wireName : String) : Option (Nat × Field) := do
  let index ← r.fields.findIdx? fun f => f.wireName == wireName
  let field ← r.fields[index]?
  return (index, field)

end RecordType

/-- A value of a record type: one value for each field in the order of declaration. -/
structure RecordValue where
  type : RecordType
  fields : List Value

namespace RecordValue

/-- Every field holds its default. -/
def default (type : RecordType) : RecordValue := ⟨type, type.fields.map Field.default⟩

/-- The record of the given field values. -/
def ofFields (type : RecordType) (fields : List Value) : Except Error RecordValue :=
  if fields.length = type.fields.length then .ok ⟨type, fields⟩
  else .error (.argument (.fieldCount type.name type.fields.length fields.length))

def toValue (r : RecordValue) : Value := .record r.type r.fields

def get? (r : RecordValue) (name : String) : Option Value :=
  (r.type.fieldIndex? name).bind fun i => r.fields[i]?

/-- Sets the field at a place; a place outside changes nothing. -/
def setIndex (r : RecordValue) (index : Nat) (value : Value) : RecordValue :=
  { r with fields := r.fields.set index value }

def indexOf (r : RecordValue) (name : String) : Except Error Nat :=
  match r.type.fieldIndex? name with
  | some index => .ok index
  | none => .error (.argument (.noField r.type.name name))

def set (r : RecordValue) (name : String) (value : Value) : Except Error RecordValue := do
  let index ← r.indexOf name
  return r.setIndex index value

/-- Takes the value of a field out and leaves null in its place. -/
def take (r : RecordValue) (name : String) : Except Error (Value × RecordValue) := do
  let index ← r.indexOf name
  return ((r.fields[index]?).getD .null, r.setIndex index .null)

end RecordValue

end DocQuery
