import DocQuery.Schema.Record
import DocQuery.Sequence

/-!
# Values as values of a type

`Ty.accept` takes a value of unknown origin as a value of a declared type. Unlike a conversion it
changes no content: every leaf must already have the type's own kind. Declared types are rebuilt:
an enumeration value by its number alone, a record value by the names of its fields, so that a value
of another declaration is accepted where it has what the type asks for.
-/

namespace DocQuery.Ty

open Sequence (collect)

/-- Why a value of another kind is no value of a type. -/
def refuse (t : Ty) (v : Value) : Error :=
  if v.isNull then .nullNotAllowed t.text else .typeMismatch t.text v.kind

/-- The variant of an enumeration with the number of a value. -/
def acceptEnum (type : EnumType) (v : Value) : Except Error Value :=
  match v with
  | .enum _ discriminant =>
    if type.variants.any fun variant => variant.2 == discriminant then .ok (.enum type discriminant)
    else .error (.argument (.notDiscriminant discriminant type.name))
  | other => .error (refuse (.enum type) other)

def acceptEntry (value : Value → Except Error Value) (entry : String × Value) :
    Except Error (String × Value) := do
  let accepted ← value entry.2
  return (entry.1, accepted)

def acceptGroup (key value : Value → Except Error Value) (group : Value × Value) :
    Except Error (Value × Value) := do
  let k ← key group.1
  let v ← value group.2
  return (k, v)

mutual

/-- A value as a value of a type. -/
def accept : Ty → Value → Except Error Value
  | dynamic, v => .ok v
  | option inner, v => if v.isNull then .ok .null else accept inner v
  | list element, .list items => return .list (← collect (accept element) items)
  | map value, .map entries => return .map (← collect (acceptEntry (accept value)) entries)
  | tuple types, .tuple items =>
    if types.length = items.length then return .tuple (← acceptItems types items)
    else .error (refuse (tuple types) (.tuple items))
  | grouping key value, .grouping groups =>
    return .grouping (← collect (acceptGroup (accept key) (accept value)) groups)
  | record ⟨name, kind, fields⟩, .record type values =>
    return .record ⟨name, kind, fields⟩ (← acceptFields fields ⟨type, values⟩)
  | enum type, v => acceptEnum type v
  | t, v => if v.runtimeType == t then .ok v else .error (refuse t v)

def acceptItems : List Ty → List Value → Except Error (List Value)
  | t :: types, v :: values => do
    let first ← accept t v
    let rest ← acceptItems types values
    return first :: rest
  | _, _ => .ok []

/-- The values of fields, each taken out of a record value by its name. -/
def acceptFields : List Field → RecordValue → Except Error (List Value)
  | [], _ => .ok []
  | field :: fields, source => do
    let (first, left) ← acceptField field source
    let rest ← acceptFields fields left
    return first :: rest

def acceptField : Field → RecordValue → Except Error (Value × RecordValue)
  | ⟨name, _, type, _, _⟩, source => do
    let (value, left) ← source.take name
    let accepted ← accept type value
    return (accepted, left)

end

end DocQuery.Ty
