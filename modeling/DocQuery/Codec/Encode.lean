import DocQuery.Codec.Decode

/-!
# Writing documents

`Converter.encode` writes a value by a converter. A dynamic value is written by the converter of its
runtime type. Tuples are written only where the settings of their converter allow it, and a field of
a record that may be left out is left out while it holds its default.
-/

namespace DocQuery.Converter

open Codec (valueMismatch)
open Sequence (collect collectZip)

universe u

variable {m : Type → Type u} [Monad m] [MonadExcept Error m]

def encodeList (type : Ty) (element : Value → m Datum) : Value → m Datum
  | .null => pure .null
  | .list items => return .array (← collect element items)
  | other => throw (valueMismatch type other)

def encodeEntry (value : Value → m Datum) (entry : String × Value) : m (String × Datum) := do
  let datum ← value entry.2
  pure (entry.1, datum)

def encodeMap (type : Ty) (value : Value → m Datum) : Value → m Datum
  | .null => pure .null
  | .map entries => return .object (← collect (encodeEntry value) entries)
  | other => throw (valueMismatch type other)

def encodeGroup (key value : Value → m Datum) (group : Value × Value) : m Datum := do
  let k ← key group.1
  let v ← value group.2
  pure (.array [k, v])

def encodeGrouping (type : Ty) (key value : Value → m Datum) : Value → m Datum
  | .null => pure .null
  | .grouping groups => do
    let data ← collect (encodeGroup key value) groups
    pure (.object [(Datum.tagKey, .string Datum.groupedTag), ("data", .array data)])
  | other => throw (valueMismatch type other)

def encodeTuple (type : Ty) (items : List (Value → m Datum)) (encodes : Bool) (v : Value) :
    m Datum :=
  if !encodes then
    throw (.conversionNotSupported s!"{type.text} (tuple encoding is disabled)")
  else
    match v with
    | .tuple values =>
      if values.length = items.length then return .array (← collectZip items values)
      else throw (valueMismatch type v)
    | other => throw (valueMismatch type other)

/-- Whether a field is written. -/
def emits (field : Field) (value : Value) : Bool := field.emitDefault || !(value == field.default)

/-- Writes the fields of a record in the order of declaration. -/
def encodeFields :
    List Field → List (Value → m Datum) → List Value → m (List (String × Datum))
  | field :: fields, encoder :: encoders, value :: values =>
    if emits field value then do
      let datum ← encoder value
      let members ← encodeFields fields encoders values
      pure ((field.wireName, datum) :: members)
    else encodeFields fields encoders values
  | _, _, _ => pure []

def encodeRecord (type : RecordType) (fields : List (Value → m Datum)) : Value → m Datum
  | .null => pure .null
  | .record other values =>
    if Ty.record other == .record type then
      return .object (← encodeFields type.fields fields values)
    else throw (valueMismatch (.record type) (.record other values))
  | other => throw (valueMismatch (.record type) other)

mutual

/-- Writes a value by a converter, given how dynamic values are written. -/
def encodeWith (dynamicStep : Value → m Datum) : Converter → Value → m Datum
  | .leaf codec, v => MonadExcept.ofExcept (codec.encode v)
  | nullable _ inner, v => if v.isNull then pure .null else encodeWith dynamicStep inner v
  | list type element, v => encodeList type (encodeWith dynamicStep element) v
  | map type value, v => encodeMap type (encodeWith dynamicStep value) v
  | grouping type key value, v =>
    encodeGrouping type (encodeWith dynamicStep key) (encodeWith dynamicStep value) v
  | tuple type items encodes, v => encodeTuple type (encodersWith dynamicStep items) encodes v
  | record type fields, v => encodeRecord type (encodersWith dynamicStep fields) v
  | dynamic, v => dynamicStep v
  | custom _ encode _, v => MonadExcept.ofExcept (encode v)

def encodersWith (dynamicStep : Value → m Datum) : List Converter → List (Value → m Datum)
  | [] => []
  | converter :: rest => encodeWith dynamicStep converter :: encodersWith dynamicStep rest

end

/-- Writes a value by the converter of its runtime type. `steps` bounds the dynamic steps that may
follow each other. -/
def encodeDynamic (resolve : Ty → m Converter) : (steps : Nat) → Value → m Datum
  | 0, _ => throw (.conversionNotSupported Ty.dynamic.text)
  | steps + 1, v =>
    if v.isNull then pure .null
    else do
      let converter ← resolve v.runtimeType
      encodeWith (encodeDynamic resolve steps) converter v

/-- Writes a value by a converter. -/
def encode (resolve : Ty → m Converter) (converter : Converter) (v : Value) : m Datum :=
  encodeWith (encodeDynamic resolve (v.depth + 1)) converter v

end DocQuery.Converter
