import DocQuery.Codec.Converter
import DocQuery.Codec.Infer
import DocQuery.Sequence

/-!
# Reading documents

`Converter.decode` reads a document by a converter. The readers of containers are stated over the
readers of their parts. A dynamic document is read by the converter of its inferred type, which is
found through `resolve` in the monad at hand: a pure look-up, or one that also fills a cache. Each
dynamic step below a container goes down in the document, so the depth of the document bounds how
many of them follow each other.
-/

namespace DocQuery.Converter

open Codec (datumMismatch)
open Sequence (collect collectZip)

universe u

variable {m : Type → Type u} [Monad m] [MonadExcept Error m]

def decodeList (element : Datum → m Value) : Datum → m Value
  | .null => pure .null
  | .array items => return .list (← collect element items)
  | other => throw (.typeMismatch "ARRAY" other.kind)

/-- Reads the members of a map. A key must not come up twice. -/
def decodeEntries (value : Datum → m Value) (done : List (String × Value)) :
    List (String × Datum) → m (List (String × Value))
  | [] => pure done
  | (key, item) :: rest => do
    -- The value is read first, so its error comes before that of the key.
    let decoded ← value item
    if (Members.get? key done).isSome then throw (.argument (.duplicateKey key))
    else decodeEntries value (Value.insertEntry key decoded done) rest

/-- A map is an object that is no pseudo type. -/
def decodeMap (value : Datum → m Value) (d : Datum) : m Value :=
  match d with
  | .null => pure .null
  | .object members =>
    if d.tag?.isSome then throw (.typeMismatch "OBJECT" d.kind)
    else return .map (← decodeEntries value [] members)
  | other => throw (.typeMismatch "OBJECT" other.kind)

def decodeGroup (key value : Datum → m Value) (d : Datum) : m (Value × Value) :=
  match d with
  | .array [k, v] => do
    let k ← key k
    let v ← value v
    pure (k, v)
  | other => throw (.typeMismatch "[group, reduction] pair" other.display)

def decodeGrouping (type : Ty) (key value : Datum → m Value) (d : Datum) : m Value :=
  if d.isNull then pure .null
  else if d.tag? ≠ some Datum.groupedTag then throw (datumMismatch type "PTYPE<GROUPED_DATA>" d)
  else
    match (d.get? "data").bind Datum.asArray? with
    | some pairs => return .grouping (← collect (decodeGroup key value) pairs)
    | none => throw (.typeMismatch "GROUPED_DATA with array data" d.display)

/-- The keys of objects that stand for pairs. -/
def pairKeys : List (String × String) := [("left", "right"), ("group", "reduction")]

/-- Reads an object as a pair, by the first pair of keys of which one is present. -/
def decodePair (first second : Datum → m Value) (d : Datum) :
    List (String × String) → m Value
  | [] => throw (.typeMismatch "OBJECT with left/right or group/reduction" d.display)
  | (k, l) :: rest =>
    match d.get? k, d.get? l with
    -- With one key of a pair missing, the other pair is not tried.
    | some a, some b => do
      let a ← first a
      let b ← second b
      pure (.tuple [a, b])
    | none, none => decodePair first second d rest
    | _, _ => throw (.typeMismatch s!"OBJECT with both '{k}' and '{l}'" d.display)

/-- A tuple is an array of its size; a pair may also be an object. -/
def decodeTuple (type : Ty) (items : List (Datum → m Value)) (d : Datum) : m Value :=
  match d, items with
  | .array ds, items =>
    if ds.length = items.length then return .tuple (← collectZip items ds)
    else throw (.typeMismatch s!"ARRAY of length {items.length}" s!"ARRAY of length {ds.length}")
  | .object _, [first, second] => decodePair first second d pairKeys
  | .null, _ => throw (.nullNotAllowed type.text)
  | other, _ => throw (.typeMismatch "ARRAY" other.kind)

/-- Reads the members of a record into its fields. Members that belong to no field are ignored. -/
def decodeFields (type : RecordType) (fields : List (Datum → m Value)) (record : RecordValue) :
    List (String × Datum) → m RecordValue
  | [] => pure record
  | (key, item) :: rest =>
    match type.fieldByWireName? key with
    | none => decodeFields type fields record rest
    | some (index, _) =>
      match fields[index]? with
      | none => decodeFields type fields record rest
      | some field => do
        let value ← field item
        decodeFields type fields (record.setIndex index value) rest

/-- A record is an object that is no pseudo type; missing members leave the defaults. -/
def decodeRecord (type : RecordType) (fields : List (Datum → m Value)) (d : Datum) : m Value :=
  match d with
  | .null => pure .null
  | .object members =>
    if d.tag?.isSome then throw (.typeMismatch s!"OBJECT for {type.name}" d.kind)
    else do
      let record ← decodeFields type fields (RecordValue.default type) members
      pure record.toValue
  | other => throw (.typeMismatch "OBJECT" other.kind)

mutual

/-- Reads a document by a converter, given how dynamic documents are read. -/
def decodeWith (dynamicStep : Datum → m Value) : Converter → Datum → m Value
  | .leaf codec, d => MonadExcept.ofExcept (codec.decode d)
  | nullable _ inner, d => if d.isNull then pure .null else decodeWith dynamicStep inner d
  | list _ element, d => decodeList (decodeWith dynamicStep element) d
  | map _ value, d => decodeMap (decodeWith dynamicStep value) d
  | grouping type key value, d =>
    decodeGrouping type (decodeWith dynamicStep key) (decodeWith dynamicStep value) d
  | tuple type items _, d => decodeTuple type (decodersWith dynamicStep items) d
  | record type fields, d => decodeRecord type (decodersWith dynamicStep fields) d
  | dynamic, d => dynamicStep d
  | custom _ _ decode, d => MonadExcept.ofExcept (decode d)

def decodersWith (dynamicStep : Datum → m Value) : List Converter → List (Datum → m Value)
  | [] => []
  | converter :: rest => decodeWith dynamicStep converter :: decodersWith dynamicStep rest

end

/-- Reads a document by the converter of its inferred type. `steps` bounds the dynamic steps that
may follow each other. -/
def decodeDynamic (resolve : Ty → m Converter) : (steps : Nat) → Datum → m Value
  | 0, _ => throw (.conversionNotSupported Ty.dynamic.text)
  | steps + 1, d => do
    let type ← MonadExcept.ofExcept d.inferType
    if type == .dynamic then pure .null
    else do
      let converter ← resolve type
      decodeWith (decodeDynamic resolve steps) converter d

/-- Reads a document by a converter. -/
def decode (resolve : Ty → m Converter) (converter : Converter) (d : Datum) : m Value :=
  decodeWith (decodeDynamic resolve (d.depth + 1)) converter d

end DocQuery.Converter
