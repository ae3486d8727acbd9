import DocQuery.Codec.Leaf
import DocQuery.Schema.Record

/-!
# Converters

A converter writes the values of one type as documents and reads them back. It is a tree over leaf
codecs: containers hold the converters of what they contain, a record one for each of its fields.
The dynamic converter has no parts; which converter it uses depends on the document or the value it
meets, and is found only then.
-/

namespace DocQuery

inductive Converter where
  | leaf (codec : Codec.Leaf)
  /-- Null is absence, anything else belongs to the inner type. -/
  | nullable (type : Ty) (inner : Converter)
  | list (type : Ty) (element : Converter)
  | map (type : Ty) (value : Converter)
  | grouping (type : Ty) (key value : Converter)
  | tuple (type : Ty) (items : List Converter) (encodes : Bool)
  | record (type : RecordType) (fields : List Converter)
  | dynamic
  /-- A converter supplied from outside. -/
  | custom (type : Ty) (encode : Value → Except Error Datum) (decode : Datum → Except Error Value)

namespace Converter

instance : Inhabited Converter := ⟨dynamic⟩

/-- The type whose values the converter handles. -/
def type : Converter → Ty
  | .leaf codec => codec.type
  | nullable type _ => type
  | list type _ => type
  | map type _ => type
  | grouping type _ _ => type
  | tuple type _ _ => type
  | record type _ => .record type
  | dynamic => .dynamic
  | custom type _ _ => type

/-- Only the converters of records know fields by name. -/
def hasFieldNames : Converter → Bool
  | record _ _ => true
  | _ => false

/-- The document name of a field. -/
def fieldName? (name : String) : Converter → Option String
  | record type _ => (type.field? name).map Field.wireName
  | _ => none

end Converter

end DocQuery
