import DocQuery.Number.Binary
import DocQuery.Number.Integer
import DocQuery.Text.Url
import DocQuery.Text.Uuid
import DocQuery.Time.Basic

/-!
# Application types and values

An application describes its data by types. A type is a leaf, built from other types, or declared: an
enumeration lists named whole numbers, and a record lists fields. A field has a name in the
application and one in documents, and a default that stands for a missing document member.
`dynamic` is the type of a value whose type is seen only from its document.

A value belongs to a type. Absence is `null`, which is not a type of its own. A map holds its
entries in the order of their keys; a record value holds its type and one value for each field in
the order of declaration.
-/

namespace DocQuery

/-- Named whole numbers. Several names may share a number. -/
structure EnumType where
  name : String
  variants : List (String × Int)
deriving DecidableEq

inductive RecordKind where
  /-- Fields have document names and emit policies of their own. -/
  | declared
  /-- Fields go by their names and are always emitted. -/
  | anonymous
deriving DecidableEq

mutual

inductive Ty where
  | bool
  | char
  | string
  | int (kind : IntKind)
  | f32
  | f64
  | uuid
  | url
  | binary
  | instant
  | zoned
  | span
  | enum (type : EnumType)
  | option (inner : Ty)
  | list (element : Ty)
  /-- Entries under string keys. -/
  | map (value : Ty)
  | tuple (items : List Ty)
  /-- Groups of results, each under its key. -/
  | grouping (key value : Ty)
  | record (type : RecordType)
  | dynamic

structure RecordType where
  name : String
  kind : RecordKind
  fields : List Field

structure Field where
  name : String
  /-- The key in documents. -/
  wireName : String
  type : Ty
  /-- Whether the field is written while it holds its default. -/
  emitDefault : Bool
  default : Value

inductive Value where
  | null
  | bool (value : Bool)
  | char (value : Char)
  | string (value : String)
  | int (kind : IntKind) (value : kind.Number)
  | f32 (value : Binary32)
  | f64 (value : Binary64)
  | uuid (value : Uuid)
  | url (value : Url)
  | binary (bytes : List UInt8)
  | instant (value : Instant)
  | zoned (value : Zoned)
  | span (value : Span)
  | enum (type : EnumType) (discriminant : Int)
  | list (items : List Value)
  | map (entries : List (String × Value))
  | tuple (items : List Value)
  | grouping (groups : List (Value × Value))
  | record (type : RecordType) (fields : List Value)

end

namespace EnumType

/-- The first name of a discriminant. -/
def nameOf? (e : EnumType) (discriminant : Int) : Option String :=
  (e.variants.find? fun v => v.2 == discriminant).map Prod.fst

/-- The discriminant of the first variant with a name. -/
def discriminantOf? (e : EnumType) (name : String) : Option Int :=
  (e.variants.find? fun v => v.1 == name).map Prod.snd

end EnumType

instance : Inhabited Ty := ⟨.dynamic⟩
instance : Inhabited Value := ⟨.null⟩

end DocQuery
