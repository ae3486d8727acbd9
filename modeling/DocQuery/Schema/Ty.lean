import DocQuery.Schema.Basic
import DocQuery.Text.Quoted

/-!
# Types: texts, keys and assignability

Enumerations are the same when their names are, records when names and kinds are; all other types
are compared by their structure. The key of a type forgets its parameters, so that something said
of a key holds for every instance. `Ty.isAssignableFrom` says where a value of one type may be used
as another without a change to its document.
-/

namespace DocQuery

namespace Ty

mutual

/-- The same type. -/
def same : Ty → Ty → Bool
  | bool, bool => true
  | char, char => true
  | string, string => true
  | int a, int b => a == b
  | f32, f32 => true
  | f64, f64 => true
  | uuid, uuid => true
  | url, url => true
  | binary, binary => true
  | instant, instant => true
  | zoned, zoned => true
  | span, span => true
  | enum a, enum b => a.name == b.name
  | option a, option b => same a b
  | list a, list b => same a b
  | map a, map b => same a b
  | tuple a, tuple b => sameItems a b
  | grouping k v, grouping l w => same k l && same v w
  | record a, record b => a.name == b.name && a.kind == b.kind
  | dynamic, dynamic => true
  | _, _ => false

def sameItems : List Ty → List Ty → Bool
  | [], [] => true
  | a :: as, b :: bs => same a b && sameItems as bs
  | _, _ => false

end

instance : BEq Ty := ⟨same⟩

mutual

/-- The text of a type. Declared types go by their names. -/
def text : Ty → String
  | bool => "bool"
  | char => "char"
  | string => "String"
  | int kind => kind.name
  | f32 => "f32"
  | f64 => "f64"
  | uuid => "Uuid"
  | url => "Url"
  | binary => "Binary"
  | instant => "DateTime<Utc>"
  | zoned => "DateTime<FixedOffset>"
  | span => "TimeDelta"
  | enum type => type.name
  | option inner => "Option<" ++ text inner ++ ">"
  | list element => "Vec<" ++ text element ++ ">"
  | map value => "BTreeMap<String, " ++ text value ++ ">"
  | tuple items => "(" ++ ", ".intercalate (texts items) ++ ")"
  | grouping key value => "Grouping<" ++ text key ++ ", " ++ text value ++ ">"
  | record type => type.name
  | dynamic => "Value"

def texts : List Ty → List String
  | [] => []
  | item :: rest => text item :: texts rest

end

/-- The bounds of a whole number type. -/
def bounds? : Ty → Option (Int × Int)
  | int kind => some (kind.least, kind.greatest)
  | _ => none

def isInteger : Ty → Bool
  | int _ => true
  | _ => false

def isFloat : Ty → Bool
  | f32 | f64 => true
  | _ => false

def isNumeric (t : Ty) : Bool := t.isInteger || t.isFloat

/-- The types for which null means absence. -/
def isNullable : Ty → Bool
  | option _ | list _ | map _ | grouping _ _ | record _ | binary | dynamic => true
  | _ => false

/-- What a list, a map or an option holds. -/
def element? : Ty → Option Ty
  | list inner | option inner | map inner => some inner
  | _ => none

/-- The whole number types whose numbers a floating point type keeps exactly. -/
def keepsExactly : Ty → IntKind → Bool
  | f32, .i8 | f32, .i16 | f32, .u8 | f32, .u16 => true
  | f64, .i64 | f64, .u64 => false
  | f64, _ => true
  | _, _ => false

/-- Whether a value of type `source` may be used as `target` without a change to its document. -/
def isAssignableFrom (target source : Ty) : Bool :=
  if target == source then true
  else match target, source with
    | dynamic, _ => true
    | option target, option inner => isAssignableFrom target inner
    | option target, source => isAssignableFrom target source
    | zoned, instant => true
    | f64, f32 => true
    | int target, int source => target.includes source
    | target, int source => target.keepsExactly source
    | _, _ => false

end Ty

/-- The kind of a type without its parameters. -/
inductive TypeKey where
  | bool
  | char
  | string
  | int (kind : IntKind)
  | f32
  | f64
  | uuid
  | url
  | binary
  | instant
  | zoned
  | span
  | enum (name : String)
  | option
  | list
  | map
  | tuple (size : Nat)
  | grouping
  | record (name : String)
  | dynamic
deriving DecidableEq

namespace TypeKey

/-- The text of a key; names in it are quoted. -/
def text : TypeKey → String
  | bool => "Bool"
  | char => "Char"
  | string => "String"
  | int kind => kind.keyName
  | f32 => "F32"
  | f64 => "F64"
  | uuid => "Uuid"
  | url => "Url"
  | binary => "Binary"
  | instant => "DateTime"
  | zoned => "DateTimeOffset"
  | span => "Duration"
  | enum name => "Enum(" ++ Quoted.string name ++ ")"
  | option => "Option"
  | list => "List"
  | map => "Map"
  | tuple size => "Tuple(" ++ toString size ++ ")"
  | grouping => "Grouping"
  | record name => "Record(" ++ Quoted.string name ++ ")"
  | dynamic => "Dynamic"

end TypeKey

namespace Ty

def key : Ty → TypeKey
  | bool => .bool
  | char => .char
  | string => .string
  | int kind => .int kind
  | f32 => .f32
  | f64 => .f64
  | uuid => .uuid
  | url => .url
  | binary => .binary
  | instant => .instant
  | zoned => .zoned
  | span => .span
  | enum type => .enum type.name
  | option _ => .option
  | list _ => .list
  | map _ => .map
  | tuple items => .tuple items.length
  | grouping _ _ => .grouping
  | record type => .record type.name
  | dynamic => .dynamic

end Ty

end DocQuery
