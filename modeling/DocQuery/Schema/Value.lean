import DocQuery.Error
import DocQuery.Schema.Ty
import DocQuery.Time.Text

/-!
# Values

Defaults, kinds, numeric views and texts of values. `Value.runtimeType` is the type that a value is
written with when nothing else is known of it. `Value.same` compares contents: floating point
numbers by value, zoned instants by their instants, declared types by their names.
-/

namespace DocQuery.Value

mutual

/-- The value of a field that nobody set. -/
def defaultFor : Ty → Value
  | .bool => bool false
  | .char => char '\x00'
  | .string => string ""
  | .int kind => int kind kind.zero
  | .f32 => f32 (.zero false)
  | .f64 => f64 (.zero false)
  | .uuid => uuid .nil
  -- No text without a scheme is a locator, so none could be the default.
  | .url => null
  | .binary => binary []
  | .instant => instant .epoch
  | .zoned => zoned ⟨.epoch, .utc⟩
  | .span => span .zero
  | .enum type => enum type ((type.variants.head?.map Prod.snd).getD 0)
  | .option _ => null
  | .list _ => list []
  | .map _ => map []
  | .tuple items => tuple (defaultsFor items)
  | .grouping _ _ => grouping []
  | .record _ => null
  | .dynamic => null

def defaultsFor : List Ty → List Value
  | [] => []
  | item :: rest => defaultFor item :: defaultsFor rest

end

def isNull : Value → Bool
  | null => true
  | _ => false

/-- The name of a value's kind. -/
def kind : Value → String
  | null => "null"
  | bool _ => "bool"
  | char _ => "char"
  | string _ => "String"
  | int kind _ => kind.name
  | f32 _ => "f32"
  | f64 _ => "f64"
  | uuid _ => "Uuid"
  | url _ => "Url"
  | binary _ => "Binary"
  | instant _ => "DateTime<Utc>"
  | zoned _ => "DateTime<FixedOffset>"
  | span _ => "TimeDelta"
  | enum _ _ => "enum"
  | list _ => "Vec"
  | map _ => "BTreeMap"
  | tuple _ => "tuple"
  | grouping _ => "Grouping"
  | record _ _ => "record"

mutual

/-- The type that a value is written with when its type is not known otherwise. What containers
hold is dynamic. -/
def runtimeType : Value → Ty
  | null => .dynamic
  | bool _ => .bool
  | char _ => .char
  | string _ => .string
  | int kind _ => .int kind
  | f32 _ => .f32
  | f64 _ => .f64
  | uuid _ => .uuid
  | url _ => .url
  | binary _ => .binary
  | instant _ => .instant
  | zoned _ => .zoned
  | span _ => .span
  | enum type _ => .enum type
  | list _ => .list .dynamic
  | map _ => .map .dynamic
  | tuple items => .tuple (runtimeTypes items)
  | grouping _ => .grouping .dynamic .dynamic
  | record type _ => .record type

def runtimeTypes : List Value → List Ty
  | [] => []
  | item :: rest => runtimeType item :: runtimeTypes rest

end

/-- The number as a floating point number. -/
def asFloat? : Value → Option Binary64
  | int _ n => some (Binary.ofInt n.val)
  | f32 x => some (x.convert _)
  | f64 x => some x
  | _ => none

/-- The exact whole number; floating point numbers have none. -/
def asInteger? : Value → Option Int
  | int _ n => some n.val
  | _ => none

def asString? : Value → Option String
  | string s => some s
  | _ => none

def asBool? : Value → Option Bool
  | bool b => some b
  | _ => none

/-- A whole number as a value of a whole number type. -/
def integer (type : Ty) (n : Int) : Except Error Value :=
  match type with
  | .int kind =>
    if h : kind.Holds n then .ok (int kind ⟨n, h⟩)
    else .error (.number (Binary.ofInt n) .outOfRange type.text)
  | other => .error (.typeMismatch "integer type" other.text)

/-- Sets the entry of a key; entries stay in the order of their keys. -/
def insertEntry (key : String) (value : Value) :
    List (String × Value) → List (String × Value)
  | [] => [(key, value)]
  | (k, v) :: rest =>
    if key = k then (key, value) :: rest
    else if key < k then (key, value) :: (k, v) :: rest
    else (k, v) :: insertEntry key value rest

/-- The map of entries in any order; a later entry replaces an earlier one of its key. -/
def mapOf (entries : List (String × Value)) : Value :=
  map (entries.foldl (fun done (key, value) => insertEntry key value done) [])

mutual

/-- Equality of contents. -/
def same : Value → Value → Bool
  | null, null => true
  | bool a, bool b => a == b
  | char a, char b => a == b
  | string a, string b => a == b
  | int k a, int l b => k == l && a.val == b.val
  | f32 a, f32 b => a == b
  | f64 a, f64 b => a == b
  | uuid a, uuid b => a == b
  | url a, url b => a == b
  | binary a, binary b => a == b
  | instant a, instant b => a == b
  | zoned a, zoned b => a.instant == b.instant
  | span a, span b => a == b
  | enum e a, enum f b => e.name == f.name && a == b
  | list a, list b => sameItems a b
  | map a, map b => sameEntries a b
  | tuple a, tuple b => sameItems a b
  | grouping a, grouping b => sameGroups a b
  | record r a, record s b => Ty.same (.record r) (.record s) && sameItems a b
  | _, _ => false

def sameItems : List Value → List Value → Bool
  | [], [] => true
  | a :: as, b :: bs => same a b && sameItems as bs
  | _, _ => false

def sameEntries : List (String × Value) → List (String × Value) → Bool
  | [], [] => true
  | (k, a) :: as, (l, b) :: bs => k == l && same a b && sameEntries as bs
  | _, _ => false

def sameGroups : List (Value × Value) → List (Value × Value) → Bool
  | [], [] => true
  | (k, a) :: as, (l, b) :: bs => same k l && same a b && sameGroups as bs
  | _, _ => false

end

instance : BEq Value := ⟨same⟩

/-- The text of an enumeration value. -/
def enumText (type : EnumType) (discriminant : Int) : String :=
  match type.nameOf? discriminant with
  | some name => type.name ++ "::" ++ name
  | none => type.name ++ "(" ++ toString discriminant ++ ")"

mutual

/-- The text for people. -/
def text : Value → String
  | null => "null"
  | bool value => if value then "true" else "false"
  | char value => Quoted.char value
  | string value => Quoted.string value
  | int _ n => toString n.val
  | f32 x => (x.convert Format.double).toText
  | f64 x => x.toText
  | uuid value => value.toText
  | url value => value.text
  | binary bytes => "<" ++ toString bytes.length ++ " bytes>"
  | instant value => (Zoned.mk value .utc).toText
  | zoned value => value.toText
  | span value => value.toText
  | enum type discriminant => enumText type discriminant
  | list items => "[" ++ ", ".intercalate (texts items) ++ "]"
  | map entries => "\x7b" ++ ", ".intercalate (entryTexts entries) ++ "\x7d"
  | tuple items => "(" ++ ", ".intercalate (texts items) ++ ")"
  | grouping groups => "group[" ++ ", ".intercalate (groupTexts groups) ++ "]"
  | record type fields =>
    type.name ++ " \x7b " ++ ", ".intercalate (fieldTexts type.fields fields) ++ " \x7d"

def texts : List Value → List String
  | [] => []
  | item :: rest => text item :: texts rest

def entryTexts : List (String × Value) → List String
  | [] => []
  | (key, value) :: rest => (Quoted.string key ++ ": " ++ text value) :: entryTexts rest

def groupTexts : List (Value × Value) → List String
  | [] => []
  | (key, value) :: rest => (text key ++ " => " ++ text value) :: groupTexts rest

def fieldTexts : List Field → List Value → List String
  | field :: fields, value :: values =>
    (field.name ++ ": " ++ text value) :: fieldTexts fields values
  | _, _ => []

end

mutual

/-- How deep values are nested; a value without parts has depth zero. -/
def depth : Value → Nat
  | list items => depthItems items + 1
  | map entries => depthEntries entries + 1
  | tuple items => depthItems items + 1
  | grouping groups => depthGroups groups + 1
  | record _ fields => depthItems fields + 1
  | _ => 0

def depthItems : List Value → Nat
  | [] => 0
  | item :: rest => max (depth item) (depthItems rest)

def depthEntries : List (String × Value) → Nat
  | [] => 0
  | (_, value) :: rest => max (depth value) (depthEntries rest)

def depthGroups : List (Value × Value) → Nat
  | [] => 0
  | (key, value) :: rest => max (max (depth key) (depth value)) (depthGroups rest)

end

end DocQuery.Value
