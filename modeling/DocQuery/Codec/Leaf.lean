import DocQuery.Codec.Time
import DocQuery.Schema.Cast
import DocQuery.Settings.Basic
import DocQuery.Text.Base64

/-!
# Codecs of types without parts

A leaf codec writes the values of one type as documents and reads them back. Whole numbers are
written as numbers only while all whole numbers of their magnitude are exact, and reading accepts
exactly such numbers within the bounds of the type.
-/

namespace DocQuery.Codec

/-- A codec for one type whose values have no parts. -/
inductive Leaf where
  | bool
  | char
  | string
  | int (kind : IntKind)
  | f32
  | f64
  | uuid
  | url
  | binary
  | instant (millis : Bool)
  | zoned (millis : Bool)
  | span
  | enum (type : EnumType) (encoding : EnumEncoding)

/-- The type whose values a leaf codec handles. -/
def Leaf.type : Leaf → Ty
  | bool => .bool
  | char => .char
  | string => .string
  | int kind => .int kind
  | f32 => .f32
  | f64 => .f64
  | uuid => .uuid
  | url => .url
  | binary => .binary
  | instant _ => .instant
  | zoned _ => .zoned
  | span => .span
  | enum type _ => .enum type

/-- The least number that is read as one of a whole number type: the least of the type, but none
below the safe whole numbers. -/
def leastRead (kind : IntKind) : Binary64 :=
  let least := Binary.ofInt kind.least
  let safe := -Binary.ofInt Datum.maxSafeInteger
  if least.lt safe then safe else least

/-- The greatest number that is read as one of a whole number type. The greatest of the type may
have been rounded up past it, but then it is not safe. -/
def greatestRead (kind : IntKind) : Binary64 :=
  let greatest := Binary.ofInt kind.greatest
  let safe := Binary.ofInt Datum.maxSafeInteger
  if safe.lt greatest then safe else greatest

/-- The whole number of a document number, where the number is whole, safe and within the bounds of
the type. -/
def narrowTo (kind : IntKind) (x : Binary64) : Except Error kind.Number :=
  if !x.isFinite then .error (.number x .outOfRange kind.name)
  else if !x.isIntegral then .error (.number x .fractional kind.name)
  else if x.lt (leastRead kind) || (greatestRead kind).lt x then
    .error (.number x .outOfRange kind.name)
  else
    let n := x.clampToInt Value.leastWide Value.greatestWide
    if h : kind.Holds n then .ok ⟨n, h⟩
    else .error (.number (Binary.ofInt n) .outOfRange kind.name)

/-- A document number as a value of a whole number type. -/
def narrow (type : Ty) (x : Binary64) : Except Error Value :=
  match type with
  | .int kind => (narrowTo kind x).map (.int kind)
  | other => .error (.typeMismatch "integer type" other.text)

/-- The codec of a whole number type. -/
def Leaf.ofInteger (type : Ty) : Except Error Leaf :=
  match type with
  | .int kind => .ok (.int kind)
  | other => .error (.argument (.notInteger other.text))

/-- A number that a document may hold. -/
def finiteNumber (type : Ty) (x : Binary64) : Except Error Datum :=
  if x.isFinite then .ok (.number x) else .error (.number x .outOfRange type.text)

def encodeEnum (type : EnumType) (encoding : EnumEncoding) (discriminant : Int) :
    Except Error Datum :=
  match encoding with
  | .numeric => .ok (Datum.ofInt discriminant)
  | .name =>
    match type.nameOf? discriminant with
    | some name => .ok (.string name)
    | none => .error (.argument (.notDiscriminant discriminant type.name))

/-- The discriminant that a document stands for, where it is of the kind that the encoding asks
for. -/
def decodeEnum (type : EnumType) (encoding : EnumEncoding) (d : Datum) : Except Error Value :=
  let variant (discriminant : Option Int) : Except Error Value :=
    match discriminant with
    | some discriminant => .ok (.enum type discriminant)
    | none => .error (.argument (.notVariant d.display type.name))
  match encoding, d with
  | .numeric, .number x => do
    let n ← narrowTo .i64 x
    variant ((type.nameOf? n.val).map fun _ => n.val)
  | .name, .string name => variant (type.discriminantOf? name)
  | .numeric, other => .error (datumMismatch (.enum type) "NUMBER" other)
  | .name, other => .error (datumMismatch (.enum type) "STRING" other)

def encodeBinary (bytes : List UInt8) : Datum :=
  .object [(Datum.tagKey, .string Datum.binaryTag), ("data", .string (Base64.encode bytes))]

def decodeBinary (d : Datum) : Except Error Value :=
  if d.tag? ≠ some Datum.binaryTag then .error (datumMismatch .binary "PTYPE<BINARY>" d)
  else
    match (d.get? "data").bind Datum.asString? with
    | none => .error (.typeMismatch "BINARY with string data" d.display)
    | some text =>
      match Base64.decode? text with
      | some bytes => .ok (.binary bytes)
      | none => .error (.argument .base64)

namespace Leaf

/-- The document of a value of the codec's type. -/
def encode : Leaf → Value → Except Error Datum
  | bool, .bool b => .ok (.bool b)
  | char, .char c => .ok (.string (String.singleton c))
  | string, .string s => .ok (.string s)
  | int kind, .int k n =>
    if k ≠ kind then .error (valueMismatch (.int kind) (.int k n))
    else if n.val.natAbs ≤ Datum.maxSafeInteger then .ok (Datum.ofInt n.val)
    else .error (.number (Binary.ofInt n.val) .outOfRange kind.name)
  | f32, .f32 x => finiteNumber .f32 (x.convert _)
  | f64, .f64 x => finiteNumber .f64 x
  | uuid, .uuid id => .ok (.string id.toText)
  | url, .url u => .ok (.string u.text)
  | binary, .binary bytes => .ok (encodeBinary bytes)
  | binary, .null => .ok .null
  -- An instant is written as seen by a clock of universal time.
  | instant millis, .instant t => .ok (encodeTime millis ⟨t, .utc⟩)
  | zoned millis, .zoned t => .ok (encodeTime millis t)
  | span, .span d => .ok (.number (spanSeconds d))
  | enum type encoding, .enum other discriminant =>
    if other.name = type.name then encodeEnum type encoding discriminant
    else .error (valueMismatch (.enum type) (.enum other discriminant))
  | leaf, value => .error (valueMismatch leaf.type value)

/-- The greatest number of the narrow floating point format. -/
def greatestSingle : Binary64 := Binary.ofRat (Binary.exact false 16777215 Format.single.maxExp)

/-- The value that a document stands for. -/
def decode : Leaf → Datum → Except Error Value
  | bool, .bool b => .ok (.bool b)
  | bool, d => .error (datumMismatch .bool "BOOL" d)
  | char, .string s =>
    match s.toList with
    | [c] => .ok (.char c)
    | cs => .error (.typeMismatch "single-character STRING" s!"STRING of length {cs.length}")
  | char, d => .error (datumMismatch .char "STRING" d)
  | string, .string s => .ok (.string s)
  | string, d => .error (datumMismatch .string "STRING" d)
  | int kind, .number x => narrow (.int kind) x
  | int kind, d => .error (datumMismatch (.int kind) "NUMBER" d)
  | f32, .number x =>
    -- A number just past the greatest is refused, although it would round down to it.
    if greatestSingle.lt x.abs then .error (.number x .outOfRange Ty.f32.text)
    else .ok (.f32 (x.convert _))
  | f32, d => .error (datumMismatch .f32 "NUMBER" d)
  | f64, .number x => .ok (.f64 x)
  | f64, d => .error (datumMismatch .f64 "NUMBER" d)
  | uuid, .string s =>
    match Uuid.ofText? s with
    | some id => .ok (.uuid id)
    | none => .error (.typeMismatch "UUID string" (Quoted.string s))
  | uuid, d => .error (datumMismatch .uuid "STRING" d)
  | url, .string s =>
    match Url.ofText? s with
    | some u => .ok (.url u)
    | none => .error (.typeMismatch "URL string" (Quoted.string s))
  | url, d => .error (datumMismatch .url "STRING" d)
  | binary, .null => .ok .null
  | binary, d => decodeBinary d
  | instant millis, d => (decodeTime millis .instant d).map fun t => .instant t.instant
  | zoned millis, d => (decodeTime millis .zoned d).map .zoned
  | span, .number x => (spanOfSeconds x).map .span
  | span, d => .error (datumMismatch .span "NUMBER" d)
  | enum type encoding, d => decodeEnum type encoding d

end Leaf

end DocQuery.Codec
