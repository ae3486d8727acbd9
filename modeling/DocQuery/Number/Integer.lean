/-!
# Whole number types

Eight types of whole numbers have 8, 16, 32 or 64 bits, with a sign or without. A number of a type
carries the proof that it lies within the bounds of the type.
-/

namespace DocQuery

inductive IntKind where
  | i8
  | i16
  | i32
  | i64
  | u8
  | u16
  | u32
  | u64
deriving DecidableEq

namespace IntKind

def all : List IntKind := [i8, i16, i32, i64, u8, u16, u32, u64]

/-- The least number of the type. -/
def least : IntKind → Int
  | i8 => -128
  | i16 => -32768
  | i32 => -2147483648
  | i64 => -9223372036854775808
  | u8 | u16 | u32 | u64 => 0

/-- The greatest number of the type. -/
def greatest : IntKind → Int
  | i8 => 127
  | i16 => 32767
  | i32 => 2147483647
  | i64 => 9223372036854775807
  | u8 => 255
  | u16 => 65535
  | u32 => 4294967295
  | u64 => 18446744073709551615

def Holds (k : IntKind) (n : Int) : Prop := k.least ≤ n ∧ n ≤ k.greatest

instance (k : IntKind) (n : Int) : Decidable (k.Holds n) := by
  unfold Holds
  infer_instance

/-- The numbers of the type. -/
abbrev Number (k : IntKind) := { n : Int // k.Holds n }

theorem holds_zero (k : IntKind) : k.Holds 0 := by
  cases k <;> decide

def zero (k : IntKind) : k.Number := ⟨0, k.holds_zero⟩

/-- The name of the type. -/
def name : IntKind → String
  | i8 => "i8"
  | i16 => "i16"
  | i32 => "i32"
  | i64 => "i64"
  | u8 => "u8"
  | u16 => "u16"
  | u32 => "u32"
  | u64 => "u64"

/-- The name of the type as a key. -/
def keyName : IntKind → String
  | i8 => "I8"
  | i16 => "I16"
  | i32 => "I32"
  | i64 => "I64"
  | u8 => "U8"
  | u16 => "U16"
  | u32 => "U32"
  | u64 => "U64"

/-- Every number of `source` is a number of `target`. -/
def includes (target source : IntKind) : Bool :=
  target.least ≤ source.least && source.greatest ≤ target.greatest

end IntKind

end DocQuery
