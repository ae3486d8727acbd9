import DocQuery.Codec.Converter
import DocQuery.Schema.Size

/-!
# Factories of converters

A factory says for every type whether it has a converter for it and which converters of component
types it needs to build it. It never builds the needed converters itself: whoever runs a recipe finds
them, so that a factory placed in front of others also serves the components of their types. Only
component types can be needed, so building a converter ends.
-/

namespace DocQuery

/-- What a factory does with the type `t`. -/
inductive Recipe (t : Ty) where
  /-- The factory has no converter for the type. -/
  | pass
  | fail (error : Error)
  | done (converter : Converter)
  /-- The factory goes on with the converter of a component type, or without one. -/
  | need (child : Ty) (smaller : child.size < t.size)
      (next : Except Error Converter → Recipe t)

namespace Recipe

variable {t : Ty}

/-- Goes on with the converter of a component type and fails without it. -/
def require (child : Ty) (smaller : child.size < t.size) (next : Converter → Recipe t) :
    Recipe t :=
  need child smaller fun found =>
    match found with
    | .ok converter => next converter
    | .error error => fail error

/-- Goes on with the converters of several component types, found in their order. -/
def requireAll : (children : List Ty) → (∀ child ∈ children, child.size < t.size) →
    (List Converter → Recipe t) → Recipe t
  | [], _, next => next []
  | child :: rest, smaller, next =>
    require child (smaller child (List.mem_cons_self ..)) fun converter =>
      requireAll rest (fun c h => smaller c (List.mem_cons_of_mem _ h)) fun converters =>
        next (converter :: converters)

universe u

variable {m : Type → Type u} [Monad m] [MonadExcept Error m]

/-- Runs a recipe, finding the converters of component types through `resolve`. -/
def run (resolve : (child : Ty) → child.size < t.size → m Converter) :
    Recipe t → m (Option Converter)
  | pass => pure none
  | fail error => throw error
  | done converter => pure (some converter)
  | need child smaller next => do
    let found ← tryCatch (Except.ok <$> resolve child smaller) fun error => pure (.error error)
    run resolve (next found)

end Recipe

structure Factory where
  recipe : (t : Ty) → Recipe t

namespace Factory

/-- Booleans, characters, strings and all numbers. -/
def primitive : Factory := ⟨fun
  | .bool => .done (.leaf .bool)
  | .char => .done (.leaf .char)
  | .string => .done (.leaf .string)
  | .int kind => .done (.leaf (.int kind))
  | .f32 => .done (.leaf .f32)
  | .f64 => .done (.leaf .f64)
  | _ => .pass⟩

def enum (encoding : EnumEncoding) : Factory := ⟨fun
  | .enum type => .done (.leaf (.enum type encoding))
  | _ => .pass⟩

/-- Universally unique identifiers and locators. -/
def identifier : Factory := ⟨fun
  | .uuid => .done (.leaf .uuid)
  | .url => .done (.leaf .url)
  | _ => .pass⟩

/-- Instants with and without an offset, and spans. -/
def time (millis : Bool) : Factory := ⟨fun
  | .instant => .done (.leaf (.instant millis))
  | .zoned => .done (.leaf (.zoned millis))
  | .span => .done (.leaf .span)
  | _ => .pass⟩

def binary : Factory := ⟨fun
  | .binary => .done (.leaf .binary)
  | _ => .pass⟩

def nullable : Factory := ⟨fun
  | .option inner => .require inner (Nat.lt_succ_self _) fun c => .done (.nullable (.option inner) c)
  | _ => .pass⟩

def list : Factory := ⟨fun
  | .list element => .require element (Nat.lt_succ_self _) fun c => .done (.list (.list element) c)
  | _ => .pass⟩

def map : Factory := ⟨fun
  | .map value => .require value (Nat.lt_succ_self _) fun c => .done (.map (.map value) c)
  | _ => .pass⟩

def grouping : Factory := ⟨fun
  | .grouping key value =>
    .require key (Nat.lt_succ_of_le (Nat.le_add_right ..)) fun k =>
      .require value (Nat.lt_succ_of_le (Nat.le_add_left ..)) fun v =>
        .done (.grouping (.grouping key value) k v)
  | _ => .pass⟩

/-- Tuples of at least one item. -/
def tuple (encodes : Bool) : Factory := ⟨fun
  | .tuple [] => .pass
  | .tuple (item :: items) =>
    .requireAll (item :: items) (fun _ h => Ty.size_lt_of_mem_tuple h) fun converters =>
      .done (.tuple (.tuple (item :: items)) converters encodes)
  | _ => .pass⟩

/-- The recipe of a record: the converters of all fields. -/
def recordRecipe (r : RecordType) : Recipe (.record r) :=
  .requireAll (r.fields.map Field.type)
    (fun child h => by
      obtain ⟨field, mem, rfl⟩ := List.mem_map.mp h
      exact Ty.size_lt_of_mem_record mem)
    fun converters => .done (.record r converters)

def record (kind : RecordKind) : Factory := ⟨fun
  | .record r => if r.kind = kind then recordRecipe r else .pass
  | _ => .pass⟩

def dynamic : Factory := ⟨fun
  | .dynamic => .done .dynamic
  | _ => .pass⟩

/-- The factories that serve all types but the empty tuple. -/
def defaults (settings : Settings) : List Factory :=
  [primitive, enum settings.enumEncoding, identifier, time settings.timeMillis, binary, nullable,
    list, map, grouping, tuple settings.tupleEncoding, record .anonymous, record .declared, dynamic]

universe u

variable {m : Type → Type u} [Monad m] [MonadExcept Error m]

/-- The converter of the first factory that has one. -/
def firstOf (t : Ty) (resolve : (child : Ty) → child.size < t.size → m Converter) :
    List Factory → m (Option Converter)
  | [] => pure none
  | factory :: rest => do
    match ← (factory.recipe t).run resolve with
    | some converter => pure (some converter)
    | none => firstOf t resolve rest

end Factory

/-- Builds the converter of a type by a chain of factories, and those of its components by the same
chain. -/
def Factory.build (chain : List Factory) (t : Ty) : Except Error Converter := do
  match ← Factory.firstOf t (fun child _ => Factory.build chain child) chain with
  | some converter => .ok converter
  | none => .error (.conversionNotSupported t.text)
termination_by t.size

end DocQuery
