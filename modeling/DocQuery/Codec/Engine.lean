import DocQuery.Codec.Encode
import DocQuery.Codec.Factory

/-!
# Engines

An engine builds converters by its chain of factories and keeps those it has built. The cache is a
list in the order of building, in which a type is found when it is the same as the type looked for;
declared types are the same when their names are. What was built stays, also when the converter that
it was built for could not be completed.
-/

namespace DocQuery

/-- The converters built so far, each with the type it was built for. -/
structure ConverterCache where
  entries : List (Ty × Converter)

namespace ConverterCache

def empty : ConverterCache := ⟨[]⟩

instance : Inhabited ConverterCache := ⟨empty⟩

def find? (cache : ConverterCache) (t : Ty) : Option Converter :=
  (cache.entries.find? fun entry => entry.1 == t).map Prod.snd

/-- The place of the entry that is found for a type. -/
def place? (cache : ConverterCache) (t : Ty) : Option Nat :=
  cache.entries.findIdx? fun entry => entry.1 == t

def size (cache : ConverterCache) : Nat := cache.entries.length

def add (cache : ConverterCache) (t : Ty) (converter : Converter) : ConverterCache :=
  ⟨cache.entries ++ [(t, converter)]⟩

end ConverterCache

/-- A computation with a cache of converters. The cache survives errors. -/
abbrev Session := ExceptT Error (StateM ConverterCache)

namespace Session

def run {α : Type} (session : Session α) (cache : ConverterCache) :
    Except Error α × ConverterCache :=
  StateT.run (ExceptT.run session) cache

/-- The answer of a session that starts without converters. -/
def answer {α : Type} (session : Session α) : Except Error α := (session.run .empty).1

/-- The converter found for a type, or the one given, which is then kept. -/
def findOrAdd (t : Ty) (converter : Converter) : Session Converter := do
  let cache ← get
  match cache.find? t with
  | some found => pure found
  | none => do
    set (cache.add t converter)
    pure converter

end Session

/-- Finds or builds the converter of a type. The converters of components are found or built the
same way, and before that of the type itself. -/
def Factory.resolve (chain : List Factory) (t : Ty) : Session Converter := do
  let cache ← get
  match cache.find? t with
  | some found => pure found
  | none => do
    -- A component may have been the same type by name, and then its converter stays.
    match ← Factory.firstOf t (fun child _ => Factory.resolve chain child) chain with
    | some built => Session.findOrAdd t built
    | none => throw (.conversionNotSupported t.text)
termination_by t.size

structure Engine where
  settings : Settings
  chain : List Factory

namespace Engine

/-- The engine of the default factories. -/
def ofSettings (settings : Settings) : Engine := ⟨settings, Factory.defaults settings⟩

def resolve (engine : Engine) (t : Ty) : Session Converter := Factory.resolve engine.chain t

/-- Writes a value of a type. -/
def encode (engine : Engine) (t : Ty) (v : Value) : Session Datum := do
  let converter ← engine.resolve t
  converter.encode engine.resolve v

/-- Reads a value of a type. -/
def decode (engine : Engine) (t : Ty) (d : Datum) : Session Value := do
  let converter ← engine.resolve t
  converter.decode engine.resolve d

/-- The document name of a field of a record type. -/
def fieldName (engine : Engine) (t : Ty) (name : String) : Session String := do
  let converter ← engine.resolve t
  if !converter.hasFieldNames then throw (.argument (.noFieldNames t.text))
  else
    match converter.fieldName? name with
    | some wireName => pure wireName
    | none => throw (.argument (.noMember t.text name))

/-- The name of an encoding in the text of an engine. -/
def encodingText : EnumEncoding → String
  | .numeric => "Numeric"
  | .name => "Name"

/-- An engine by its settings. -/
def summary (engine : Engine) : String :=
  "DatumEngine \x7b config: EngineConfig \x7b enum_encoding: "
    ++ encodingText engine.settings.enumEncoding
    ++ ", tuple_encoding: " ++ Settings.flagText engine.settings.tupleEncoding
    ++ ", client_side_evaluation: " ++ Settings.flagText engine.settings.clientEvaluation
    ++ ", time_precision_millis: " ++ Settings.flagText engine.settings.timeMillis ++ " \x7d, .. \x7d"

/-- What a dynamic converter finds once its engine is gone. -/
def dropped (_ : Ty) : Except Error Converter :=
  .error (.conversionNotSupported "Value (engine dropped)")

end Engine

end DocQuery
