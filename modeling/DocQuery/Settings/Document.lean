import DocQuery.Error
import DocQuery.Settings.Basic
import DocQuery.Toml.Reader

/-!
# Settings in documents

Every setting has a key. `Settings.ofText` reads a document of settings strictly: a key that is no
setting is passed over, a setting that is missing keeps its default, and a value of another sort is
an error. `Settings.toText` writes such a document, with all four settings.
-/

namespace DocQuery

namespace EnumEncoding

/-- The name of an encoding in documents. -/
def word : EnumEncoding → String
  | .numeric => "numeric"
  | .name => "name"

def ofWord? (text : String) : Option EnumEncoding :=
  [numeric, .name].find? fun encoding => encoding.word == text

end EnumEncoding

/-- The settings by their keys. -/
inductive Setting where
  | enumEncoding
  | tupleEncoding
  | clientEvaluation
  | timeMillis
deriving DecidableEq

namespace Setting

def all : List Setting := [enumEncoding, tupleEncoding, clientEvaluation, timeMillis]

def key : Setting → String
  | enumEncoding => "enum_encoding"
  | tupleEncoding => "tuple_encoding"
  | clientEvaluation => "client_side_evaluation"
  | timeMillis => "time_precision_millis"

def ofKey? (key : String) : Option Setting := all.find? fun setting => setting.key == key

end Setting

namespace Settings

/-- How what stands under a setting is understood: as an encoding and as a truth value. -/
structure Understanding (α : Type) where
  encoding? : α → Option EnumEncoding
  flag? : α → Option Bool

variable {α : Type}

/-- Changes one setting. -/
def assign (u : Understanding α) (setting : Setting) (value : α) (settings : Settings) :
    Except Error Settings :=
  let changed : Option Settings :=
    match setting with
    | .enumEncoding => (u.encoding? value).map fun e => { settings with enumEncoding := e }
    | .tupleEncoding => (u.flag? value).map fun b => { settings with tupleEncoding := b }
    | .clientEvaluation => (u.flag? value).map fun b => { settings with clientEvaluation := b }
    | .timeMillis => (u.flag? value).map fun b => { settings with timeMillis := b }
  match changed with
  | some settings => .ok settings
  | none => .error .config

/-- The defaults changed by the given settings. -/
def ofMembers (u : Understanding α) (members : List (Setting × α)) : Except Error Settings :=
  members.foldlM (fun settings (setting, value) => assign u setting value settings) {}

/-! ## Reading and writing documents -/

/-- What may stand beside a name: nothing that says more. -/
def isEmptyContent : Toml → Bool
  | .array items => items.isEmpty
  | .table _ members => members.isEmpty
  | _ => false

/-- An encoding is given by its name, also as the only key of a table, with empty content. -/
def strictEncoding? : Toml → Option EnumEncoding
  | .string text => EnumEncoding.ofWord? text
  | .table _ [(name, content)] => if isEmptyContent content then EnumEncoding.ofWord? name else none
  | _ => none

def strictFlag? : Toml → Option Bool
  | .boolean b => some b
  | _ => none

/-- Values as documents give them. -/
def Understanding.strict : Understanding Toml := ⟨strictEncoding?, strictFlag?⟩

/-- The settings among the members of a document. -/
def membersOf (document : Toml.Table) : List (Setting × Toml) :=
  document.filterMap fun (key, value) => (Setting.ofKey? key).map fun setting => (setting, value)

/-- The settings of a document. -/
def ofText (text : String) : Except Error Settings :=
  match Toml.read? text with
  | some document => ofMembers .strict (membersOf document)
  | none => .error .config

/-- The text of a setting's value. -/
def valueText (settings : Settings) : Setting → String
  | .enumEncoding => "\"" ++ settings.enumEncoding.word ++ "\""
  | .tupleEncoding => flagText settings.tupleEncoding
  | .clientEvaluation => flagText settings.clientEvaluation
  | .timeMillis => flagText settings.timeMillis

/-- The document of all settings, a line each. -/
def toText (settings : Settings) : String :=
  String.join (Setting.all.map fun setting =>
    setting.key ++ " = " ++ settings.valueText setting ++ "\n")

end Settings

end DocQuery
