import DocQuery.Settings.Document
import DocQuery.Settings.Path
import DocQuery.Toml.DateTable

/-!
# Settings from a file and the environment

`Settings.load` lays the environment over a file and the file over the defaults. Here keys are paths
and names count without regard to case. A value takes the place of what stands under its path, but a
table only adds its members. Truth values may also be given as numbers or in words.
-/

namespace DocQuery

namespace Settings

/-- What stands under a setting. -/
inductive Content where
  | value (value : Toml)
  /-- A table, of which only the names of its members count. -/
  | table (names : List String)

namespace Content

def names : Content → List String
  | value _ => []
  | table names => names

/-- Adds members to a table. A value gives way to a table with the first member, and stays where
there is none. -/
def merge (members : Toml.Table) (below : Option Content) : Content :=
  let add (content : Content) (member : String × Toml) : Content :=
    table (content.names.insert (lower member.1))
  members.foldl add (below.getD (table []))

/-- Lays a value over what stands under a setting. The first step decides whether that is a table or
a list from then on. -/
def lay (steps : List Step) (value : Toml) (below : Option Content) : Content :=
  match steps, value with
  | .member name :: _, value => merge [(name, value)] below
  | .item _ :: _, value => .value (.array [value])
  | [], .table _ members => merge members below
  | [], value => .value value

end Content

/-- A value and where it belongs. -/
abbrev Layer := Path × Toml

/-- What stands under the settings after all layers, of which the first is the lowest. -/
def contentsOf (layers : List Layer) : List (Setting × Content) :=
  layers.foldl (fun contents (path, value) =>
    match Setting.ofKey? path.name with
    | some setting =>
      let below := Members.get? setting contents
      Members.set setting (Content.lay path.steps value below) contents
    | none => contents) []

/-! ## The meaning of contents -/

/-- A truth value in words. -/
def wordFlag? (text : String) : Option Bool :=
  let word := lower text
  if word ∈ ["1", "true", "on", "yes"] then some true
  else if word ∈ ["0", "false", "off", "no"] then some false
  else none

/-- A truth value, a number that is not zero, or a word. -/
def looseFlag? : Content → Option Bool
  | .value (.boolean b) => some b
  | .value (.integer n) => some (n != 0)
  | .value (.float x) => some !(x == 0)
  | .value (.string text) => wordFlag? text
  | _ => none

/-- An encoding is given by its name, also as the only name in a table. -/
def looseEncoding? : Content → Option EnumEncoding
  | .value (.string text) => EnumEncoding.ofWord? (lower text)
  | .table [name] => EnumEncoding.ofWord? name
  | _ => none

/-- Values as files and the environment give them. -/
def Understanding.loose : Understanding Content := ⟨looseEncoding?, looseFlag?⟩

/-! ## The file and the environment -/

/-- The layers of a file. It may begin with a byte order mark besides that of its document. -/
def ofFile (text : Option String) : Except Error (List Layer) :=
  match text with
  | none => .ok []
  | some text =>
    let text := match text.toList with
      | '\ufeff' :: rest => String.ofList rest
      | _ => text
    match Toml.read? text with
    | some document =>
      -- The document itself stands for no date.
      if Toml.holdsDatesMembers document ∧ document.head?.map (·.1) ≠ some Toml.dateName then
        .ok (document.map fun (key, value) => (Path.ofKey key, value.asDate))
      else .error .config
    | none => .error .config

/-- The value that a text of the environment stands for: a truth value, a number or itself. -/
def ofVariable (text : String) : Toml :=
  if lower text = "true" then .boolean true
  else if lower text = "false" then .boolean false
  else
    match wordOfText? text, (Binary.ofText? text : Option Binary64) with
    | some n, _ => .integer n
    | none, some x => .float x
    | none, none => .string text

/-- What the names of variables with settings begin with. -/
def variablePrefix : String := "reql_"

/-- The path that a variable is for. -/
def pathOfVariable? (name : String) : Option Path :=
  let cs := (lower name).toList
  let start := variablePrefix.toList
  if start.isPrefixOf cs then some (Path.ofKey (String.ofList (cs.drop start.length))) else none

/-- The layers of the environment. -/
def ofVariables (env : List (String × String)) : List Layer :=
  env.filterMap fun (name, text) =>
    (pathOfVariable? name).map fun path => (path, ofVariable text)

/-- The settings of a file, if there is one, under those of the environment. Only the contents after
all layers have to be ones of their settings. -/
def load (file : Option String) (env : List (String × String)) : Except Error Settings := do
  let layers ← ofFile file
  ofMembers .loose (contentsOf (layers ++ ofVariables env))

end Settings

end DocQuery
