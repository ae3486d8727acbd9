import DocQuery.CommandLine.Help

/-!
# Arguments of the program

Arguments are taken one by one. Options may stand before and after the name of a command, once in
each place; the later place counts. Two hyphens end the options, and a lone hyphen is no option.
Asking for help or for the version ends the reading at once, so that what follows is not looked at.
-/

namespace DocQuery.CommandLine

/-- Why no command is run. -/
inductive Stop where
  /-- The arguments are wrong. -/
  | misuse
  /-- Only a text was asked for. -/
  | page (text : String)
deriving DecidableEq

/-- What an argument looks like. -/
inductive Argument where
  | long (name : String) (value : Option String)
  | short (letter : Char)
  | endOfOptions
  | plain (text : String)

namespace Argument

def ofText (text : String) : Argument :=
  match text.toList with
  | ['-', '-'] => endOfOptions
  | '-' :: '-' :: rest =>
    let (name, value) := rest.span (· ≠ '=')
    long (String.ofList name)
      (if value = [] then none else some (String.ofList (value.drop 1)))
  | '-' :: letter :: _ => short letter
  | _ => plain text

end Argument

/-- Where the reading is. -/
inductive Place where
  | beforeCommand
  /-- Behind a command, with the operand if it came up. -/
  | behind (name : CommandName) (operand : Option String) (optionsEnded : Bool)
  /-- Behind the help command, with its operands. -/
  | help (operands : List String)

structure Progress where
  place : Place := .beforeCommand
  /-- The option that the next argument is the value of. -/
  pending : Option ValueOption := none
  /-- The options before the command and those behind it. -/
  outer : Options := {}
  inner : Options := {}

namespace Progress

def isBehind (p : Progress) : Bool :=
  match p.place with
  | .beforeCommand => false
  | _ => true

/-- The options of the place. -/
def options (p : Progress) : Options := if p.isBehind then p.inner else p.outer

def withOptions (p : Progress) (options : Options) : Progress :=
  if p.isBehind then { p with inner := options } else { p with outer := options }

/-- Gives an option its value. An option comes up once, and a file has a name. -/
def give (p : Progress) (option : ValueOption) (value : String) : Except Stop Progress :=
  if (p.options.get? option).isSome ∨ (option = .config ∧ value = "") then .error .misuse
  else .ok ({ p with pending := none }.withOptions (p.options.set value option))

/-- The page for the place. -/
def helpStop (env : List (String × String)) (p : Progress) : Stop :=
  match p.place with
  | .behind name _ _ => .page (name.page env)
  | _ => .page (mainPage env)

def versionStop (p : Progress) : Stop :=
  if p.isBehind then .misuse else .page s!"{programName} {version}\n"

/-- Takes an option by its long name. -/
def takeLong (env : List (String × String)) (p : Progress) (name : String)
    (value : Option String) : Except Stop Progress :=
  match ValueOption.ofText? name, value with
  | some option, some value => p.give option value
  | some option, none => .ok { p with pending := some option }
  | none, some _ => .error .misuse
  | none, none =>
    if name = "help" then .error (p.helpStop env)
    else if name = "version" then .error p.versionStop
    else if name = "no-color" ∧ !p.options.noColor then
      .ok (p.withOptions { p.options with noColor := true })
    else .error .misuse

/-- Takes an option by the first of its letters. -/
def takeShort (env : List (String × String)) (p : Progress) (letter : Char) : Stop :=
  if letter = 'h' then p.helpStop env
  else if letter = 'V' then p.versionStop
  else .misuse

/-- Takes an argument that is no option. -/
def takePlain (p : Progress) (text : String) : Except Stop Progress :=
  match p.place with
  | .beforeCommand =>
    if text = "help" then .ok { p with place := .help [] }
    else
      match CommandName.ofText? text with
      | some name => .ok { p with place := .behind name none false }
      | none => .error .misuse
  | .behind name none ended =>
    if name.operand?.isSome then .ok { p with place := .behind name (some text) ended }
    else .error .misuse
  | .behind _ (some _) _ => .error .misuse
  | .help operands => .ok { p with place := .help (operands ++ [text]) }

/-- Takes two hyphens. Before a command nothing could follow them. -/
def takeEnd (p : Progress) : Except Stop Progress :=
  match p.place with
  | .behind name operand _ => .ok { p with place := .behind name operand true }
  | _ => .error .misuse

/-- Takes the next argument. -/
def take (env : List (String × String)) (p : Progress) (text : String) :
    Except Stop Progress :=
  match p.pending, p.place, Argument.ofText text with
  | some option, _, .plain value => p.give option value
  | some _, _, _ => .error .misuse
  -- In these two places nothing is an option.
  | none, .help _, _ => p.takePlain text
  | none, .behind _ _ true, _ => p.takePlain text
  | none, _, .long name value => p.takeLong env name value
  | none, _, .short letter => .error (p.takeShort env letter)
  | none, _, .endOfOptions => p.takeEnd
  | none, _, .plain text => p.takePlain text

end Progress

/-- A command with what it is run with. -/
structure Invocation where
  command : CommandName
  operand : String
  /-- The file with settings. -/
  file : Option String
  logLevel : String

/-- The value of an option: behind the command, before it, in the environment, or its default. -/
def valueOf (env : List (String × String)) (p : Progress) (option : ValueOption) :
    Option String :=
  (((p.inner.get? option).or (p.outer.get? option)).or
    (Members.get? option.variableName env)).or option.default?

/-- Without arguments left. The variable for the file must not be empty where it is looked at. -/
def Progress.finish (env : List (String × String)) (p : Progress) :
    Except Stop Invocation :=
  match p.pending, p.place with
  | none, .help operands =>
    match pageFor? env operands with
    | some text => .error (.page text)
    | none => .error .misuse
  | none, .behind command operand _ =>
    let fileLookedUp := p.inner.config.isNone || p.outer.config.isNone
    if operand.isNone && command.operand?.isSome then .error .misuse
    else if fileLookedUp && Members.get? ValueOption.config.variableName env = some "" then
      .error .misuse
    else
      .ok ⟨command, operand.getD "", valueOf env p .config,
        (valueOf env p .logLevel).getD ""⟩
  | _, _ => .error .misuse

/-- Reads the arguments. -/
def readArguments (env : List (String × String)) (args : List String) :
    Except Stop Invocation := do
  let progress ← args.foldlM (Progress.take env) {}
  progress.finish env

end DocQuery.CommandLine
