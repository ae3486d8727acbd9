import DocQuery.CommandLine.Command
import DocQuery.Members

/-!
# Help pages

A page says what a command does, how it is used, and what operands and options it takes. The
explanation of an option also shows the variable that stands in for it, with its present value, and
is broken into lines of at most `pageWidth` characters.
-/

namespace DocQuery.CommandLine

/-- The width of a page. -/
def pageWidth : Nat := 100

/-- How wide the column of options is. -/
def optionWidth : Nat := 31

def blanks (count : Nat) : String := String.ofList (List.replicate count ' ')

/-- A text and blanks up to a width. -/
def padded (width : Nat) (text : String) : String := text ++ blanks (width - text.length)

/-- Adds words to a line while they fit and starts new lines for the rest. -/
def fill (width : Nat) (line : String) : List String → List String
  | [] => [line]
  | word :: rest =>
    if line.length + 1 + word.length ≤ width then fill width (line ++ " " ++ word) rest
    else line :: fill width word rest

/-- A text in lines of at most the given width; a longer word has a line of its own. -/
def wrapped (width : Nat) (text : String) : List String :=
  match text.splitOn " " with
  | [] => []
  | word :: rest => fill width word rest

/-- An option with its explanation. -/
def entry (option explanation : String) : String :=
  let lines := wrapped (pageWidth - optionWidth) explanation
  padded optionWidth option ++ ("\n" ++ blanks optionWidth).intercalate lines ++ "\n"

/-- The variable and the default of an option. -/
def sources (env : List (String × String)) (option : ValueOption) : String :=
  let value := (Members.get? option.variableName env).getD ""
  let default := match option.default? with
    | some value => s!" [default: {value}]"
    | none => ""
  s!"[env: {option.variableName}={value}]" ++ default

/-- The options of every command. -/
def commonOptions (env : List (String × String)) : String :=
  "Options:\n"
    ++ entry "      --config <CONFIG>"
      ("Engine configuration file (TOML) " ++ sources env .config)
    ++ entry "      --log-level <LOG_LEVEL>"
      ("Log level (trace, debug, info, warn, error) " ++ sources env .logLevel)
    ++ entry "      --no-color" "Disable colored output"
    ++ entry "  -h, --help" "Print help"

namespace CommandName

/-- What a command does. -/
def purpose : CommandName → String
  | infer => "Print the native type a JSON datum decodes to dynamically"
  | canonicalize => "Decode a JSON datum dynamically and re-encode it"
  | wire => "Parse a wire-form term and pretty print it"
  | config => "Print the effective engine configuration as TOML"

/-- The page of a command. -/
def page (env : List (String × String)) (name : CommandName) : String :=
  let (usage, operands) := match name.operand? with
    | some operand => (" <JSON>", s!"Arguments:\n  <JSON>  {operand}\n\n")
    | none => ("", "")
  s!"{name.purpose}\n\nUsage: {programName} {name.text} [OPTIONS]{usage}\n\n" ++ operands
    ++ commonOptions env

end CommandName

/-- What the help command does. -/
def helpPurpose : String := "Print this message or the help of the given subcommand(s)"

/-- The page of the program. -/
def mainPage (env : List (String × String)) : String :=
  let commands := CommandName.all.map fun name => (name.text, name.purpose)
  let lines := (commands ++ [("help", helpPurpose)]).map fun (name, purpose) =>
    "  " ++ padded 14 name ++ purpose ++ "\n"
  s!"Inspect ReQL datums and terms\n\nUsage: {programName} [OPTIONS] <COMMAND>\n\nCommands:\n"
    ++ String.join lines ++ "\n" ++ commonOptions env
    ++ entry "  -V, --version" "Print version"

/-- The page of the help command. -/
def helpPage : String :=
  s!"{helpPurpose}\n\nUsage: {programName} help [COMMAND]...\n\nArguments:\n"
    ++ "  [COMMAND]...  Print help for the subcommand(s)\n"

/-- The page for the operands of the help command. -/
def pageFor? (env : List (String × String)) : List String → Option String
  | [] => some (mainPage env)
  | ["help"] => some helpPage
  | [name] => (CommandName.ofText? name).map (CommandName.page env)
  | _ => none

end DocQuery.CommandLine
