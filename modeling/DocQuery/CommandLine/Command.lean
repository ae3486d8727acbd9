/-!
# Commands

The commands of the program, the options that every command takes, and the variables of the
environment that stand in for options.
-/

namespace DocQuery.CommandLine

/-- The name of the program. -/
def programName : String := "reqlc"

def version : String := "0.1.0"

inductive CommandName where
  /-- Prints the type that a datum is read as. -/
  | infer
  /-- Prints the text of a datum that was read and written again. -/
  | canonicalize
  /-- Prints a term for people. -/
  | wire
  /-- Prints the settings. -/
  | config
deriving DecidableEq

namespace CommandName

def all : List CommandName := [infer, canonicalize, wire, config]

def text : CommandName → String
  | infer => "infer"
  | canonicalize => "canonicalize"
  | wire => "wire"
  | config => "config"

def ofText? (text : String) : Option CommandName := all.find? fun name => name.text == text

/-- What the operand is, for commands that take one. -/
def operand? : CommandName → Option String
  | infer | canonicalize => some "Datum as JSON"
  | wire => some "Term in the JSON wire form"
  | config => none

end CommandName

/-- The options that come with a value. -/
inductive ValueOption where
  | config
  | logLevel
deriving DecidableEq

namespace ValueOption

def all : List ValueOption := [config, logLevel]

def text : ValueOption → String
  | config => "config"
  | logLevel => "log-level"

def ofText? (text : String) : Option ValueOption := all.find? fun option => option.text == text

/-- The variable that gives the value where the option is not used. -/
def variableName : ValueOption → String
  | config => "REQL_CONFIG"
  | logLevel => "RUST_LOG"

/-- The value where neither the option nor the variable gives one. -/
def default? : ValueOption → Option String
  | config => none
  | logLevel => some "warn"

end ValueOption

/-- The options of one use of a command. -/
structure Options where
  config : Option String := none
  logLevel : Option String := none
  noColor : Bool := false

namespace Options

def get? (options : Options) : ValueOption → Option String
  | .config => options.config
  | .logLevel => options.logLevel

def set (options : Options) (value : String) : ValueOption → Options
  | .config => { options with config := some value }
  | .logLevel => { options with logLevel := some value }

end Options

end DocQuery.CommandLine
