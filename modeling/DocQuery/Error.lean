import DocQuery.Number.Shortest

/-!
# Errors

An error is a cause; its wording is in one place, `Error.message`. Types, operators and expressions
inside a cause are given by their texts.
-/

namespace DocQuery

/-- Why a number does not fit a whole number type. -/
inductive NumberFault where
  | outOfRange
  | fractional
deriving DecidableEq

/-- What is wrong with the wire form of a term. -/
inductive WireFault where
  | missingDatum
  | emptyArray
  | termIdExpected (found : String)
  | unknownTermId (id : Nat)
  | datumArgumentMissing
  | argumentsNotArray (term : String)
  | optionsNotObject (term : String)
  | notFinite (value : Binary64)
deriving DecidableEq

/-- What is wrong with an argument. -/
inductive ArgumentFault where
  | base64
  | duplicateKey (key : String)
  | noFieldNames (type : String)
  | noMember (type member : String)
  | notInteger (type : String)
  | notDiscriminant (discriminant : Int) (enum : String)
  | notVariant (datum enum : String)
  | timezone (quoted : String)
  | epochOutOfRange (seconds : Binary64)
  | fieldCount (record : String) (expected given : Nat)
  | noField (record field : String)
  | noFields (type : String)
  /-- A cause that a converter supplied from outside states in its own words. -/
  | stated (text : String)
deriving DecidableEq

/-- Why an expression has no value. -/
inductive EvaluationFault where
  | keyNotFound (key : String)
  | fieldNotFound (field : String)
  | memberOfNull (member : String)
  | unordered (left right : String)
  | indexOutOfBounds (index : Int)
  | notIndexable (target key : String)
  | divisionByZero
  | integerOverflow (op : String)
  | timeOutOfRange (op : String)
  | undefinedBinary (op left right : String)
  | undefinedUnary (op operand : String)
  /-- A cause that an attached client implementation states in its own words. -/
  | stated (text : String)
deriving DecidableEq

/-- Why an expression has no term. -/
inductive CompilationFault where
  | tooManyParameters (given : Nat)
  /-- The name of a field could not be found while the expression was compiled. -/
  | fieldName (expr cause : String)
  | parameterConversion (name declared target : String)
  /-- The expression has a value but evaluation on the client is switched off. -/
  | foldingDisabled (expr : String)
  | receiverMissing (callee : String)
  | noMember (owner name : String)
  | noMethod (owner name : String)
  | noConstructor (type name : String)
  | lambdaOnClient
  | alreadyBound (name : String)
  | boundOtherwise (name bound referenced : String)
  | unbound (name : String)
  | arity (call : String) (given expected : Nat)
  | templateTarget
  | templateArgument (index given : Nat)
deriving DecidableEq

inductive Error where
  | conversionNotSupported (type : String)
  | typeMismatch (expected actual : String)
  | number (value : Binary64) (fault : NumberFault) (target : String)
  | nullNotAllowed (type : String)
  | heterogeneousArray (types : String)
  | unrecognizedTag (tag : String)
  | compilation (fault : CompilationFault)
  | variableLeak (reference : String)
  | evaluation (fault : EvaluationFault)
  | argument (fault : ArgumentFault)
  | wire (fault : WireFault)
  | config
  /-- No error that a program could handle: the computation stops here. -/
  | aborted
deriving DecidableEq

namespace NumberFault

def message : NumberFault → String
  | outOfRange => "out of range"
  | fractional => "has a fractional part"

end NumberFault

namespace WireFault

def message : WireFault → String
  | missingDatum => "DATUM term missing value"
  | emptyArray => "Empty term array"
  | termIdExpected found => s!"Invalid term type: expected number, got {found}"
  | unknownTermId id => s!"Unknown term type: {id}"
  | datumArgumentMissing => "DATUM term requires value argument"
  | argumentsNotArray term => s!"{term} arguments must be an array"
  | optionsNotObject term => s!"{term} optargs must be an object"
  | notFinite value => s!"Non-finite number {value.toText} cannot be sent"

end WireFault

namespace ArgumentFault

def message : ArgumentFault → String
  | base64 => "invalid base64 in BINARY"
  | duplicateKey key => s!"duplicate key '{key}' in object"
  | noFieldNames type => s!"{type} has no field name mapping"
  | noMember type member => s!"{type} has no member '{member}'"
  | notInteger type => s!"{type} is not an integer type"
  | notDiscriminant discriminant enum => s!"{discriminant} is not a {enum} discriminant"
  | notVariant datum enum => s!"{datum} is not a {enum} variant"
  | timezone quoted => s!"Invalid timezone {quoted}"
  | epochOutOfRange seconds => s!"epoch_time {seconds.toText} out of range"
  | fieldCount record expected given => s!"{record} has {expected} fields, got {given} values"
  | noField record field => s!"{record} has no field '{field}'"
  | noFields type => s!"{type} has no fields"
  | stated text => text

end ArgumentFault

namespace EvaluationFault

def message : EvaluationFault → String
  | keyNotFound key => s!"key '{key}' not found"
  | fieldNotFound field => s!"field '{field}' not found"
  | memberOfNull member => s!"member '{member}' accessed on null"
  | unordered left right => s!"cannot order {left} and {right}"
  | indexOutOfBounds index => s!"index {index} out of bounds"
  | notIndexable target key => s!"cannot index {target} with {key}"
  | divisionByZero => "division by zero"
  | integerOverflow op => s!"integer overflow in {op}"
  | timeOutOfRange op => s!"time out of range in {op}"
  | undefinedBinary op left right => s!"operator {op} is not defined for {left} and {right}"
  | undefinedUnary op operand => s!"{op} is not defined for {operand}"
  | stated text => text

end EvaluationFault

namespace CompilationFault

def message : CompilationFault → String
  | tooManyParameters given => s!"lambdas take at most two parameters, got {given}"
  | fieldName expr cause => s!"{expr}: {cause}"
  | parameterConversion name declared target =>
    s!"parameter '{name}' of type {declared} cannot be converted to {target}"
  | foldingDisabled expr =>
    s!"{expr} has no server-side mapping and client-side evaluation is disabled"
  | receiverMissing callee => s!"{callee} needs a receiver"
  | noMember owner name => s!"member {owner}.{name} has no mapping and no client implementation"
  | noMethod owner name => s!"method {owner}::{name} has no mapping and no client implementation"
  | noConstructor type name =>
    s!"constructor {type}::{name} has no mapping and no client implementation"
  | lambdaOnClient => "a lambda cannot be evaluated on the client"
  | alreadyBound name => s!"parameter '{name}' is already bound in an enclosing scope"
  | boundOtherwise name bound referenced =>
    s!"parameter '{name}' is bound as {bound} but referenced as {referenced}"
  | unbound name => s!"parameter '{name}' is not bound in this scope"
  | arity call given expected =>
    s!"{call} passes {given} arguments to a template taking {expected}"
  | templateTarget => "template needs a target but none was given"
  | templateArgument index given => s!"template uses argument {index} but only {given} were given"

end CompilationFault

namespace Error

def message : Error → String
  | conversionNotSupported type => s!"No datum converter available for type {type}"
  | typeMismatch expected actual => s!"Type mismatch: expected {expected}, got {actual}"
  | number value fault target => s!"Number {value.toText} {fault.message} for {target}"
  | nullNotAllowed type => s!"Null is not allowed for {type}"
  | heterogeneousArray types => s!"Heterogeneous array not supported: element types {types}"
  | unrecognizedTag tag => s!"Unrecognized $reql_type$: {tag}"
  | compilation fault => s!"Cannot translate expression: {fault.message}"
  | variableLeak reference =>
    s!"Cannot translate: expression references a server-bound variable ({reference})"
  | evaluation fault => s!"Evaluation error: {fault.message}"
  | argument fault => s!"Invalid argument: {fault.message}"
  | wire fault => s!"Wire format error: {fault.message}"
  | config => "Configuration error"
  | aborted => ""

/-- The errors of a schema or a program, after which building a query must stop. -/
def isFatal : Error → Bool
  | conversionNotSupported _ => true
  | compilation _ => true
  | _ => false

end Error

end DocQuery
