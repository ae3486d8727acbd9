import DocQuery.Error
import DocQuery.Term.Basic

/-!
# Templates

A template is a term with places for a compiled target and for compiled arguments. Filling it in
fails exactly where a place stays empty.
-/

namespace DocQuery

inductive Template where
  /-- The compiled receiver of a member or a call. -/
  | target
  /-- The compiled argument at this position. Positions are words of 64 bits and start at zero. -/
  | argument (position : UInt64)
  | literal (datum : Datum)
  | node (kind : TermKind) (args : List Template) (options : List (String × Template))

namespace Template

/-- The compiled argument with a number. -/
def arg (index : Nat) : Template := argument (.ofNat index)

/-- A term of the target alone. -/
def ofTarget (kind : TermKind) : Template := node kind [target] []

/-- A term of the target and the first argument. -/
def ofTargetAndArg (kind : TermKind) : Template := node kind [target, arg 0] []

/-- Adds an option; only nodes have options. -/
def withOption (t : Template) (name : String) (value : Template) : Template :=
  match t with
  | node kind args options => node kind args (options ++ [(name, value)])
  | other => other

mutual

/-- One more than the greatest argument position, counted in words as positions are: one more than
the last word is zero. -/
def arity : Template → Nat
  | argument position => (position + 1).toNat
  | node _ args options => max (arityOf args) (arityOfOptions options)
  | target | literal _ => 0

def arityOf : List Template → Nat
  | [] => 0
  | t :: rest => max (arity t) (arityOf rest)

def arityOfOptions : List (String × Template) → Nat
  | [] => 0
  | (_, t) :: rest => max (arity t) (arityOfOptions rest)

end

mutual

def usesTarget : Template → Bool
  | target => true
  | node _ args options => anyUsesTarget args || anyOptionUsesTarget options
  | argument _ | literal _ => false

def anyUsesTarget : List Template → Bool
  | [] => false
  | t :: rest => usesTarget t || anyUsesTarget rest

def anyOptionUsesTarget : List (String × Template) → Bool
  | [] => false
  | (_, t) :: rest => usesTarget t || anyOptionUsesTarget rest

end

/-- Refuses a call with another number of arguments than the template takes. -/
def checkArity (t : Template) (call : String) (given : Nat) : Except Error Unit :=
  if given = t.arity then .ok () else .error (.compilation (.arity call given t.arity))

mutual

/-- Fills in the target and the arguments. An option that comes up again keeps its place and takes
the later value. -/
def instantiate (receiver : Option Term) (args : List Term) : Template → Except Error Term
  | target =>
    match receiver with
    | some t => .ok t
    | none => .error (.compilation .templateTarget)
  | argument position =>
    match args[position.toNat]? with
    | some t => .ok t
    | none => .error (.compilation (.templateArgument position.toNat args.length))
  | literal datum => .ok (.literal datum)
  | node kind children options => do
    let children ← instantiateAll receiver args children
    let options ← instantiateOptions receiver args options
    return .mk kind children (Members.ofList options) none

def instantiateAll (receiver : Option Term) (args : List Term) :
    List Template → Except Error (List Term)
  | [] => .ok []
  | t :: rest => do
    let term ← instantiate receiver args t
    let terms ← instantiateAll receiver args rest
    return term :: terms

def instantiateOptions (receiver : Option Term) (args : List Term) :
    List (String × Template) → Except Error (List (String × Term))
  | [] => .ok []
  | (name, t) :: rest => do
    let term ← instantiate receiver args t
    let terms ← instantiateOptions receiver args rest
    return (name, term) :: terms

end

end Template

end DocQuery
