import DocQuery.Datum.Text
import DocQuery.Term.Kind

/-!
# Terms

A query is a tree of terms. A term has a kind, arguments in order, options by name and, where it is
a literal, a datum. The constructors below build the terms that the compiler emits.
-/

namespace DocQuery

inductive Term where
  | mk (kind : TermKind) (args : List Term) (options : List (String × Term))
      (datum : Option Datum)

namespace Term

def kind : Term → TermKind
  | mk kind _ _ _ => kind

def args : Term → List Term
  | mk _ args _ _ => args

def options : Term → List (String × Term)
  | mk _ _ options _ => options

def datum : Term → Option Datum
  | mk _ _ _ datum => datum

/-- A term without arguments, options and datum. -/
def bare (kind : TermKind) : Term := mk kind [] [] none

def literal (datum : Datum) : Term := mk .datum [] [] (some datum)

instance : Inhabited Term := ⟨literal .null⟩

/-- A term with arguments only. -/
def node (kind : TermKind) (args : List Term) : Term := mk kind args [] none

def withArgs (t : Term) (more : List Term) : Term :=
  mk t.kind (t.args ++ more) t.options t.datum

def withArg (t arg : Term) : Term := t.withArgs [arg]

/-- Sets an option: in place where the name is present, at the end where it is not. -/
def withOption (t : Term) (name : String) (value : Term) : Term :=
  mk t.kind t.args (Members.set name value t.options) t.datum

def isDatum (t : Term) : Bool := t.kind == .datum

def option? (t : Term) (name : String) : Option Term := Members.get? name t.options

/-- The numeral of a slot. -/
def slot (n : Nat) : Term := literal (Datum.ofInt n)

/-- A reference to the parameter in a slot. -/
def var (n : Nat) : Term := node .var [slot n]

def makeArray (items : List Term) : Term := node .makeArray items

/-- An object of terms; a name that comes up again keeps its place and takes the later value. -/
def makeObject (members : List (String × Term)) : Term :=
  mk .makeObj [] (Members.ofList members) none

/-- A function of the parameters in the given slots. -/
def func (slots : List Nat) (body : Term) : Term :=
  node .func [makeArray (slots.map slot), body]

def getField (object : Term) (name : String) : Term :=
  node .getField [object, literal (.string name)]

def branch (test ifTrue ifFalse : Term) : Term := node .branch [test, ifTrue, ifFalse]

end Term

end DocQuery
