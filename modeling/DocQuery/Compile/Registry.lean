import DocQuery.Compile.Override

/-!
# Registries

A registry holds what is known of operators, members, methods and constructors by the keys of types,
so that an entry for lists serves lists of every type. Registering again replaces an entry. For an
operator the dynamic key stands for every type that has no entry of its own.
-/

namespace DocQuery

structure BinaryKey where
  left : TypeKey
  right : TypeKey
  op : BinaryOp
deriving DecidableEq

structure UnaryKey where
  operand : TypeKey
  op : UnaryOp
deriving DecidableEq

/-- A member, a method or a constructor by its type and its name. -/
structure MemberKey where
  owner : TypeKey
  name : String
deriving DecidableEq

/-- A member or a method, for any arguments or for those whose first has a type of the given key. -/
structure TemplateKey where
  member : MemberKey
  arg : Option TypeKey
deriving DecidableEq

structure Registry where
  binary : List (BinaryKey × Override)
  unary : List (UnaryKey × Override)
  members : List (MemberKey × Override)
  methods : List (MemberKey × Override)
  constructors : List (MemberKey × Override)
  templates : List (TemplateKey × Template)

namespace Registry

def empty : Registry := ⟨[], [], [], [], [], []⟩

instance : Inhabited Registry := ⟨empty⟩

def addBinary (r : Registry) (left right : TypeKey) (op : BinaryOp) (o : Override) : Registry :=
  { r with binary := Members.set ⟨left, right, op⟩ o r.binary }

def addUnary (r : Registry) (operand : TypeKey) (op : UnaryOp) (o : Override) : Registry :=
  { r with unary := Members.set ⟨operand, op⟩ o r.unary }

def addMember (r : Registry) (owner : TypeKey) (name : String) (o : Override) : Registry :=
  { r with members := Members.set ⟨owner, name⟩ o r.members }

def addMethod (r : Registry) (owner : TypeKey) (name : String) (o : Override) : Registry :=
  { r with methods := Members.set ⟨owner, name⟩ o r.methods }

def addConstructor (r : Registry) (type : TypeKey) (name : String) (o : Override) : Registry :=
  { r with constructors := Members.set ⟨type, name⟩ o r.constructors }

/-- A constructor whose compiled arguments fill in a template. -/
def addConstructorTemplate (r : Registry) (type : TypeKey) (name : String) (t : Template) :
    Registry :=
  r.addConstructor type name (.ofTemplate (type.text ++ "::" ++ name) t)

/-- A template for a member or a method, narrowed by the key of the first argument where one is
given. -/
def addTemplate (r : Registry) (owner : TypeKey) (name : String) (arg : Option TypeKey)
    (t : Template) : Registry :=
  { r with templates := Members.set ⟨⟨owner, name⟩, arg⟩ t r.templates }

/-- The override for an operator: by both operands, else by the left one, else by the right one. -/
def binary? (r : Registry) (left right : TypeKey) (op : BinaryOp) : Option Override :=
  ((Members.get? ⟨left, right, op⟩ r.binary).or
    (Members.get? ⟨left, .dynamic, op⟩ r.binary)).or
    (Members.get? ⟨.dynamic, right, op⟩ r.binary)

/-- The override for an operator: by its operand, else for every operand. -/
def unary? (r : Registry) (operand : TypeKey) (op : UnaryOp) : Option Override :=
  (Members.get? ⟨operand, op⟩ r.unary).or (Members.get? ⟨.dynamic, op⟩ r.unary)

def member? (r : Registry) (owner : TypeKey) (name : String) : Option Override :=
  Members.get? ⟨owner, name⟩ r.members

def method? (r : Registry) (owner : TypeKey) (name : String) : Option Override :=
  Members.get? ⟨owner, name⟩ r.methods

def constructor? (r : Registry) (type : TypeKey) (name : String) : Option Override :=
  Members.get? ⟨type, name⟩ r.constructors

/-- The template narrowed by the first argument, else the one for any arguments. -/
def template? (r : Registry) (owner : TypeKey) (name : String) (arg : Option TypeKey) :
    Option Template :=
  (arg.bind fun arg => Members.get? ⟨⟨owner, name⟩, some arg⟩ r.templates).or
    (Members.get? ⟨⟨owner, name⟩, none⟩ r.templates)

/-- How many entries there are. -/
def size (r : Registry) : Nat :=
  r.binary.length + r.unary.length + r.members.length + r.methods.length
    + r.constructors.length + r.templates.length

/-- How many entries of each sort there are. -/
def summary (r : Registry) : String :=
  "ExpressionRegistry \x7b binary: " ++ toString r.binary.length
    ++ ", unary: " ++ toString r.unary.length
    ++ ", members: " ++ toString r.members.length
    ++ ", methods: " ++ toString r.methods.length
    ++ ", constructors: " ++ toString r.constructors.length
    ++ ", templates: " ++ toString r.templates.length ++ " \x7d"

end Registry

end DocQuery
