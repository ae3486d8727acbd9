import DocQuery.Expr.Basic

/-!
# Texts of expressions

An expression is shown the way a programmer would write it.
-/

namespace DocQuery.Expr

mutual

def text : Expr → String
  | constant value _ => value.text
  | parameter p => p.name
  | binary .index left right => text left ++ "[" ++ text right ++ "]"
  | binary op left right => "(" ++ text left ++ " " ++ op.symbol ++ " " ++ text right ++ ")"
  | unary .not operand => "!" ++ text operand
  | unary .negate operand => "-" ++ text operand
  | unary .length operand => "len(" ++ text operand ++ ")"
  | member target callee =>
    match target with
    | some t => text t ++ "." ++ callee.name
    | none => callee.owner.text ++ "::" ++ callee.name
  | call target callee args =>
    (match target with
      | some t => text t ++ "." ++ callee.name
      | none => callee.owner.text ++ "::" ++ callee.name)
      ++ "(" ++ ", ".intercalate (texts args) ++ ")"
  | construct callee args =>
    callee.type.text ++ "::" ++ callee.name ++ "(" ++ ", ".intercalate (texts args) ++ ")"
  | recordInit type bindings =>
    type.name ++ " \x7b " ++ ", ".intercalate (bindingTexts bindings) ++ " \x7d"
  | array _ items => "[" ++ ", ".intercalate (texts items) ++ "]"
  | conditional test ifTrue ifFalse =>
    "if " ++ text test ++ " \x7b " ++ text ifTrue ++ " \x7d else \x7b " ++ text ifFalse ++ " \x7d"
  | convert operand type => "(" ++ text operand ++ " as " ++ type.text ++ ")"
  | lambda params body =>
    "|" ++ ", ".intercalate (params.map Parameter.name) ++ "| " ++ text body

def texts : List Expr → List String
  | [] => []
  | e :: rest => text e :: texts rest

def bindingTexts : List (String × Expr) → List String
  | [] => []
  | (name, e) :: rest => (name ++ ": " ++ text e) :: bindingTexts rest

end

end DocQuery.Expr
