import DocQuery.Proofs.Expr.Evaluate

/-!
# Arithmetic on numbers

Expressions of numeric constants, operators of arithmetic, negations and conversions have numeric
types, and evaluate to values of their types. Where only whole number types are converted to and
stand at the leaves, evaluation is exact: it succeeds where no divisor is zero and every result on
the way is a number of the type of its node.

## Key results

- `Value.runtimeType_of_arithmetic`: operators give a number of the static type
- `Value.arithmetic_int_eq_ok_iff`: on whole numbers operators are exact or fail
- `Expr.evaluate_typed_exact`: values have the static types, and whole numbers are exact
-/

namespace DocQuery

open Sequence (exists_of_bind_eq_ok)

namespace BinaryOp

/-- The operators of `+`, `-`, `*`, `/` and `%`; comparisons and logic are not among them. -/
def isArithmetic : BinaryOp → Bool
  | add | sub | mul | div | rem => true
  | _ => false

/-- The exact result of an operator of arithmetic on whole numbers. A quotient drops its fraction as
    `Int.tdiv` does, and a remainder is what the quotient leaves. -/
def exact : BinaryOp → Int → Int → Int
  | add, a, b => a + b
  | sub, a, b => a - b
  | mul, a, b => a * b
  | div, a, b => a.tdiv b
  | rem, a, b => a - b * a.tdiv b
  | _, _, _ => 0

/-- The operators with a divisor, `/` and `%`. -/
def divides : BinaryOp → Bool
  | div | rem => true
  | _ => false

end BinaryOp

namespace Value

variable {l r v : Value} {op : BinaryOp} {type : Ty} {n : Int}

/-! ## Numbers and their types -/

/-- A value of a numeric type is an `.int`, an `.f32` or an `.f64`: three cases in place of one for
    each constructor of `Value`. -/
theorem exists_of_isNumeric (h : v.runtimeType.isNumeric = true) :
    (∃ kind n, v = .int kind n) ∨ (∃ x, v = .f32 x) ∨ ∃ x, v = .f64 x := by
  cases v with
  | int kind n => exact .inl ⟨kind, n, rfl⟩
  | f32 x => exact .inr (.inl ⟨x, rfl⟩)
  | f64 x => exact .inr (.inr ⟨x, rfl⟩)
  | _ => cases h

/-- A value whose `runtimeType` is `.int kind` is a number of that kind. -/
theorem exists_of_runtimeType_int {kind : IntKind} (h : v.runtimeType = .int kind) :
    ∃ n, v = .int kind n := by
  cases v with
  | int k n =>
    -- `runtimeType` only reads the kind off, so the two kinds are one.
    obtain rfl := Ty.int.inj h
    exact ⟨n, rfl⟩
  | _ => cases h

/-- `integer` gives a value of the type that it was asked for. -/
theorem runtimeType_of_integer (h : integer type n = .ok v) : v.runtimeType = type := by
  cases type with
  | int kind =>
    obtain ⟨_, rfl⟩ := integer_eq_ok_iff.mp h
    rfl
  | _ => cases h

/-- What `cast` makes of a value for a numeric type is a number of it. -/
theorem runtimeType_of_cast (htype : type.isNumeric = true) (h : v.cast type = .ok r) :
    r.runtimeType = type := by
  cases type with
  -- A cast to a number type makes a number of that type or fails.
  | int kind =>
    rw [cast] at h
    split at h
    · exact runtimeType_of_integer h
    · cases h
  | f32 | f64 =>
    rw [cast] at h
    split at h
    · obtain rfl := Except.ok.inj h
      rfl
    · cases h
  | _ => cases htype

/-! ## Operators -/

/-- On a number, `arithmetic` is `numericArithmetic`: the joining of texts comes into it for texts
    only. -/
theorem arithmetic_of_isNumeric (hl : l.runtimeType.isNumeric = true) :
    arithmetic op l r type = numericArithmetic op l r type := by
  rcases exists_of_isNumeric hl with ⟨kind, a, rfl⟩ | ⟨x, rfl⟩ | ⟨x, rfl⟩ <;> rw [arithmetic] <;>
    simp

/-- The `arithmeticType` of two whole number types is one, too. -/
theorem exists_arithmeticType_int (k k' : IntKind) :
    ∃ kind, Expr.arithmeticType (.int k) (.int k') = .int kind := by
  simp only [Expr.arithmeticType, Ty.isFloat, Ty.isInteger, Bool.or_self, Bool.and_self,
    Bool.false_eq_true, if_false, if_true]
  -- One kind is inside the other, or neither is and the result is an `i64`.
  split_ifs
  · exact ⟨k, rfl⟩
  · exact ⟨k', rfl⟩
  · exact ⟨.i64, rfl⟩

/-- The `arithmeticType` of a floating point type and any numeric type is `f32` or `f64`. -/
theorem arithmeticType_of_isFloat {t t' : Ty} (ht : t.isNumeric = true)
    (h : (t.isFloat || t'.isFloat) = true) :
    Expr.arithmeticType t t' = .f32 ∨ Expr.arithmeticType t t' = .f64 := by
  cases t with
  | int | f32 | f64 =>
    simp only [Expr.arithmeticType, h, if_true]
    split_ifs <;> simp
  | _ => cases ht

/-- `numericArithmetic` gives a number of the floating point type that it is asked for. -/
theorem runtimeType_of_numericArithmetic_float (htype : type = .f32 ∨ type = .f64)
    (h : numericArithmetic op l r type = .ok v) : v.runtimeType = type := by
  unfold numericArithmetic at h
  -- A whole number type is not asked for.
  split at h
  · rename_i hinteger
    rcases htype with rfl | rfl <;> cases hinteger
  · split at h
    · obtain ⟨x, -, h⟩ := exists_of_bind_eq_ok h
      -- The result is rounded to the type at the end, so it is of the type.
      obtain rfl := Except.ok.inj h
      rcases htype with rfl | rfl <;> rfl
    · cases h

/-- `arithmetic` gives a number of the `arithmeticType` of its operands. -/
theorem runtimeType_of_arithmetic (hl : l.runtimeType.isNumeric = true)
    (hr : r.runtimeType.isNumeric = true)
    (h : arithmetic op l r (Expr.arithmeticType l.runtimeType r.runtimeType) = .ok v) :
    v.runtimeType = Expr.arithmeticType l.runtimeType r.runtimeType := by
  rw [arithmetic_of_isNumeric hl] at h
  by_cases hfloat : (l.runtimeType.isFloat || r.runtimeType.isFloat) = true
  · exact runtimeType_of_numericArithmetic_float (arithmeticType_of_isFloat hl hfloat) h
  · -- Two whole numbers are computed exactly, and the result is made a value of the type.
    rcases exists_of_isNumeric hl with ⟨k, a, rfl⟩ | ⟨x, rfl⟩ | ⟨x, rfl⟩
    · rcases exists_of_isNumeric hr with ⟨k', b, rfl⟩ | ⟨y, rfl⟩ | ⟨y, rfl⟩
      · obtain ⟨kind, htype⟩ := exists_arithmeticType_int k k'
        simp only [runtimeType, htype] at h ⊢
        obtain ⟨n, -, hn⟩ := exists_of_bind_eq_ok h
        exact runtimeType_of_integer hn
      · simp [runtimeType, Ty.isFloat] at hfloat
      · simp [runtimeType, Ty.isFloat] at hfloat
    · simp [runtimeType, Ty.isFloat] at hfloat
    · simp [runtimeType, Ty.isFloat] at hfloat

/-- The `arithmeticType` of two numeric types is numeric. -/
theorem isNumeric_arithmeticType {t t' : Ty} (ht : t.isNumeric = true)
    (ht' : t'.isNumeric = true) : (Expr.arithmeticType t t').isNumeric = true := by
  by_cases hfloat : (t.isFloat || t'.isFloat) = true
  · rcases arithmeticType_of_isFloat ht hfloat with h | h <;> rw [h] <;> rfl
  · -- No operand has a floating point type, so both have a whole number type.
    have hint : t.isInteger = true ∧ t'.isInteger = true := by
      simp_all [Ty.isNumeric]
    cases t with
    | int k =>
      cases t' with
      | int k' =>
        obtain ⟨kind, h⟩ := exists_arithmeticType_int k k'
        rw [h]
        rfl
      | _ => cases hint.2
    | _ => cases hint.1

/-- `applyUnary .negate` gives a number of the type of the operand. -/
theorem runtimeType_of_negate (hv : v.runtimeType.isNumeric = true)
    (h : applyUnary .negate v = .ok r) : r.runtimeType = v.runtimeType := by
  rcases exists_of_isNumeric hv with ⟨kind, n, rfl⟩ | ⟨x, rfl⟩ | ⟨x, rfl⟩
  · exact runtimeType_of_integer h
  · obtain rfl := Except.ok.inj h
    rfl
  · obtain rfl := Except.ok.inj h
    rfl

/-- `exactArithmetic` refuses to divide by zero and results that 128 bits do not hold, and gives
    `BinaryOp.exact` elsewhere. -/
theorem exactArithmetic_eq (hop : op.isArithmetic = true) (a b : Int) :
    exactArithmetic op l r a b =
      if op.divides = true ∧ b = 0 then .error (.evaluation .divisionByZero)
      else if leastWide ≤ op.exact a b ∧ op.exact a b ≤ greatestWide then .ok (op.exact a b)
      else .error (.evaluation (.integerOverflow op.symbol)) := by
  cases op with
  | add | sub | mul | div | rem =>
    -- The remainder is written as what the quotient leaves, as `BinaryOp.exact` has it.
    simp only [exactArithmetic, BinaryOp.divides, BinaryOp.exact, Int.tmod_def, true_and,
      Bool.false_eq_true, false_and, if_false]
    split_ifs <;> simp only [*, and_self, if_true, if_false]
  | _ => cases hop

/-- `exactArithmetic_eq` read as the condition for a result. -/
theorem exactArithmetic_eq_ok_iff (hop : op.isArithmetic = true) {a b : Int} :
    exactArithmetic op l r a b = .ok n ↔
      (op.divides = true → b ≠ 0) ∧ n = op.exact a b ∧ leastWide ≤ n ∧ n ≤ greatestWide := by
  rw [exactArithmetic_eq hop]
  -- Division by zero fails first, and then a result that is too wide.
  by_cases hzero : op.divides = true ∧ b = 0
  · simp [hzero]
  · have hdivisor : op.divides = true → b ≠ 0 := fun h hb => hzero ⟨h, hb⟩
    rw [if_neg hzero]
    split_ifs with hwide
    · constructor
      · intro h
        obtain rfl := Except.ok.inj h
        exact ⟨hdivisor, rfl, hwide⟩
      · rintro ⟨-, rfl, -⟩
        rfl
    · constructor
      · intro h
        cases h
      · rintro ⟨-, rfl, h⟩
        exact absurd h hwide

/-- A number that a kind `Holds` is between `leastWide` and `greatestWide`, so that the 128 bits in
    between refuse nothing that the type has. -/
theorem wide_of_holds {kind : IntKind} (h : kind.Holds n) : leastWide ≤ n ∧ n ≤ greatestWide := by
  obtain ⟨hleast, hgreatest⟩ := h
  simp only [leastWide, greatestWide]
  cases kind <;> simp only [IntKind.least, IntKind.greatest] at hleast hgreatest <;> omega

/-- On whole numbers `arithmetic` gives the exact result, where it divides by no zero and the result
    is a number of the type, and fails elsewhere. -/
theorem arithmetic_int_eq_ok_iff (hop : op.isArithmetic = true) {k k' kind : IntKind}
    {a : k.Number} {b : k'.Number} :
    arithmetic op (.int k a) (.int k' b) (.int kind) = .ok v ↔
      (op.divides = true → b.val ≠ 0) ∧
        ∃ h : kind.Holds (op.exact a.val b.val), v = .int kind ⟨op.exact a.val b.val, h⟩ := by
  have harithmetic : arithmetic op (.int k a) (.int k' b) (.int kind) =
      exactArithmetic op (.int k a) (.int k' b) a.val b.val >>= integer (.int kind) := rfl
  rw [harithmetic]
  constructor
  · intro h
    obtain ⟨n, hn, h⟩ := exists_of_bind_eq_ok h
    obtain ⟨hdivisor, rfl, -⟩ := (exactArithmetic_eq_ok_iff hop).mp hn
    exact ⟨hdivisor, integer_eq_ok_iff.mp h⟩
  · -- What the type holds 128 bits hold, so the only check that counts is that of the type.
    rintro ⟨hdivisor, hholds, rfl⟩
    have hn := (exactArithmetic_eq_ok_iff (l := .int k a) (r := .int k' b) hop).mpr
      ⟨hdivisor, rfl, wide_of_holds hholds⟩
    rw [hn]
    exact integer_eq_ok_iff.mpr ⟨hholds, rfl⟩

end Value

namespace Expr

/-! ## Expressions -/

/-- An expression of constants, operators of arithmetic, negations and conversions. Constants hold
    values of their types, and those and the types converted to are among `types`. -/
inductive Arithmetic (types : Ty → Prop) : Expr → Prop where
  | constant {v : Value} {type : Ty} (hvalue : v.runtimeType = type) (htype : types type) :
    Arithmetic types (.constant v type)
  | binary {op : BinaryOp} {left right : Expr} (hop : op.isArithmetic = true)
    (hleft : Arithmetic types left) (hright : Arithmetic types right) :
    Arithmetic types (.binary op left right)
  | negate {operand : Expr} (hoperand : Arithmetic types operand) :
    Arithmetic types (.unary .negate operand)
  | convert {operand : Expr} {type : Ty} (htype : types type)
    (hoperand : Arithmetic types operand) : Arithmetic types (.convert operand type)

/-- The exact result of arithmetic on whole numbers, by `BinaryOp.exact` and `-` on `Int` alone,
    whatever the types of the nodes are. -/
def exact : Expr → Int
  | constant v _ => v.asInteger?.getD 0
  | binary op left right => op.exact (exact left) (exact right)
  | unary .negate operand => -exact operand
  | convert operand _ => exact operand
  | _ => 0

/-- No node that `divides` has a right operand whose `exact` result is zero. -/
def DivisorNode : Expr → Prop
  | binary op _ right => op.divides = true → right.exact ≠ 0
  | _ => True

/-- The `exact` result of the node is a number of its static `type`. -/
def FittingNode (e : Expr) : Prop := ∃ kind, e.type = .int kind ∧ kind.Holds e.exact

/-- The node has a `DivisorNode` and a `FittingNode`. -/
def ExactNode (e : Expr) : Prop := e.DivisorNode ∧ e.FittingNode

variable {e left right operand : Expr} {op : BinaryOp} {v : Value}

/-- The static type of a node with an operator of arithmetic is the `arithmeticType` of its
    operands. -/
theorem type_of_arithmetic (hop : op.isArithmetic = true) :
    (binary op left right).type = arithmeticType left.type right.type := by
  cases op with
  | add | sub | mul | div | rem => rfl
  | _ => cases hop

/-- `evaluate` on an operator of arithmetic applies `Value.arithmetic` to the values of both
    operands. -/
theorem evaluate_of_arithmetic (hop : op.isArithmetic = true) :
    (binary op left right).evaluate =
      left.evaluate >>= fun l => right.evaluate >>= fun r =>
        Value.arithmetic op l r (arithmeticType left.type right.type) := by
  cases op with
  | add | sub | mul | div | rem =>
    rw [← type_of_arithmetic hop]
    simp only [evaluate]
    rfl
  | _ => cases hop

/-- `evaluate` on a negation. -/
theorem evaluate_negate :
    (unary .negate operand).evaluate =
      operand.evaluate >>= fun v => Value.applyUnary .negate v := by
  rw [evaluate]

theorem evaluate_convert {type : Ty} :
    (convert operand type).evaluate = operand.evaluate >>= fun v => v.cast type := by
  rw [evaluate]

namespace Arithmetic

variable {types : Ty → Prop}

/-- Where the types are numeric, the static `type` is numeric and the value is a number of it. -/
theorem typed (h : e.Arithmetic fun t => t.isNumeric = true) :
    e.type.isNumeric = true ∧ ∀ v, e.evaluate = .ok v → v.runtimeType = e.type := by
  -- The static type of a node is the type that its value is computed with.
  induction h with
  | constant hvalue htype =>
    refine ⟨htype, fun v hv => ?_⟩
    rw [evaluate] at hv
    obtain rfl := Except.ok.inj hv
    exact hvalue
  | @binary op left right hop _ _ ihleft ihright =>
    obtain ⟨hleft, ihleft⟩ := ihleft
    obtain ⟨hright, ihright⟩ := ihright
    rw [type_of_arithmetic hop]
    refine ⟨?_, fun v hv => ?_⟩
    · exact Value.isNumeric_arithmeticType hleft hright
    · rw [evaluate_of_arithmetic hop] at hv
      obtain ⟨l, hl, hv⟩ := exists_of_bind_eq_ok hv
      obtain ⟨r, hr, hv⟩ := exists_of_bind_eq_ok hv
      -- The static types of the operands are those of their values, which
      -- `runtimeType_of_arithmetic` asks for.
      rw [← ihleft l hl] at hleft hv ⊢
      rw [← ihright r hr] at hright hv ⊢
      exact Value.runtimeType_of_arithmetic hleft hright hv
  | @negate operand _ ih =>
    obtain ⟨htype, ih⟩ := ih
    refine ⟨htype, fun v hv => ?_⟩
    rw [evaluate_negate] at hv
    obtain ⟨w, hw, hv⟩ := exists_of_bind_eq_ok hv
    rw [← ih w hw] at htype
    -- A negation has the type of its operand.
    rw [type, ← ih w hw]
    exact Value.runtimeType_of_negate htype hv
  | convert htype _ ih =>
    refine ⟨htype, fun v hv => ?_⟩
    -- Whatever the operand is, the value was cast to the type of the node.
    rw [evaluate_convert] at hv
    obtain ⟨w, -, hv⟩ := exists_of_bind_eq_ok hv
    exact Value.runtimeType_of_cast htype hv

/-- A value of whole number types is the `exact` result, and every part of the expression is an
    `ExactNode`. -/
theorem exact_of_evaluate (h : e.Arithmetic fun t => t.isInteger = true) :
    ∀ {v}, e.evaluate = .ok v → Everywhere parts ExactNode e ∧
      ∃ kind, e.type = .int kind ∧ ∃ hn : kind.Holds e.exact, v = .int kind ⟨e.exact, hn⟩ := by
  induction h with
  -- A constant holds a number of its type, and nothing is computed.
  | @constant w type hvalue htype =>
    intro v hv
    cases type with
    | int kind =>
      obtain ⟨n, rfl⟩ := Value.exists_of_runtimeType_int hvalue
      rw [evaluate] at hv
      obtain rfl := Except.ok.inj hv
      exact ⟨.of_leaf rfl ⟨trivial, kind, rfl, n.property⟩, kind, rfl, n.property, rfl⟩
    | _ => cases htype
  | @binary op left right hop _ _ ihleft ihright =>
    intro v hv
    rw [evaluate_of_arithmetic hop] at hv
    obtain ⟨l, hl, hv⟩ := exists_of_bind_eq_ok hv
    obtain ⟨r, hr, hv⟩ := exists_of_bind_eq_ok hv
    -- Both operands have their exact values, so `arithmetic_int_eq_ok_iff` gives what this node
    -- has.
    obtain ⟨hleft, k, hk, hnl, rfl⟩ := ihleft hl
    obtain ⟨hright, k', hk', hnr, rfl⟩ := ihright hr
    obtain ⟨kind, hkind⟩ := Value.exists_arithmeticType_int k k'
    rw [hk, hk', hkind] at hv
    obtain ⟨hdivisor, hholds, rfl⟩ := (Value.arithmetic_int_eq_ok_iff hop).mp hv
    have htype : (Expr.binary op left right).type = .int kind := by
      rw [type_of_arithmetic hop, hk, hk', hkind]
    refine ⟨.intro ⟨hdivisor, kind, htype, hholds⟩ ?_, kind, htype, hholds, rfl⟩
    simpa [parts] using ⟨hleft, hright⟩
  | @negate operand _ ih =>
    intro v hv
    rw [evaluate_negate] at hv
    obtain ⟨w, hw, hv⟩ := exists_of_bind_eq_ok hv
    obtain ⟨hoperand, kind, hkind, hn, rfl⟩ := ih hw
    -- To negate is to make the negated number a value of the same type.
    obtain ⟨hholds, rfl⟩ := Value.integer_eq_ok_iff.mp hv
    refine ⟨.intro ⟨trivial, kind, hkind, hholds⟩ ?_, kind, hkind, hholds, rfl⟩
    simpa [parts] using hoperand
  | @convert operand type htype _ ih =>
    intro v hv
    rw [evaluate_convert] at hv
    obtain ⟨w, hw, hv⟩ := exists_of_bind_eq_ok hv
    -- The type of the operand does not matter: its exact number is made a value of the new type.
    obtain ⟨hoperand, k, -, hn, rfl⟩ := ih hw
    cases type with
    | int kind =>
      obtain ⟨hholds, rfl⟩ := Value.integer_eq_ok_iff.mp hv
      refine ⟨.intro ⟨trivial, kind, rfl, hholds⟩ ?_, kind, rfl, hholds, rfl⟩
      simpa [parts] using hoperand
    | _ => cases htype

/-- Where every part is an `ExactNode`, `evaluate` succeeds. -/
theorem exists_evaluate (h : e.Arithmetic fun t => t.isInteger = true) :
    Everywhere parts ExactNode e → ∃ v, e.evaluate = .ok v := by
  induction h with
  | constant =>
    intro _
    exact ⟨_, by rw [evaluate]⟩
  | @binary op left right hop hl hr ihleft ihright =>
    intro hexact
    obtain ⟨l, hleft⟩ := ihleft (hexact.at_part (.head _))
    obtain ⟨r, hright⟩ := ihright (hexact.at_part (.tail _ (.head _)))
    -- The values of the operands are known, so the node is computed from their exact results.
    obtain ⟨-, k, hk, hnl, rfl⟩ := hl.exact_of_evaluate hleft
    obtain ⟨-, k', hk', hnr, rfl⟩ := hr.exact_of_evaluate hright
    obtain ⟨hdivisor, kind, htype, hholds⟩ := hexact.at_top
    rw [type_of_arithmetic hop] at htype
    refine ⟨.int kind ⟨_, hholds⟩, ?_⟩
    rw [evaluate_of_arithmetic hop, hleft, hright, htype]
    exact (Value.arithmetic_int_eq_ok_iff hop).mpr ⟨hdivisor, hholds, rfl⟩
  | @negate operand hoperand ih =>
    intro hexact
    obtain ⟨w, hw⟩ := ih (hexact.at_part (.head _))
    obtain ⟨-, k, hk, hn, rfl⟩ := hoperand.exact_of_evaluate hw
    obtain ⟨-, kind, htype, hholds⟩ := hexact.at_top
    -- The kind of the operand is the static one of the negation.
    obtain rfl : k = kind := Ty.int.inj (hk.symm.trans htype)
    refine ⟨.int k ⟨_, hholds⟩, ?_⟩
    rw [evaluate_negate, hw]
    exact Value.integer_eq_ok_iff.mpr ⟨hholds, rfl⟩
  | @convert operand type _ hoperand ih =>
    intro hexact
    obtain ⟨w, hw⟩ := ih (hexact.at_part (.head _))
    obtain ⟨-, k, hk, hn, rfl⟩ := hoperand.exact_of_evaluate hw
    obtain ⟨-, kind, rfl, hholds⟩ := hexact.at_top
    refine ⟨.int kind ⟨_, hholds⟩, ?_⟩
    rw [evaluate_convert, hw]
    exact Value.integer_eq_ok_iff.mpr ⟨hholds, rfl⟩

/-- On whole numbers `evaluate` succeeds exactly where every part is an `ExactNode`. -/
theorem exists_evaluate_iff (h : e.Arithmetic fun t => t.isInteger = true) :
    (∃ v, e.evaluate = .ok v) ↔ Everywhere parts ExactNode e :=
  ⟨fun hv => (h.exact_of_evaluate hv.choose_spec).1, h.exists_evaluate⟩

end Arithmetic

/-- The value of an expression of numeric types is a number of the static `type`. Where only whole
    number types are at the leaves and converted to, `evaluate` succeeds exactly where no divisor is
    zero and the `exact` result of every node is a number of its type, and then the value is the
    exact result. -/
theorem evaluate_typed_exact (e : Expr) :
    (e.Arithmetic (fun t => t.isNumeric = true) →
      ∀ v, e.evaluate = .ok v → v.runtimeType = e.type) ∧
    (e.Arithmetic (fun t => t.isInteger = true) →
      ((∃ v, e.evaluate = .ok v) ↔
        Everywhere parts DivisorNode e ∧ Everywhere parts FittingNode e) ∧
      ∀ v, e.evaluate = .ok v →
        ∃ kind, e.type = .int kind ∧ ∃ hn : kind.Holds e.exact, v = .int kind ⟨e.exact, hn⟩) := by
  refine ⟨fun h => h.typed.2, fun h => ⟨?_, fun v hv => (h.exact_of_evaluate hv).2⟩⟩
  rw [h.exists_evaluate_iff]
  constructor
  · intro hexact
    exact ⟨hexact.imp fun _ hnode => hnode.1, hexact.imp fun _ hnode => hnode.2⟩
  · rintro ⟨hdivisor, hfitting⟩
    exact hdivisor.and hfitting

/-! The remainder of the negation of 100 times 2 by 7, where all numbers have types of their own,
and the square of the greatest number of 64 bits, which 128 bits with a sign do not hold. -/

/-- The number 100 as an `i8`. -/
def hundred : Expr := .constant (.int .i8 ⟨100, by decide⟩) (.int .i8)

/-- The number 2 as a `u8`. -/
def two : Expr := .constant (.int .u8 ⟨2, by decide⟩) (.int .u8)

/-- The number 7 as a `u32`. -/
def seven : Expr := .constant (.int .u32 ⟨7, by decide⟩) (.int .u32)

/-- The expression `-100 * (2 as i16) % 7` on three kinds of numbers. -/
def remainder : Expr :=
  .binary .rem (.binary .mul (.unary .negate hundred) (.convert two (.int .i16))) seven

/-- The number `2 ^ 64 - 1`, the greatest of `u64`. -/
def greatest : Expr := .constant (.int .u64 ⟨18446744073709551615, by decide⟩) (.int .u64)

/-- `remainder` is arithmetic over every set of types with all whole number types. -/
theorem arithmetic_remainder {types : Ty → Prop} (h : ∀ kind, types (.int kind)) :
    remainder.Arithmetic types :=
  .binary rfl (.binary rfl (.negate (.constant rfl (h _))) (.convert (h _) (.constant rfl (h _))))
    (.constant rfl (h _))

/-- `evaluate_typed_exact` at `remainder`, which is `-4` as an `i64`, and at the square of
    `greatest`, which has no value. -/
theorem evaluate_typed_exact_remainder :
    remainder.Arithmetic (fun t => t.isNumeric = true) ∧
    remainder.Arithmetic (fun t => t.isInteger = true) ∧
    (Expr.binary .mul greatest greatest).Arithmetic (fun t => t.isInteger = true) ∧
    (∃ v, remainder.evaluate = .ok v ∧ v.runtimeType = .int .i64 ∧ v = .int .i64 ⟨-4, by decide⟩) ∧
    ¬∃ v, (Expr.binary .mul greatest greatest).evaluate = .ok v := by
  have hnumeric : remainder.Arithmetic fun t => t.isNumeric = true :=
    arithmetic_remainder fun _ => rfl
  have hinteger : remainder.Arithmetic fun t => t.isInteger = true :=
    arithmetic_remainder fun _ => rfl
  have hsquare : (Expr.binary .mul greatest greatest).Arithmetic fun t => t.isInteger = true :=
    .binary rfl (.constant rfl rfl) (.constant rfl rfl)
  obtain ⟨htyped, hexact⟩ := evaluate_typed_exact remainder
  obtain ⟨v, hv⟩ : ∃ v, remainder.evaluate = .ok v := ⟨.int .i64 ⟨-4, by decide⟩, by rfl⟩
  refine ⟨hnumeric, hinteger, hsquare, ⟨v, hv, htyped hnumeric v hv, ?_⟩, ?_⟩
  · obtain ⟨kind, hkind, hn, rfl⟩ := (hexact hinteger).2 v hv
    -- The remainder of an `i64` by a `u32` is an `i64`.
    obtain rfl : kind = .i64 := (Ty.int.inj hkind).symm
    rfl
  · rw [((evaluate_typed_exact (.binary .mul greatest greatest)).2 hsquare).1]
    -- The exact square is past every `u64`, so its node does not fit.
    rintro ⟨-, hfitting⟩
    obtain ⟨kind, hkind, hholds⟩ := hfitting.at_top
    obtain rfl : kind = .u64 := (Ty.int.inj hkind).symm
    exact absurd hholds (by decide)

end Expr

end DocQuery
