import DocQuery.Expr.Evaluate
import DocQuery.Proofs.Schema.Order

/-!
# Operators of comparison

Equality and order are decided apart from each other: every two values are equal or not, and only
some have an order. Where two values have an order, one result of comparing them answers all six
operators.

## Key results

- `Value.applyBinary_of_compare`: the order of two values answers every operator of comparison
- `Expr.comparisons_agree`: operators of comparison never contradict each other
-/

namespace DocQuery

namespace BinaryOp

/-- What an operator of comparison says of two values in an order; the other operators say
    nothing. -/
def admits? : BinaryOp → Ordering → Option Bool
  | eq, o => some (o == .eq)
  | ne, o => some (o != .eq)
  | lt, o => some (o == .lt)
  | le, o => some (o != .gt)
  | gt, o => some (o == .gt)
  | ge, o => some (o != .lt)
  | _, _ => none

end BinaryOp

variable {a b : Value} {o : Ordering} {op : BinaryOp} {answer : Bool}

/-- The order of two values, as `compare` gives it, answers every operator of comparison, equality
    included. -/
theorem Value.applyBinary_of_compare (h : a.compare b = .ok o) (hop : op.admits? o = some answer)
    (type : Ty) : applyBinary op a b type = .ok (.bool answer) := by
  -- Equality is decided on its own, but where there is an order the two agree.
  have hequals : a.equals b = (o == .eq) := by
    rw [Bool.eq_iff_iff, ← compare_eq_iff_equals h, beq_iff_eq]
  cases op with
  | eq =>
    obtain rfl := Option.some.inj hop
    rw [applyBinary, hequals]
  | ne =>
    obtain rfl := Option.some.inj hop
    rw [applyBinary, hequals]
    rfl
  | lt | le | gt | ge =>
    obtain rfl := Option.some.inj hop
    rw [applyBinary, h]
    rfl
  | _ => cases hop

namespace Expr

variable {left right : Expr}

/-- An operator of comparison is applied to the values of both operands, so `evaluate` gives its
    answer. -/
theorem evaluate_of_admits (hleft : left.evaluate = .ok a) (hright : right.evaluate = .ok b)
    (h : a.compare b = .ok o) (hop : op.admits? o = some answer) :
    (binary op left right).evaluate = .ok (.bool answer) := by
  have happly := Value.applyBinary_of_compare h hop (binary op left right).type
  cases op with
  | eq | ne | lt | le | gt | ge =>
    simp only [evaluate, hleft, hright]
    exact happly
  | _ => cases hop

/-- Two values that `compare` puts in an order have the opposite order when they change places, and
    they are equal where neither is below the other. Of expressions for them exactly one is below,
    equal to or above the other, and the other three operators of comparison are the negations of
    these. -/
theorem comparisons_agree {a b : Value} {o : Ordering} (h : a.compare b = .ok o) :
    b.compare a = .ok o.swap ∧ (o = .eq ↔ a.equals b = true) ∧
      ∀ left right : Expr, left.evaluate = .ok a → right.evaluate = .ok b →
        ∃ below equal above : Bool,
          (binary .lt left right).evaluate = .ok (.bool below) ∧
          (binary .eq left right).evaluate = .ok (.bool equal) ∧
          (binary .gt left right).evaluate = .ok (.bool above) ∧
          [below, equal, above].count true = 1 ∧
          (binary .le left right).evaluate = .ok (.bool !above) ∧
          (binary .ge left right).evaluate = .ok (.bool !below) ∧
          (binary .ne left right).evaluate = .ok (.bool !equal) := by
  refine ⟨Value.compare_swap h, Value.compare_eq_iff_equals h, ?_⟩
  intro left right hleft hright
  have hevaluate {op : BinaryOp} {answer : Bool} (hop : op.admits? o = some answer) :
      (binary op left right).evaluate = .ok (.bool answer) :=
    evaluate_of_admits hleft hright h hop
  refine ⟨o == .lt, o == .eq, o == .gt, hevaluate rfl, hevaluate rfl, hevaluate rfl, ?_,
    hevaluate rfl, hevaluate rfl, hevaluate rfl⟩
  -- The three truth values are read off the order, and one of them is true.
  cases o <;> rfl

/-- A whole number and a greater one of another type, where `compare` goes by their numeric
    values. -/
theorem comparisons_agree_two_three :
    let two := Value.int .i8 ⟨2, by decide⟩
    let three := Value.f64 (.ofInt 3)
    let holds (op : BinaryOp) (answer : Bool) : Prop :=
      (binary op (constant two (.int .i8)) (constant three .f64)).evaluate = .ok (.bool answer)
    three.compare two = .ok .gt ∧ (Ordering.lt = .eq ↔ two.equals three = true) ∧
      ∃ below equal above, holds .lt below ∧ holds .eq equal ∧ holds .gt above ∧
        [below, equal, above].count true = 1 ∧ holds .le !above ∧ holds .ge !below ∧
        holds .ne !equal := by
  have hcompare : (Binary.ofInt 2 : Binary64).compare? (.ofInt 3) = some .lt := by decide +kernel
  -- Integer and float are compared as floats.
  have hless : (Value.int .i8 ⟨2, by decide⟩).compare (.f64 (.ofInt 3)) = .ok .lt := by
    simp [Value.compare, Value.asInteger?, Value.asFloat?, hcompare]
  obtain ⟨hswap, hequals, hagree⟩ := comparisons_agree hless
  exact ⟨hswap, hequals, hagree _ _ (by rw [evaluate]) (by rw [evaluate])⟩

end Expr

end DocQuery
