import DocQuery.Expr.Evaluate
import DocQuery.Proofs.Codec.Finite
import DocQuery.Proofs.Members
import DocQuery.Proofs.Schema.Cast
import DocQuery.Proofs.Sequence

/-!
# Values of expressions

Evaluation makes numbers, lists and records of what it is given, and variants of enumerations only
come from constants, from the defaults of records and from handlers. Where those have numbers of 64
bits, so has every value that is computed from them.

## Key results

- `Expr.evaluates_true`: nothing is asked of an expression where every value is allowed
- `Value.mem_parts_or_atomic_of_applyBinary`: operators make no values of declared types
- `Expr.Representable.evaluate`: values of representable expressions are representable
-/

namespace DocQuery

open Sequence (exists_of_bind_eq_ok)

/-! ## Parts of expressions -/

namespace Expr

/-- The expressions that an expression is built from directly. -/
def parts : Expr → List Expr
  | constant _ _ | parameter _ => []
  | binary _ left right => [left, right]
  | unary _ operand => [operand]
  | member target _ => target.toList
  | call target _ args => target.toList ++ args
  | construct _ args => args
  | recordInit _ bindings => bindings.map Prod.snd
  | array _ items => items
  | conditional test ifTrue ifFalse => [test, ifTrue, ifFalse]
  | convert operand _ => [operand]
  | lambda _ body => [body]

/-- Whatever an expression evaluates to is `allowed`, at every depth. -/
abbrev Evaluates (allowed : Value → Prop) : Expr → Prop :=
  Everywhere parts fun e => ∀ v, e.evaluate = .ok v → allowed v

theorem sizeOf_lt_of_mem_target {e : Expr} {target : Option Expr} (h : e ∈ target.toList) :
    sizeOf e < sizeOf target := by
  obtain rfl := Option.mem_toList.mp h
  simp

/-- Parts of an expression are smaller, so claims on all parts may be proved by induction. -/
theorem sizeOf_lt_of_mem_parts (e : Expr) : ∀ part ∈ e.parts, sizeOf part < sizeOf e := by
  intro part hpart
  cases e with
  | constant | parameter => cases hpart
  | member target callee =>
    have := sizeOf_lt_of_mem_target hpart
    simp
    omega
  -- The parts of a call are its target and its arguments.
  | call target callee args =>
    rcases List.mem_append.mp hpart with hpart | hpart
    · have := sizeOf_lt_of_mem_target hpart
      simp
      omega
    · have := List.sizeOf_lt_of_mem hpart
      simp
      omega
  | construct callee args =>
    have hpart : part ∈ args := hpart
    have := List.sizeOf_lt_of_mem hpart
    simp
    omega
  -- The parts are the values of the bindings, whose names have a size of their own.
  | recordInit type bindings =>
    obtain ⟨⟨name, e⟩, hbinding, rfl⟩ := List.mem_map.mp hpart
    have := List.sizeOf_lt_of_mem hbinding
    simp at this ⊢
    omega
  | array element items =>
    have hpart : part ∈ items := hpart
    have := List.sizeOf_lt_of_mem hpart
    simp
    omega
  | _ =>
    -- The other expressions list their parts one by one.
    simp only [parts, List.mem_cons, List.not_mem_nil, or_false] at hpart
    simp
    rcases hpart with rfl | rfl | rfl <;> omega

/-- Where every value is allowed, expressions evaluate to allowed values. -/
theorem evaluates_true (e : Expr) : e.Evaluates fun _ => True :=
  .of_forall sizeOf_lt_of_mem_parts (fun _ _ _ => trivial) e

end Expr

/-! ## Operators -/

namespace Value

variable {l r v w : Value} {type : Ty}

/-- Arithmetic on numbers makes numbers, which are `Atomic`. -/
theorem atomic_of_numericArithmetic {op : BinaryOp}
    (h : numericArithmetic op l r type = .ok v) : v.Atomic := by
  unfold numericArithmetic at h
  -- Two integers first, then two numbers as floats.
  split at h
  · obtain ⟨n, -, h⟩ := exists_of_bind_eq_ok h
    exact atomic_of_integer h
  · split at h
    · obtain ⟨x, -, h⟩ := exists_of_bind_eq_ok h
      obtain rfl := Except.ok.inj h
      split <;> trivial
    · cases h

/-- Times and spans that are in range are `Atomic`, and others are errors. -/
theorem atomic_of_inTimeRange {α : Type} {op : BinaryOp} {result : Option α} {f : α → Value}
    (hf : ∀ a, (f a).Atomic) (h : inTimeRange op (result.map f) = .ok v) : v.Atomic := by
  cases result with
  | none => cases h
  | some a =>
    obtain rfl := Except.ok.inj h
    exact hf a

/-- Arithmetic makes numbers, times, spans and texts, which are all `Atomic`. -/
theorem atomic_of_arithmetic {op : BinaryOp} (h : arithmetic op l r type = .ok v) :
    v.Atomic := by
  unfold arithmetic at h
  split at h
  -- Times and spans, for which only sums and differences are defined.
  iterate 3
    · split at h
      · refine atomic_of_inTimeRange ?_ h
        exact fun _ => trivial
      · cases h
  · split at h
    · obtain rfl := Except.ok.inj h
      trivial
    · exact atomic_of_numericArithmetic h
  · exact atomic_of_numericArithmetic h

/-- What `itemAt` gives is an item of the list. -/
theorem mem_of_itemAt {items : List Value} {index : Int} (h : itemAt items index = .ok v) :
    v ∈ items := by
  unfold itemAt at h
  dsimp only at h
  -- An index counts from either end, and what lies outside is an error.
  split_ifs at h
  all_goals
    split at h
    · rename_i item hitem
      obtain rfl := Except.ok.inj h
      exact List.mem_of_getElem? hitem
    · cases h

/-- The value of a field that is found by `get?` is among the values of the record. -/
theorem mem_of_get? {record : RecordValue} {name : String} (h : record.get? name = some v) :
    v ∈ record.fields := by
  obtain ⟨index, -, hv⟩ := Option.bind_eq_some_iff.mp h
  exact List.mem_of_getElem? hv

/-- An item of a value is among its `parts`: of a list, of a map or of a record. -/
theorem mem_parts_of_item {key : Value} (h : item l key = .ok v) : v ∈ l.parts := by
  unfold item at h
  -- A list by its index, a map or record by the name.
  split at h
  · split at h
    · exact mem_of_itemAt h
    · cases h
  · split at h
    · rename_i found hfound
      obtain rfl := Except.ok.inj h
      exact List.mem_map_of_mem (Members.mem_of_get? hfound)
    · cases h
  · split at h
    · rename_i found hfound
      obtain rfl := Except.ok.inj h
      exact mem_of_get? hfound
    · cases h
  · cases h

/-- An operator takes one of the `parts` of its left operand or makes a value of no declared
    type. -/
theorem mem_parts_or_atomic_of_applyBinary {op : BinaryOp}
    (h : applyBinary op l r type = .ok v) : v ∈ l.parts ∨ v.Atomic := by
  cases op with
  | eq | ne =>
    obtain rfl := Except.ok.inj h
    exact .inr trivial
  | lt | le | gt | ge =>
    obtain ⟨order, -, h⟩ := exists_of_bind_eq_ok h
    obtain rfl := Except.ok.inj h
    exact .inr trivial
  | index => exact .inl (mem_parts_of_item h)
  -- The other operators are those of arithmetic.
  | _ =>
    unfold applyBinary at h
    exact .inr (atomic_of_arithmetic h)

/-- A unary operator makes a number or a truth value. -/
theorem atomic_of_applyUnary {op : UnaryOp} (h : applyUnary op v = .ok w) : w.Atomic := by
  unfold applyUnary at h
  split at h
  all_goals first
    | exact atomic_of_integer h
    | cases h
  all_goals trivial

/-- A value of no declared type has no number of a variant that could be too large. -/
theorem Atomic.representable (h : v.Atomic) : v.Representable :=
  .of_leaf h.parts_eq_nil (by cases v <;> trivial)

end Value

namespace Expr

/-- The values that an expression brings along are `Representable`: those of constants and of the
    defaults of records, and what handlers give for representable values. -/
def RepresentableNode : Expr → Prop
  | constant value _ => value.Representable
  | recordInit type _ => ∀ v ∈ (RecordValue.default type).fields, v.Representable
  | member _ callee | call _ callee _ | construct callee _ =>
    ∀ handler, callee.handler = some handler → ∀ target args v,
      (∀ w ∈ target, Value.Representable w) → (∀ w ∈ args, Value.Representable w) →
      handler target args = .ok v → v.Representable
  | _ => True

/-- An expression that brings along representable values only, at every depth, by
    `RepresentableNode`. -/
abbrev Representable : Expr → Prop := Everywhere parts RepresentableNode

/-! ## Evaluation -/

variable {holds : Value → Prop}

/-- What holds of the value of the target holds of what `evaluateTarget` finds. -/
theorem forall_of_evaluateTarget {target : Option Expr} {found : Option Value}
    (ih : ∀ e ∈ target.toList, ∀ v, e.evaluate = .ok v → holds v)
    (h : evaluateTarget target = .ok found) : ∀ v ∈ found, holds v := by
  cases target with
  | none =>
    obtain rfl := Except.ok.inj h
    exact fun _ hv => by cases hv
  | some e =>
    rw [evaluateTarget] at h
    obtain ⟨w, hw, h⟩ := exists_of_bind_eq_ok h
    obtain rfl := Except.ok.inj h
    intro v hv
    obtain rfl := Option.mem_some_iff.mp hv
    exact ih e (.head _) w hw

/-- What holds of the value of each expression holds of all that `evaluateAll` gives. -/
theorem forall_of_evaluateAll {es : List Expr} {values : List Value}
    (ih : ∀ e ∈ es, ∀ v, e.evaluate = .ok v → holds v) (h : evaluateAll es = .ok values) :
    ∀ v ∈ values, holds v := by
  induction es generalizing values with
  | nil =>
    rw [evaluateAll] at h
    obtain rfl := Except.ok.inj h
    exact List.forall_mem_nil _
  | cons e rest ihes =>
    rw [evaluateAll] at h
    obtain ⟨v, hv, h⟩ := exists_of_bind_eq_ok h
    obtain ⟨vs, hvs, h⟩ := exists_of_bind_eq_ok h
    obtain rfl := Except.ok.inj h
    rw [List.forall_mem_cons]
    exact ⟨ih e (.head _) v hv, ihes (fun e he => ih e (.tail _ he)) hvs⟩

/-- Setting fields by `evaluateBindings` keeps what holds of the values of all fields. -/
theorem forall_of_evaluateBindings {bindings : List (String × Expr)} {record after : RecordValue}
    (hrecord : ∀ v ∈ record.fields, holds v)
    (ih : ∀ e ∈ bindings.map Prod.snd, ∀ v, e.evaluate = .ok v → holds v)
    (h : evaluateBindings record bindings = .ok after) : ∀ v ∈ after.fields, holds v := by
  induction bindings generalizing record with
  | nil =>
    rw [evaluateBindings] at h
    obtain rfl := Except.ok.inj h
    exact hrecord
  | cons binding rest ihes =>
    obtain ⟨name, e⟩ := binding
    rw [evaluateBindings] at h
    obtain ⟨v, hv, h⟩ := exists_of_bind_eq_ok h
    obtain ⟨middle, hmiddle, h⟩ := exists_of_bind_eq_ok h
    obtain ⟨index, -, hmiddle⟩ := exists_of_bind_eq_ok hmiddle
    obtain rfl := Except.ok.inj hmiddle
    refine ihes (fun w hw => ?_) (fun e he => ih e (.tail _ he)) h
    -- Every other field still has the value that it had before.
    rcases List.mem_or_eq_of_mem_set hw with hold | rfl
    · exact hrecord w hold
    · exact ih e (.head _) w hv

/-- The value of a member comes from its handler or is among the `parts` of the target. -/
theorem representable_of_memberValue {callee : Callee} {target : Option Value} {v : Value}
    (hcallee : RepresentableNode (.member none callee))
    (htarget : ∀ w ∈ target, Value.Representable w) (h : memberValue callee target = .ok v) :
    v.Representable := by
  unfold memberValue at h
  dsimp only at h
  -- The callee's own handler comes first, then a field, then the entry of a map.
  split at h
  · rename_i handler hhandler
    exact hcallee handler hhandler _ [] v htarget (List.forall_mem_nil _) h
  · split at h
    · rename_i hfound
      obtain rfl := Except.ok.inj h
      exact (htarget _ rfl).at_part (Value.mem_of_get? hfound)
    · cases h
  · split at h
    · rename_i hfound
      obtain rfl := Except.ok.inj h
      exact (htarget _ rfl).at_part (List.mem_map_of_mem (Members.mem_of_get? hfound))
    · cases h
  · cases h
  · cases h

/-- A binary expression gives a truth value, the value of an operand, or what its operator makes by
    `applyBinary` of both. -/
theorem eq_of_evaluate_binary {op : BinaryOp} {left right : Expr} {v : Value}
    (h : (binary op left right).evaluate = .ok v) :
    (∃ b, v = .bool b) ∨ left.evaluate = .ok v ∨ right.evaluate = .ok v ∨
      ∃ l r, left.evaluate = .ok l ∧ right.evaluate = .ok r ∧
        Value.applyBinary op l r (binary op left right).type = .ok v := by
  unfold Expr.evaluate at h
  dsimp only at h
  split at h
  iterate 2
    · -- The right operand of a logical operator may not be looked at.
      obtain ⟨_, -, h⟩ := exists_of_bind_eq_ok h
      obtain ⟨_, -, h⟩ := exists_of_bind_eq_ok h
      split at h
      · exact .inl ⟨_, (Except.ok.inj h).symm⟩
      · obtain ⟨_, -, h⟩ := exists_of_bind_eq_ok h
        obtain ⟨_, -, h⟩ := exists_of_bind_eq_ok h
        exact .inl ⟨_, (Except.ok.inj h).symm⟩
  · -- The fallback of a null is the value of one of the operands as it is.
    obtain ⟨l, hl, h⟩ := exists_of_bind_eq_ok h
    split at h
    · exact .inr (.inr (.inl h))
    · exact .inr (.inl (Except.ok.inj h ▸ hl))
  · obtain ⟨l, hl, h⟩ := exists_of_bind_eq_ok h
    obtain ⟨r, hr, h⟩ := exists_of_bind_eq_ok h
    exact .inr (.inr (.inr ⟨l, r, hl, hr, h⟩))

/-- Values of `Representable` expressions are representable. -/
theorem Representable.evaluate {e : Expr} (he : e.Representable) :
    ∀ v, e.evaluate = .ok v → v.Representable := by
  induction he with
  | @intro e top rest ih =>
    intro v h
    cases e with
    | constant value type =>
      rw [Expr.evaluate] at h
      exact Except.ok.inj h ▸ top
    -- A parameter has no value on the client.
    | parameter p =>
      rw [Expr.evaluate] at h
      cases h
    -- A logical operator gives a Boolean, and a fallback the value of one operand.
    | binary op left right =>
      rcases eq_of_evaluate_binary h with ⟨b, rfl⟩ | h | h | ⟨l, r, hl, -, h⟩
      · exact .of_leaf rfl trivial
      · exact ih left (.head _) v h
      · exact ih right (.tail _ (.head _)) v h
      · -- An item of the left operand is a part of it, and what is computed has no declared type.
        rcases Value.mem_parts_or_atomic_of_applyBinary h with hpart | hatomic
        · exact (ih left (.head _) l hl).at_part hpart
        · exact hatomic.representable
    | unary op operand =>
      rw [Expr.evaluate] at h
      obtain ⟨w, -, h⟩ := exists_of_bind_eq_ok h
      exact (Value.atomic_of_applyUnary h).representable
    | member target callee =>
      rw [Expr.evaluate] at h
      obtain ⟨found, hfound, h⟩ := exists_of_bind_eq_ok h
      exact representable_of_memberValue top (forall_of_evaluateTarget ih hfound) h
    | call target callee args =>
      rw [Expr.evaluate] at h
      split at h
      · cases h
      · rename_i handler hhandler
        obtain ⟨found, hfound, h⟩ := exists_of_bind_eq_ok h
        obtain ⟨values, hvalues, h⟩ := exists_of_bind_eq_ok h
        -- The handler is given the target and the arguments, which are parts.
        refine top handler hhandler found values v (forall_of_evaluateTarget ?_ hfound)
          (forall_of_evaluateAll ?_ hvalues) h
        · exact fun e he => ih e (List.mem_append_left _ he)
        · exact fun e he => ih e (List.mem_append_right _ he)
    | construct callee args =>
      rw [Expr.evaluate] at h
      split at h
      · cases h
      · rename_i handler hhandler
        obtain ⟨values, hvalues, h⟩ := exists_of_bind_eq_ok h
        exact top handler hhandler none values v (fun _ hw => by cases hw)
          (forall_of_evaluateAll ih hvalues) h
    | recordInit type bindings =>
      rw [Expr.evaluate] at h
      obtain ⟨record, hrecord, h⟩ := exists_of_bind_eq_ok h
      obtain rfl := Except.ok.inj h
      -- The value is a record of the values of the parts and of defaults.
      exact .intro trivial (forall_of_evaluateBindings top ih hrecord)
    | array element items =>
      rw [Expr.evaluate] at h
      obtain ⟨values, hvalues, h⟩ := exists_of_bind_eq_ok h
      obtain rfl := Except.ok.inj h
      exact .intro trivial (forall_of_evaluateAll ih hvalues)
    -- The test is a Boolean, and the value is that of one branch.
    | conditional test ifTrue ifFalse =>
      rw [Expr.evaluate] at h
      obtain ⟨_, -, h⟩ := exists_of_bind_eq_ok h
      obtain ⟨b, -, h⟩ := exists_of_bind_eq_ok h
      split at h
      · exact ih ifTrue (.tail _ (.head _)) v h
      · exact ih ifFalse (.tail _ (.tail _ (.head _))) v h
    | convert operand type =>
      rw [Expr.evaluate] at h
      obtain ⟨w, hw, h⟩ := exists_of_bind_eq_ok h
      -- A conversion keeps the value or makes a number.
      rcases Value.eq_or_atomic_of_cast h with rfl | hatomic
      · exact ih operand (.head _) v hw
      · exact hatomic.representable
    -- A function is not evaluated.
    | lambda params body =>
      rw [Expr.evaluate] at h
      cases h

/-- The values of all expressions inside a `Representable` one are representable. -/
theorem Representable.evaluates {e : Expr} (he : e.Representable) :
    e.Evaluates Value.Representable :=
  he.imp_everywhere fun _ h => Representable.evaluate h

end Expr

end DocQuery
