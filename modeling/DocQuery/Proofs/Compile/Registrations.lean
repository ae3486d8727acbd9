import Mathlib.Data.List.Induction
import DocQuery.Compile.Registry
import DocQuery.Proofs.Members

/-!
# Histories of registrations

The answers of a registry are read off the registrations that were made: of those for one operator
and the same operands the latest counts, and an operator without one is served by those that have
the dynamic key in the place of an operand. There is no third step for binary operators: what is
registered for two dynamic operands serves only where one operand is dynamic itself.

## Key results

- `Registry.addAll_eq_latest`: an answer that every registration decides is decided by the latest
- `Registry.lookup_latest`: which registration serves an operator
- `Registry.not_lookup_doubleWildcard`: one for all operands of a binary operator may serve none
-/

namespace DocQuery

/-- A registration, one constructor for each of the methods by which a registry is filled. -/
inductive Registration where
  | binary (left right : TypeKey) (op : BinaryOp) (o : Override)
  | unary (operand : TypeKey) (op : UnaryOp) (o : Override)
  | member (owner : TypeKey) (name : String) (o : Override)
  | method (owner : TypeKey) (name : String) (o : Override)
  | constructor (type : TypeKey) (name : String) (o : Override)
  | constructorTemplate (type : TypeKey) (name : String) (t : Template)
  | template (owner : TypeKey) (name : String) (arg : Option TypeKey) (t : Template)

namespace Registration

/-- The override that the registration gives a binary operator for the operands, if it is one of
    those. -/
def forBinary? (op : BinaryOp) (operands : TypeKey × TypeKey) : Registration → Option Override
  | binary left right op' o => if (left, right) = operands ∧ op' = op then some o else none
  | _ => none

/-- The override that the registration gives a unary operator for the operand, if it is one of
    those. -/
def forUnary? (op : UnaryOp) (operand : TypeKey) : Registration → Option Override
  | unary operand' op' o => if operand' = operand ∧ op' = op then some o else none
  | _ => none

/-- What `forBinary?` finds tells the registration. -/
theorem forBinary?_eq_some_iff {op : BinaryOp} {operands : TypeKey × TypeKey}
    {reg : Registration} {o : Override} : reg.forBinary? op operands = some o ↔
      reg = .binary operands.1 operands.2 op o := by
  cases reg with
  | binary left right op' o' =>
    rw [forBinary?, Option.ite_none_right_eq_some]
    simp [Prod.ext_iff, and_assoc]
  | _ => simp [forBinary?]

/-- What `forUnary?` finds tells the registration. -/
theorem forUnary?_eq_some_iff {op : UnaryOp} {operand : TypeKey} {reg : Registration}
    {o : Override} : reg.forUnary? op operand = some o ↔ reg = .unary operand op o := by
  cases reg with
  | unary operand' op' o' =>
    rw [forUnary?, Option.ite_none_right_eq_some]
    simp [and_assoc]
  | _ => simp [forUnary?]

/-- What `found?` gives for the latest registration for which it gives anything. -/
def latest (found? : Registration → Option Override) (history : List Registration) :
    Option Override :=
  history.reverse.findSome? found?

/-- One more registration comes before all others in `latest`. -/
theorem latest_append_singleton (found? : Registration → Option Override)
    (history : List Registration) (reg : Registration) :
    latest found? (history ++ [reg]) = (found? reg).or (latest found? history) := by
  rw [latest, List.reverse_append, List.findSome?_append]
  cases h : found? reg <;> simp [latest, h]

/-- Where `found?` gives something for registrations of one `form` only, `latest` gives nothing
    without one of them. -/
theorem latest_eq_none_iff {found? : Registration → Option Override}
    {form : Override → Registration} (hform : ∀ reg o, found? reg = some o ↔ reg = form o)
    {history : List Registration} :
    latest found? history = none ↔ ∀ o, form o ∉ history := by
  -- No entry of the history is found, and entries found are those of the form.
  rw [latest, List.findSome?_eq_none_iff]
  simp only [List.mem_reverse]
  constructor
  · intro h o hmem
    have hfound : found? (form o) = some o := (hform _ o).mpr rfl
    rw [h _ hmem] at hfound
    cases hfound
  · intro h reg hmem
    refine Option.eq_none_iff_forall_ne_some.mpr fun o hfound => h o ?_
    exact (hform reg o).mp hfound ▸ hmem

/-- The latest override that was registered for a binary operator, by `forBinary?`. -/
def latestBinary (history : List Registration) (op : BinaryOp) (operands : TypeKey × TypeKey) :
    Option Override :=
  latest (forBinary? op operands) history

/-- The latest override that was registered for a unary operator, by `forUnary?`. -/
def latestUnary (history : List Registration) (op : UnaryOp) (operand : TypeKey) :
    Option Override :=
  latest (forUnary? op operand) history

/-- There is no `latestBinary` where nothing was registered for the operator and the operands. -/
theorem latestBinary_eq_none_iff {history : List Registration} {op : BinaryOp}
    {operands : TypeKey × TypeKey} : latestBinary history op operands = none ↔
      ∀ o, .binary operands.1 operands.2 op o ∉ history :=
  latest_eq_none_iff fun _ _ => forBinary?_eq_some_iff

theorem latestUnary_eq_none_iff {history : List Registration} {op : UnaryOp} {operand : TypeKey} :
    latestUnary history op operand = none ↔ ∀ o, .unary operand op o ∉ history :=
  latest_eq_none_iff fun _ _ => forUnary?_eq_some_iff

end Registration

namespace Registry

open Registration (latest latestBinary latestUnary)

/-- Makes a registration, by the method of its constructor. -/
def add (r : Registry) : Registration → Registry
  | .binary left right op o => r.addBinary left right op o
  | .unary operand op o => r.addUnary operand op o
  | .member owner name o => r.addMember owner name o
  | .method owner name o => r.addMethod owner name o
  | .constructor type name o => r.addConstructor type name o
  | .constructorTemplate type name t => r.addConstructorTemplate type name t
  | .template owner name arg t => r.addTemplate owner name arg t

/-- Makes registrations one after the other. -/
def addAll (r : Registry) (history : List Registration) : Registry := history.foldl add r

/-- A binary operator gets what is registered for it by `add`; no other registration changes it. -/
theorem get?_binary_add (left right : TypeKey) (op : BinaryOp) (r : Registry)
    (reg : Registration) :
    Members.get? ⟨left, right, op⟩ (r.add reg).binary =
      (reg.forBinary? op (left, right)).or (Members.get? ⟨left, right, op⟩ r.binary) := by
  cases reg with
  | binary left' right' op' o =>
    show Members.get? _ (Members.set ⟨left', right', op'⟩ o r.binary) = _
    rw [Members.get?_set, Registration.forBinary?]
    -- Two keys are the same where operator and both operands are.
    simp only [BinaryKey.mk.injEq, Prod.mk.injEq, and_assoc]
    split <;> rfl
  | _ => rfl

/-- A unary operator gets what is registered for it by `add`; no other registration changes it. -/
theorem get?_unary_add (operand : TypeKey) (op : UnaryOp) (r : Registry) (reg : Registration) :
    Members.get? ⟨operand, op⟩ (r.add reg).unary =
      (reg.forUnary? op operand).or (Members.get? ⟨operand, op⟩ r.unary) := by
  -- Only an override of a unary operator changes these entries.
  cases reg with
  | unary operand' op' o =>
    show Members.get? _ (Members.set ⟨operand', op'⟩ o r.unary) = _
    rw [Members.get?_set, Registration.forUnary?]
    simp only [UnaryKey.mk.injEq]
    split <;> rfl
  | _ => rfl

/-- Where a registration decides an `answer` or leaves it as it is, a history decides it by the
    `latest` registration that does. -/
theorem addAll_eq_latest (answer : Registry → Option Override)
    (found? : Registration → Option Override)
    (hstep : ∀ r reg, answer (r.add reg) = (found? reg).or (answer r)) (r : Registry)
    (history : List Registration) :
    answer (r.addAll history) = (latest found? history).or (answer r) := by
  -- The latest registration counts first, so the history is taken apart at its end.
  induction history using List.reverseRecOn with
  | nil => rfl
  | append_singleton history reg ih =>
    have hlast : r.addAll (history ++ [reg]) = (r.addAll history).add reg := by
      rw [addAll, List.foldl_append]
      rfl
    rw [hlast, hstep, ih, Registration.latest_append_singleton, Option.or_assoc]

/-! ## Lookups of operators -/

/-- The keys that a binary operator is looked up under, the most specific ones first. -/
def servingKeys (left right : TypeKey) : List (TypeKey × TypeKey) :=
  [(left, right), (left, .dynamic), (.dynamic, right)]

/-- The keys that would serve a binary operator if each operand could be left open by itself. -/
def wildcardKeys (left right : TypeKey) : List (TypeKey × TypeKey) :=
  servingKeys left right ++ [(.dynamic, .dynamic)]

/-- A binary operator is served by the latest registration under the first of its `servingKeys` that
    have one. -/
theorem binary?_addAll (history : List Registration) (left right : TypeKey) (op : BinaryOp) :
    (empty.addAll history).binary? left right op =
      (servingKeys left right).findSome? (latestBinary history op) := by
  have hget (left right : TypeKey) :
      Members.get? ⟨left, right, op⟩ (empty.addAll history).binary =
        latestBinary history op (left, right) :=
    (addAll_eq_latest (fun r => Members.get? ⟨left, right, op⟩ r.binary) _
      (get?_binary_add left right op) empty history).trans Option.or_none
  -- The lookup tries the three keys in a row, which is what `findSome?` does with the list.
  rw [binary?, hget, hget, hget, servingKeys, List.findSome?_cons, List.findSome?_cons]
  cases latestBinary history op (left, right) with
  | some o => rfl
  | none => cases latestBinary history op (left, .dynamic) <;> simp

example : (empty.addAll [.binary .list .dynamic .index (.nodeOf .nth)]).binary? .list (.int .i32)
    .index = some (.nodeOf .nth) := rfl

/-- A unary operator is served by the latest registration for its operand or for all operands. -/
theorem unary?_addAll (history : List Registration) (operand : TypeKey) (op : UnaryOp) :
    (empty.addAll history).unary? operand op =
      [operand, .dynamic].findSome? (latestUnary history op) := by
  have hget (operand : TypeKey) : Members.get? ⟨operand, op⟩ (empty.addAll history).unary =
      latestUnary history op operand :=
    (addAll_eq_latest (fun r => Members.get? ⟨operand, op⟩ r.unary) _
      (get?_unary_add operand op) empty history).trans Option.or_none
  rw [unary?, hget, hget, List.findSome?_cons]
  cases latestUnary history op operand <;> simp

/-- An operator is not served where nothing is registered under its `operands`. -/
theorem findSome?_latestBinary_eq_none_iff {history : List Registration} {op : BinaryOp}
    {operands : List (TypeKey × TypeKey)} :
    operands.findSome? (latestBinary history op) = none ↔
      ∀ keys ∈ operands, ∀ o, .binary keys.1 keys.2 op o ∉ history := by
  rw [List.findSome?_eq_none_iff]
  simp only [Registration.latestBinary_eq_none_iff]

/-- Two dynamic keys add nothing to `servingKeys` where more specific keys serve or where nothing is
    registered under them; where one operand is dynamic, they are among the more specific keys. -/
theorem findSome?_servingKeys_eq_iff (history : List Registration) (left right : TypeKey)
    (op : BinaryOp) :
    (servingKeys left right).findSome? (latestBinary history op) =
        (wildcardKeys left right).findSome? (latestBinary history op) ↔
      left = .dynamic ∨ right = .dynamic ∨
        (∃ keys ∈ servingKeys left right, ∃ o, .binary keys.1 keys.2 op o ∈ history) ∨
        ∀ o, .binary .dynamic .dynamic op o ∉ history := by
  have hserved : (∃ keys ∈ servingKeys left right, ∃ o, .binary keys.1 keys.2 op o ∈ history) ↔
      (servingKeys left right).findSome? (latestBinary history op) ≠ none := by
    rw [Ne, findSome?_latestBinary_eq_none_iff]
    push Not
    rfl
  have hopen : latestBinary history op (.dynamic, .dynamic) = none ↔
      ∀ o, .binary .dynamic .dynamic op o ∉ history := Registration.latestBinary_eq_none_iff
  rw [hserved, ← hopen, wildcardKeys, List.findSome?_append, List.findSome?_singleton]
  cases h : (servingKeys left right).findSome? (latestBinary history op) with
  -- An operator that is served already never comes to the last pair of keys.
  | some o => simp
  | none =>
    -- The keys of a dynamic operand with an open one are both dynamic.
    have hnone := List.findSome?_eq_none_iff.mp h
    simp only [servingKeys, List.mem_cons, List.not_mem_nil, or_false, forall_eq_or_imp,
      forall_eq] at hnone
    obtain ⟨-, hleft, hright⟩ := hnone
    constructor
    · intro hsame
      exact .inr (.inr (.inr hsame.symm))
    · rintro (rfl | rfl | hsome | hunregistered)
      · exact hleft.symm
      · exact hright.symm
      · exact absurd rfl hsome
      · exact hunregistered.symm

/-- A binary operator is served by the latest override registered under the most specific of its
    `servingKeys`, three pairs of keys: those of its operands, that of the left one with an open
    right one, and the other way round; it has none exactly where none of them is registered. What
    is registered for two open operands, as `wildcardKeys` would have it, is left out exactly where
    it would be needed: no operand is dynamic and none of the three pairs is registered. A unary
    operator is served by the latest override for its operand, else by the latest one for all
    operands. -/
theorem lookup_latest (history : List Registration) :
    (∀ left right op,
      (empty.addAll history).binary? left right op =
          (servingKeys left right).findSome? (latestBinary history op) ∧
        ((empty.addAll history).binary? left right op = none ↔
          ∀ keys ∈ servingKeys left right, ∀ o, .binary keys.1 keys.2 op o ∉ history) ∧
        ((empty.addAll history).binary? left right op =
            (wildcardKeys left right).findSome? (latestBinary history op) ↔
          left = .dynamic ∨ right = .dynamic ∨
            (∃ keys ∈ servingKeys left right, ∃ o, .binary keys.1 keys.2 op o ∈ history) ∨
            ∀ o, .binary .dynamic .dynamic op o ∉ history)) ∧
      ∀ operand op,
        (empty.addAll history).unary? operand op =
            [operand, .dynamic].findSome? (latestUnary history op) ∧
          ((empty.addAll history).unary? operand op = none ↔
            ∀ key ∈ [operand, .dynamic], ∀ o, .unary key op o ∉ history) := by
  refine ⟨fun left right op => ?_, fun operand op => ?_⟩
  · rw [binary?_addAll]
    exact ⟨rfl, findSome?_latestBinary_eq_none_iff,
      findSome?_servingKeys_eq_iff history left right op⟩
  · refine ⟨unary?_addAll history operand op, ?_⟩
    rw [unary?_addAll, List.findSome?_eq_none_iff]
    simp only [Registration.latestUnary_eq_none_iff]

/-- An override for two open operands does not serve the sum of two numbers, although it is among
    the `wildcardKeys`. -/
theorem not_lookup_doubleWildcard : ¬ ∀ (history : List Registration) (left right : TypeKey)
    (op : BinaryOp), (empty.addAll history).binary? left right op =
      (wildcardKeys left right).findSome? (latestBinary history op) := by
  intro h
  -- The one rule is for the dynamic type on both sides, and the operands are integers.
  have hsum := h [.binary .dynamic .dynamic .add (.nodeOf .add)] (.int .i32) (.int .i32) .add
  have hunserved : (empty.addAll [.binary .dynamic .dynamic .add (.nodeOf .add)]).binary?
      (.int .i32) (.int .i32) .add = none := rfl
  have hopen : (wildcardKeys (.int .i32) (.int .i32)).findSome?
      (latestBinary [.binary .dynamic .dynamic .add (.nodeOf .add)] .add) =
        some (.nodeOf .add) := rfl
  rw [hunserved, hopen] at hsum
  cases hsum

end Registry

end DocQuery
