import DocQuery.Compile.Template
import DocQuery.Proofs.Members
import DocQuery.Proofs.Sequence

/-!
# Templates that are filled in

A template says in three ways what it needs: its arity counts the arguments, `usesTarget` asks for
the target, and filling it in fails where something is missing. All three are read off its places.
The filled in template has its form, with terms in its places; an option whose name comes up again
stands once. Where something is missing, the error names it.

An arity is a word as positions are. It counts every argument unless one stands at the last
position that a word can name: then it starts over at zero.

## Key results

- `Template.usesTarget_iff`, `Template.arity_le_iff`: what the places say about the two counts
- `Template.instantiate_eq_ok_iff`: a template is filled in exactly where every place has a term
- `Template.missing_of_instantiate`: the error says what is missing
- `Template.instantiate_complete`: all of it together
- `Template.not_instantiate_within_arity`: the last position is not counted
-/

namespace DocQuery.Template

open Sequence (bind_bind_eq_ok_iff error_of_bind_bind)

/-! ## Places -/

mutual

/-- The places of a template: an argument by its number, or the target. -/
def places : Template → List (Option Nat)
  | target => [none]
  | argument position => [some position.toNat]
  | literal _ => []
  | node _ args options => placesOfArgs args ++ placesOfOptions options

def placesOfArgs : List Template → List (Option Nat)
  | [] => []
  | t :: rest => places t ++ placesOfArgs rest

def placesOfOptions : List (String × Template) → List (Option Nat)
  | [] => []
  | (_, t) :: rest => places t ++ placesOfOptions rest

end

mutual

/-- `usesTarget` asks whether the target is among the `places`. -/
theorem usesTarget_iff : ∀ t : Template, t.usesTarget = true ↔ none ∈ t.places
  | .target => by simp [usesTarget, places]
  | .argument position => by simp [usesTarget, places]
  | .literal datum => by simp [usesTarget, places]
  | .node kind args options => by
    rw [usesTarget, places, Bool.or_eq_true, List.mem_append, anyUsesTarget_iff args,
      anyOptionUsesTarget_iff options]

/-- `anyUsesTarget` is `usesTarget_iff` for the arguments of a node. -/
theorem anyUsesTarget_iff : ∀ ts : List Template, anyUsesTarget ts = true ↔ none ∈ placesOfArgs ts
  | [] => by simp [anyUsesTarget, placesOfArgs]
  | t :: rest => by
    rw [anyUsesTarget, placesOfArgs, Bool.or_eq_true, List.mem_append, usesTarget_iff t,
      anyUsesTarget_iff rest]

/-- `anyOptionUsesTarget` is `usesTarget_iff` for the options of a node. -/
theorem anyOptionUsesTarget_iff : ∀ options : List (String × Template),
    anyOptionUsesTarget options = true ↔ none ∈ placesOfOptions options
  | [] => by simp [anyOptionUsesTarget, placesOfOptions]
  | (name, t) :: rest => by
    rw [anyOptionUsesTarget, placesOfOptions, Bool.or_eq_true, List.mem_append, usesTarget_iff t,
      anyOptionUsesTarget_iff rest]

end

/-- All arguments among the places stand before the position `bound`. -/
def Within (bound : Nat) (places : List (Option Nat)) : Prop :=
  ∀ index, some index ∈ places → index < bound

theorem within_append {bound : Nat} {places places' : List (Option Nat)} :
    Within bound (places ++ places') ↔ Within bound places ∧ Within bound places' := by
  simp only [Within, List.mem_append, or_imp, forall_and]

/-- Below the last position one more than a position is no smaller than it as a word either. -/
theorem toNat_add_one {position : UInt64} (h : position.toNat + 1 < UInt64.size) :
    (position + 1).toNat = position.toNat + 1 := by
  rw [UInt64.toNat_add]
  exact Nat.mod_eq_of_lt h

mutual

/-- `arity` is the least bound that all arguments are `Within`, as long as none stands at the last
    position. -/
theorem arity_le_iff {count : Nat} : ∀ t : Template, Within (UInt64.size - 1) t.places →
    (t.arity ≤ count ↔ Within count t.places)
  | .target, _ => by simp [arity, places, Within]
  | .argument position, h => by
    -- Without the bound the sum could be zero, which is at most any count.
    have hlast : position.toNat + 1 < UInt64.size :=
      Nat.add_lt_of_lt_sub (h position.toNat (List.mem_singleton_self _))
    rw [arity, toNat_add_one hlast, Nat.succ_le_iff]
    simp [places, Within]
  | .literal datum, _ => by simp [arity, places, Within]
  | .node kind args options, h => by
    obtain ⟨hargs, hoptions⟩ := within_append.mp h
    rw [arity, places, Nat.max_le, within_append, arityOf_le_iff args hargs,
      arityOfOptions_le_iff options hoptions]

/-- `arityOf` is the least such bound for the arguments of a node. -/
theorem arityOf_le_iff {count : Nat} : ∀ ts : List Template,
    Within (UInt64.size - 1) (placesOfArgs ts) →
      (arityOf ts ≤ count ↔ Within count (placesOfArgs ts))
  | [], _ => by simp [arityOf, placesOfArgs, Within]
  | t :: rest, h => by
    obtain ⟨ht, hrest⟩ := within_append.mp h
    rw [arityOf, placesOfArgs, Nat.max_le, within_append, arity_le_iff t ht,
      arityOf_le_iff rest hrest]

/-- `arityOfOptions` is the least such bound for the options of a node. -/
theorem arityOfOptions_le_iff {count : Nat} : ∀ options : List (String × Template),
    Within (UInt64.size - 1) (placesOfOptions options) →
      (arityOfOptions options ≤ count ↔ Within count (placesOfOptions options))
  | [], _ => by simp [arityOfOptions, placesOfOptions, Within]
  | (name, t) :: rest, h => by
    obtain ⟨ht, hrest⟩ := within_append.mp h
    rw [arityOfOptions, placesOfOptions, Nat.max_le, within_append, arity_le_iff t ht,
      arityOfOptions_le_iff rest hrest]

end

/-! ## The filled in template -/

mutual

/-- The template with a term in the place of the target and a term in the place of each argument. -/
def fill (target : Term) (arg : Nat → Term) : Template → Term
  | .target => target
  | .argument position => arg position.toNat
  | .literal datum => .literal datum
  | .node kind args options =>
    .mk kind (fillArgs target arg args) (Members.merged (fillOptions target arg options)) none

def fillArgs (target : Term) (arg : Nat → Term) : List Template → List Term
  | [] => []
  | t :: rest => fill target arg t :: fillArgs target arg rest

def fillOptions (target : Term) (arg : Nat → Term) :
    List (String × Template) → List (String × Term)
  | [] => []
  | (name, t) :: rest => (name, fill target arg t) :: fillOptions target arg rest

end

/-- What stands at a place once the template is filled in. -/
def filler (receiver : Option Term) (args : List Term) : Option Nat → Option Term
  | none => receiver
  | some index => args[index]?

variable {receiver : Option Term} {args : List Term}

/-- Every place has its `filler`. -/
def Supplied (receiver : Option Term) (args : List Term) (places : List (Option Nat)) : Prop :=
  ∀ place ∈ places, (filler receiver args place).isSome = true

/-- Places are `Supplied` where the arguments go on to the last one and a target is given if it is
    among them. -/
theorem supplied_iff {places : List (Option Nat)} :
    Supplied receiver args places ↔
      Within args.length places ∧ (none ∈ places → receiver.isSome = true) := by
  constructor
  · -- A place is supplied where its filler is there: the target or the argument.
    intro h
    refine ⟨fun index hindex => ?_, fun htarget => h none htarget⟩
    simpa [filler] using h (some index) hindex
  · rintro ⟨hargs, htarget⟩ place hplace
    cases place with
    | none => exact htarget hplace
    | some index => simpa [filler] using hargs index hplace

mutual

/-- `instantiate` succeeds exactly where the `places` are `Supplied`, and then gives what `fill`
    does. The term `other` would stand for what is not given, so any will do. -/
theorem instantiate_eq_ok_iff (other : Term) : ∀ (t : Template) {term : Term},
    t.instantiate receiver args = .ok term ↔ Supplied receiver args t.places ∧
      t.fill (receiver.getD other) (fun index => args.getD index other) = term
  | .target, term => by
    rw [places, fill]
    cases receiver <;> simp [instantiate, Supplied, filler]
  | .argument position, term => by
    rw [places, fill, instantiate, List.getD_eq_getElem?_getD]
    by_cases hindex : position.toNat < args.length <;> simp [Supplied, filler, hindex]
  | .literal datum, term => by
    rw [instantiate, places, fill, Except.ok.injEq]
    exact (and_iff_right (List.forall_mem_nil _)).symm
  | .node kind children options, term => by
    rw [places, Supplied, List.forall_mem_append, fill, ← Members.ofList_eq_merged]
    -- The parts are filled in one after the other, and only then are names merged.
    exact bind_bind_eq_ok_iff (instantiateAll_eq_ok_iff other children)
      (instantiateOptions_eq_ok_iff other options)
      fun terms members => Term.mk kind terms (Members.ofList members) none

/-- `instantiateAll` does so for the arguments of a node. -/
theorem instantiateAll_eq_ok_iff (other : Term) : ∀ (ts : List Template) {terms : List Term},
    instantiateAll receiver args ts = .ok terms ↔ Supplied receiver args (placesOfArgs ts) ∧
      fillArgs (receiver.getD other) (fun index => args.getD index other) ts = terms
  | [], terms => by
    rw [instantiateAll, placesOfArgs, fillArgs, Except.ok.injEq]
    exact (and_iff_right (List.forall_mem_nil _)).symm
  | t :: rest, terms => by
    rw [placesOfArgs, Supplied, List.forall_mem_append, fillArgs]
    exact bind_bind_eq_ok_iff (instantiate_eq_ok_iff other t)
      (instantiateAll_eq_ok_iff other rest) List.cons

/-- `instantiateOptions` does so for the options of a node. -/
theorem instantiateOptions_eq_ok_iff (other : Term) :
    ∀ (options : List (String × Template)) {members : List (String × Term)},
    instantiateOptions receiver args options = .ok members ↔
      Supplied receiver args (placesOfOptions options) ∧
        fillOptions (receiver.getD other) (fun index => args.getD index other) options = members
  | [], members => by
    rw [instantiateOptions, placesOfOptions, fillOptions, Except.ok.injEq]
    exact (and_iff_right (List.forall_mem_nil _)).symm
  | (name, t) :: rest, members => by
    rw [placesOfOptions, Supplied, List.forall_mem_append, fillOptions]
    exact bind_bind_eq_ok_iff (instantiate_eq_ok_iff other t)
      (instantiateOptions_eq_ok_iff other rest) fun term members => (name, term) :: members

end

/-! ## What is missing -/

/-- The error says that there is no target, or which argument is not among those given. -/
def Missing (receiver : Option Term) (args : List Term) (places : List (Option Nat)) (e : Error) :
    Prop :=
  (none ∈ places ∧ receiver = none ∧ e = .compilation .templateTarget) ∨
    ∃ index, some index ∈ places ∧ args.length ≤ index ∧
      e = .compilation (.templateArgument index args.length)

/-- What is `Missing` for some places is missing for more places. -/
theorem Missing.mono {places places' : List (Option Nat)} {e : Error}
    (h : Missing receiver args places e) (hsubset : places ⊆ places') :
    Missing receiver args places' e := by
  rcases h with ⟨htarget, h⟩ | ⟨index, hindex, h⟩
  · exact .inl ⟨hsubset htarget, h⟩
  · exact .inr ⟨index, hsubset hindex, h⟩

/-- What is `Missing` for one of two parts is missing for both together. -/
theorem Missing.append {places places' : List (Option Nat)} {e : Error}
    (h : Missing receiver args places e ∨ Missing receiver args places' e) :
    Missing receiver args (places ++ places') e :=
  h.elim (fun h => h.mono (List.subset_append_left ..))
    fun h => h.mono (List.subset_append_right ..)

mutual

/-- The error of `instantiate` says what is `Missing`. -/
theorem missing_of_instantiate : ∀ (t : Template) {e : Error},
    t.instantiate receiver args = .error e → Missing receiver args t.places e
  | .target, e, h => by
    cases receiver with
    | none => exact .inl ⟨List.mem_singleton_self _, rfl, (Except.error.inj h).symm⟩
    | some t => cases h
  | .argument position, e, h => by
    unfold instantiate at h
    split at h
    · cases h
    · rename_i hnone
      have hindex := List.getElem?_eq_none_iff.mp hnone
      exact .inr ⟨_, List.mem_singleton_self _, hindex, (Except.error.inj h).symm⟩
  | .literal datum, e, h => by cases h
  | .node kind children options, e, h => by
    -- The arguments come first, so an option is only looked at where they are complete.
    have herror := error_of_bind_bind
      (fun terms members => Term.mk kind terms (Members.ofList members) none) h
    exact .append (herror.imp (missing_of_instantiateAll children)
      (missing_of_instantiateOptions options))

/-- The error of `instantiateAll` says what is `Missing` for the arguments of a node. -/
theorem missing_of_instantiateAll : ∀ (ts : List Template) {e : Error},
    instantiateAll receiver args ts = .error e → Missing receiver args (placesOfArgs ts) e
  | [], e, h => by cases h
  | t :: rest, e, h => by
    have herror := error_of_bind_bind List.cons h
    exact .append (herror.imp (missing_of_instantiate t) (missing_of_instantiateAll rest))

/-- The error of `instantiateOptions` says what is `Missing` for the options of a node. -/
theorem missing_of_instantiateOptions : ∀ (options : List (String × Template)) {e : Error},
    instantiateOptions receiver args options = .error e →
      Missing receiver args (placesOfOptions options) e
  | [], e, h => by cases h
  | (name, t) :: rest, e, h => by
    have herror := error_of_bind_bind (fun term members => (name, term) :: members) h
    exact .append (herror.imp (missing_of_instantiate t) (missing_of_instantiateOptions rest))

end

/-- Unless an argument stands at the last position, `instantiate` succeeds exactly where the
    arguments go up to the `arity` and a target is given if `usesTarget` asks for one. In any case
    the term is that of `fill`: it has the form of the template, with what is given in its places,
    whatever stood for the rest, and of options with one name the first place and the last value are
    kept. An error names the target or the argument that is missing. -/
theorem instantiate_complete (t : Template) (receiver : Option Term) (args : List Term) :
    ((∀ index, some index ∈ t.places → index + 1 < UInt64.size) →
        ((∃ term, t.instantiate receiver args = .ok term) ↔
          t.arity ≤ args.length ∧ (t.usesTarget = true → receiver.isSome = true))) ∧
      (∀ term, t.instantiate receiver args = .ok term → ∀ other,
        term = t.fill (receiver.getD other) fun index => args.getD index other) ∧
      ∀ e, t.instantiate receiver args = .error e →
        (none ∈ t.places ∧ receiver = none ∧ e = .compilation .templateTarget) ∨
          ∃ index, some index ∈ t.places ∧ args.length ≤ index ∧
            e = .compilation (.templateArgument index args.length) := by
  refine ⟨fun hpositions => ?_, fun term hterm other => ?_, fun e he => missing_of_instantiate t he⟩
  · -- Below the last position the arity does not wrap, so it can be compared as a number.
    have hwithin : Within (UInt64.size - 1) t.places :=
      fun index hindex => Nat.lt_sub_of_add_lt (hpositions index hindex)
    rw [arity_le_iff t hwithin, usesTarget_iff, ← supplied_iff]
    constructor
    · rintro ⟨term, hterm⟩
      exact ((instantiate_eq_ok_iff default t).mp hterm).1
    · exact fun hsupplied => ⟨_, (instantiate_eq_ok_iff default t).mpr ⟨hsupplied, rfl⟩⟩
  · -- What the target stands for does not matter to a template without one.
    exact ((instantiate_eq_ok_iff other t).mp hterm).2.symm

/-- A slice up to and with its end. -/
def closedSlice : Template :=
  node .slice [target, arg 0, arg 1] [("right_bound", .literal (.string "closed"))]

/-- A `closedSlice` of `VAR(1)` is filled in with two arguments. -/
theorem instantiate_complete_closedSlice :
    (∀ index, some index ∈ closedSlice.places → index + 1 < UInt64.size) ∧
      ∃ term, closedSlice.instantiate (some (.var 1)) [.literal .null, .literal .null] =
        .ok term := by
  have hpositions : ∀ index, some index ∈ closedSlice.places → index + 1 < UInt64.size := by
    intro index hindex
    -- The positions of the template are zero and one.
    have hplaces : closedSlice.places = [none, some 0, some 1] := rfl
    rw [hplaces] at hindex
    simp only [List.mem_cons, reduceCtorEq, Option.some.injEq, List.not_mem_nil, or_false,
      false_or] at hindex
    rcases hindex with rfl | rfl <;> decide
  exact ⟨hpositions, ((instantiate_complete closedSlice _ _).1 hpositions).mpr
    ⟨by decide, fun _ => rfl⟩⟩

/-- The argument at the last position makes the `arity` zero, so no argument seems to be missing;
    but there is none to fill it in with. -/
theorem not_instantiate_within_arity :
    ¬((∃ term, (argument 18446744073709551615).instantiate none [] = .ok term) ↔
      (argument 18446744073709551615).arity ≤ ([] : List Term).length ∧
        ((argument 18446744073709551615).usesTarget = true →
          (none : Option Term).isSome = true)) := by
  intro h
  obtain ⟨term, hterm⟩ := h.mpr ⟨by decide, fun huses => by cases huses⟩
  cases hterm

/-- An option whose name comes up again takes the later value. -/
example : (node .orderBy [.target] [("index", .literal .null), ("index", .arg 0)]).instantiate
    (some (.var 1)) [.literal (.string "age")] =
      .ok (.mk .orderBy [.var 1] [("index", .literal (.string "age"))] none) := rfl

end DocQuery.Template
