import DocQuery.Compile.Compiler
import DocQuery.Proofs.Codec.Ensures
import DocQuery.Proofs.Compile.Scope
import DocQuery.Proofs.Sequence
import DocQuery.Proofs.Term.Slots

/-!
# What the steps of a compilation emit

A step of a compilation starts with terms that were compiled before it and ends with terms in which
those are used at most once. Whether or not it fails, it leaves the bindings of the scope as they
were, it hands out no more slots than it has parameters to bind, and it keeps an invariant of the
converters built so far. Steps with these properties are composed as the steps are.

## Key results

- `Lowering.Emits.bind`, `Lowering.Emits.frame`: composition, and terms that a step does not touch
- `Lowering.compileFunction_emits`: a function takes its slots before those of its body
- `Compiler.operandTerms_emits`: operands one after the other
-/

namespace DocQuery

namespace CompileState

/-- The slots in scope. -/
def slots (state : CompileState) : List Nat := state.scope.bindings.map Prod.snd

/-- The bindings are as before, at most `count` slots were handed out, and the invariant holds of
    the converters. -/
structure Balanced (inv : ConverterCache → Prop) (before : CompileState) (count : Nat)
    (after : CompileState) : Prop where
  bindings : after.scope.bindings = before.scope.bindings
  nextSlot_le : before.scope.nextSlot ≤ after.scope.nextSlot
  le_add : after.scope.nextSlot ≤ before.scope.nextSlot + count
  cache : inv after.cache

namespace Balanced

variable {inv : ConverterCache → Prop} {first second third : CompileState} {m n : Nat}

/-- A state with the same scope is `Balanced` for any number of slots, if its converters are as they
    should be. -/
theorem of_scope_eq (h : second.scope = first.scope) (hcache : inv second.cache) (n : Nat) :
    first.Balanced inv n second :=
  ⟨congrArg Scope.bindings h, (congrArg Scope.nextSlot h).ge, h ▸ Nat.le_add_right .., hcache⟩

/-- One after the other, balanced states hand out as many slots as both together. -/
theorem trans (h : first.Balanced inv m second) (h' : second.Balanced inv n third) :
    first.Balanced inv (m + n) third := by
  refine ⟨h'.bindings.trans h.bindings, h.nextSlot_le.trans h'.nextSlot_le, ?_, h'.cache⟩
  have := h.le_add
  have := h'.le_add
  omega

/-- A greater number of slots may be allowed. -/
theorem mono (h : first.Balanced inv m second) (hmn : m ≤ n) : first.Balanced inv n second :=
  ⟨h.bindings, h.nextSlot_le, h.le_add.trans (Nat.add_le_add_left hmn _), h.cache⟩

theorem slots_eq (h : first.Balanced inv m second) : second.slots = first.slots :=
  congrArg (List.map Prod.snd) h.bindings

end Balanced

end CompileState

namespace Term

variable {carried : Datum → Prop} {given terms more : List Term}

/-- Where the `given` terms are emitted, the terms can be built from them, each used at most once.
    Any `rest` may be emitted beside them, which is how terms are kept apart. -/
def Yields (carried : Datum → Prop) (given terms : List Term) : Prop :=
  ∀ bound first last rest, Emitted carried bound first last (given ++ rest) →
    Emitted carried bound first last (terms ++ rest)

namespace Yields

theorem refl (given : List Term) : Yields carried given given := fun _ _ _ _ h => h

/-- Terms may be built in two steps. -/
theorem trans (h : Yields carried given terms) (h' : Yields carried terms more) :
    Yields carried given more := fun _ _ _ _ hgiven => h' _ _ _ _ (h _ _ _ _ hgiven)

/-- Terms may be dropped, and their order may change. -/
theorem of_subperm (h : terms.Subperm given) : Yields carried given terms :=
  fun _ _ _ rest hgiven => hgiven.subperm ((List.subperm_append_right rest).mpr h)

/-- With nothing else beside them, the terms are emitted where the given ones are. -/
theorem emitted (h : Yields carried given terms) {bound : List Nat} {first last : Nat}
    (hgiven : Emitted carried bound first last given) : Emitted carried bound first last terms := by
  have hterms := h bound first last [] (by rwa [List.append_nil])
  rwa [List.append_nil] at hterms

/-- Terms that are not touched stay behind, as in `append` with nothing done to them. -/
theorem append_left (h : Yields carried given terms) (more : List Term) :
    Yields carried (more ++ given) (more ++ terms) := by
  intro bound first last rest hgiven
  -- The rest may hold any terms, so those that stay are put there and taken back.
  have hswap : Emitted carried bound first last (given ++ (more ++ rest)) :=
    hgiven.subperm (by
      rw [← List.append_assoc]
      exact (List.perm_append_comm.append_right rest).subperm)
  apply (h _ _ _ _ hswap).subperm
  rw [← List.append_assoc]
  exact (List.perm_append_comm.append_right rest).subperm

/-- Different parts of what is given yield different terms. -/
theorem append {given' terms' : List Term} (h : Yields carried given terms)
    (h' : Yields carried given' terms') : Yields carried (given ++ given') (terms ++ terms') := by
  intro bound first last rest hgiven
  rw [List.append_assoc] at hgiven
  have hfirst := h _ _ _ _ hgiven
  rw [← List.append_assoc] at hfirst
  exact h'.append_left terms _ _ _ _ hfirst

/-- A `literal` takes nothing of what is given. -/
theorem literal {d : Datum} (hd : carried d) (given : List Term) :
    Yields carried given (given ++ [literal d]) := by
  intro bound first last rest hgiven
  apply (Emitted.literal hd hgiven).subperm
  rw [List.append_assoc, List.singleton_append]
  exact List.perm_middle.subperm

/-- A term is built from its `parts`. -/
theorem node {kind : TermKind} {args : List Term} {options : List (String × Term)}
    (hkind : kind.plain = true) (harray : kind = .makeArray → options = [])
    (hnodup : (options.map Prod.fst).Nodup) :
    Yields carried (mk kind args options none).parts [mk kind args options none] :=
  fun _ _ _ _ hgiven => .node hkind harray hnodup hgiven

/-- A term without options is built from its arguments. -/
theorem args {kind : TermKind} {args : List Term} (hkind : kind.plain = true) :
    Yields carried args [Term.node kind args] := by
  have h : Yields carried (mk kind args [] none).parts [mk kind args [] none] :=
    node hkind (fun _ => rfl) .nil
  have hparts : (mk kind args [] none).parts = args := List.append_nil args
  rwa [hparts] at h

end Yields

end Term

namespace Lowering

variable {α β : Type}

/-! ## Runs -/

/-- After a first step that succeeds the second one runs. -/
theorem run_bind_ok {step : Lowering α} {before after : CompileState} {a : α}
    (h : step.run before = (.ok a, after)) (f : α → Lowering β) :
    run (step >>= f) before = (f a).run after :=
  Sequence.run_bind_of_ok h f

/-- After a first step that fails nothing runs. -/
theorem run_bind_error {step : Lowering α} {before after : CompileState} {e : Error}
    (h : step.run before = (.error e, after)) (f : α → Lowering β) :
    run (step >>= f) before = (.error e, after) :=
  Sequence.run_bind_of_error h f

/-- A step that begins with `get` goes on with the state that it starts from. -/
theorem run_get_bind (f : CompileState → Lowering β) (before : CompileState) :
    run (get >>= f) before = (f before).run before := rfl

/-- Parameters that can be bound change the scope only. -/
theorem run_bind_slots {before : CompileState} {params : List Parameter} {slots : List Nat}
    {inner : Scope} (h : before.scope.bind params = .ok (slots, inner)) :
    (Lowering.bind params).run before = (.ok slots, { before with scope := inner }) := by
  rw [Lowering.bind, run_get_bind, h]
  rfl

/-- Parameters that cannot be bound change nothing, and the error is the one of `Scope.bind`. -/
theorem run_bind_refused {before : CompileState} {params : List Parameter} {e : Error}
    (h : before.scope.bind params = .error e) :
    (Lowering.bind params).run before = (.error e, before) := by
  rw [Lowering.bind, run_get_bind, h]
  rfl

/-- A computation on the converters changes nothing but the cache. -/
theorem run_ofSession (session : Session α) (before : CompileState) :
    (ofSession session).run before =
      ((session.run before.cache).1, { before with cache := (session.run before.cache).2 }) := rfl

/-- A step whose error is kept as a result by `attempt` does not fail. -/
theorem run_attempt (step : Lowering α) (before : CompileState) :
    step.attempt.run before = (.ok (step.run before).1, (step.run before).2) := by
  have hrun : StateT.run (ExceptT.run step) before = step.run before := rfl
  -- Whether the step fails or not, its result is handed on and its state is kept.
  rcases h : step.run before with ⟨e | a, after⟩
  all_goals
    rw [h] at hrun
    simp only [run, attempt, ExceptT.run_tryCatch, ExceptT.run_map, StateT.run_bind,
      StateT.run_map, hrun]
    rfl

/-! ## Steps that emit terms -/

/-- With the `given` terms at hand the step ends with the terms of its result. It leaves the
    bindings as they are and keeps the invariant of the converters, also where it fails, and hands
    out at most `count` slots. -/
def Emits (inv : ConverterCache → Prop) (carried : Datum → Prop) (given : List Term)
    (step : Lowering α) (terms : α → List Term) (count : Nat) : Prop :=
  ∀ before first, inv before.cache →
    Term.Emitted carried before.slots first before.scope.nextSlot given →
    before.Balanced inv count (step.run before).2 ∧
    ∀ a, (step.run before).1 = .ok a →
      Term.Emitted carried before.slots first (step.run before).2.scope.nextSlot (terms a)

namespace Emits

variable {inv : ConverterCache → Prop} {carried : Datum → Prop} {given : List Term}
  {terms : α → List Term} {m n : Nat}

/-- A result whose terms can be built from what is given, by `Yields`. -/
theorem pure {a : α} (h : Term.Yields carried given (terms a)) :
    Emits inv carried given (Pure.pure a) terms 0 := by
  intro before first hinv hgiven
  refine ⟨.of_scope_eq rfl hinv 0, fun a' ha' => ?_⟩
  obtain rfl := Except.ok.inj ha'
  exact h.emitted hgiven

theorem throw (e : Error) : Emits inv carried given (MonadExcept.throw e : Lowering α) terms 0 :=
  fun _ _ hinv _ => ⟨.of_scope_eq rfl hinv 0, fun _ ha => by cases ha⟩

/-- The second step has at hand what the first one ended with, and the slots add up. -/
theorem bind {step : Lowering α} {f : α → Lowering β} {terms' : β → List Term}
    (h : Emits inv carried given step terms m)
    (hf : ∀ a, Emits inv carried (terms a) (f a) terms' n) :
    Emits inv carried given (step >>= f) terms' (m + n) := by
  intro before first hinv hgiven
  obtain ⟨hbalanced, hterms⟩ := h before first hinv hgiven
  rcases hrun : step.run before with ⟨e | a, middle⟩
  · rw [run_bind_error hrun]
    rw [hrun] at hbalanced
    exact ⟨hbalanced.mono (Nat.le_add_right ..), fun _ hb => by cases hb⟩
  · rw [run_bind_ok hrun]
    rw [hrun] at hbalanced hterms
    -- The second step sees the slots in scope that the first one saw.
    have hmiddle := hterms a rfl
    rw [← hbalanced.slots_eq] at hmiddle
    obtain ⟨hbalanced', hterms'⟩ := hf a middle first hbalanced.cache hmiddle
    refine ⟨hbalanced.trans hbalanced', fun b hb => ?_⟩
    have hafter := hterms' b hb
    rwa [hbalanced.slots_eq] at hafter

/-- A step that looks at the state emits what it emits from every state. -/
theorem get_bind {f : CompileState → Lowering α}
    (h : ∀ state, Emits inv carried given (f state) terms m) :
    Emits inv carried given (get >>= f) terms m :=
  fun before first hinv hgiven => h before before first hinv hgiven

/-- A greater number of slots may be allowed. -/
theorem mono {step : Lowering α} (h : Emits inv carried given step terms m) (hmn : m ≤ n) :
    Emits inv carried given step terms n := by
  intro before first hinv hgiven
  obtain ⟨hbalanced, hterms⟩ := h before first hinv hgiven
  exact ⟨hbalanced.mono hmn, hterms⟩

/-- Terms that a step does not touch stay at hand. -/
theorem frame {step : Lowering α} (h : Emits inv carried [] step terms m) (given : List Term) :
    Emits inv carried given step (fun a => given ++ terms a) m := by
  intro before first hinv hgiven
  -- The step runs with nothing at hand, and its terms come after what was there.
  obtain ⟨hbalanced, hterms⟩ := h before before.scope.nextSlot hinv (.nil le_rfl)
  exact ⟨hbalanced, fun a ha => hgiven.append (hterms a ha)⟩

/-- Where errors are kept by `attempt`, what was at hand before is at hand after an error too. -/
theorem attempt {step : Lowering α} (h : Emits inv carried given step terms m) :
    Emits inv carried given step.attempt (fun _ => given) m := by
  intro before first hinv hgiven
  obtain ⟨hbalanced, -⟩ := h before first hinv hgiven
  rw [run_attempt]
  refine ⟨hbalanced, fun _ _ => ?_⟩
  -- Slots that the failed step handed out are not used, and stay retired.
  have hafter := hgiven.append (.nil hbalanced.nextSlot_le)
  rwa [List.append_nil] at hafter

/-- A computation without effects emits what its result yields. -/
theorem ofExcept {result : Except Error α}
    (h : ∀ a, result = .ok a → Term.Yields carried given (terms a)) :
    Emits inv carried given (MonadExcept.ofExcept result) terms 0 := by
  cases result with
  | ok a => exact .pure (h a rfl)
  | error e => exact .throw e

/-- A computation on the converters leaves the scope alone, and keeps the invariant by `Ensures`. -/
theorem ofSession {session : Session α}
    (h : session.Ensures inv fun a => Term.Yields carried given (terms a)) :
    Emits inv carried given (Lowering.ofSession session) terms 0 := by
  intro before first hinv hgiven
  obtain ⟨hafter, hterms⟩ := h before.cache hinv
  have hscope : ((Lowering.ofSession session).run before).2.scope = before.scope := rfl
  exact ⟨.of_scope_eq hscope hafter 0, fun a ha => (hterms a ha).emitted hgiven⟩

end Emits

/-! ## Operands -/

/-- Wherever it is run, the action emits one term and hands out at most `count` slots. -/
def Action.Emits (inv : ConverterCache → Prop) (carried : Datum → Prop) (action : Action)
    (count : Nat) : Prop :=
  ∀ position, Lowering.Emits inv carried [] (action position) (fun t => [t]) count

end Lowering

namespace Compiler

open Lowering (Action)

variable {inv : ConverterCache → Prop} {carried : Datum → Prop}

/-- A target gives its term, where there is one. -/
theorem targetTerm_emits {target : Option Action} {count : Nat}
    (h : ∀ action ∈ target, action.Emits inv carried count) :
    Lowering.Emits inv carried [] (targetTerm target) Option.toList count := by
  cases target with
  | none => exact (Lowering.Emits.pure (.refl [])).mono (Nat.zero_le count)
  | some action => exact (h action rfl .operand).bind fun t => .pure (.refl [t])

/-- Operands give their terms in order, and their slots add up. -/
theorem operandTerms_emits {operands : List Action} {counts : List Nat}
    (h : List.Forall₂ (Action.Emits inv carried) operands counts) (position : Position) :
    Lowering.Emits inv carried [] (operandTerms position operands) id counts.sum := by
  induction h with
  | nil => exact .pure (.refl [])
  | cons hfirst _ ih =>
    rw [List.sum_cons]
    refine (hfirst position).bind fun t => ?_
    -- The first term stays at hand while the others are compiled.
    exact (ih.frame [t]).bind (f := fun ts => Pure.pure (t :: ts)) fun ts => .pure (.refl _)

/-! ## Functions -/

/-- Where the parameters cannot be bound, `compileFunction` fails and nothing happens. -/
theorem run_compileFunction_of_error {before : CompileState} {params : List Parameter} {e : Error}
    (h : before.scope.bind params = .error e) (body : Action) :
    (compileFunction params body).run before = (.error e, before) :=
  Lowering.run_bind_error (Lowering.run_bind_refused h) _

/-- The body is compiled with the parameters in scope, which `unbind` drops again whatever came of
    it. -/
theorem run_compileFunction {before after : CompileState} {params : List Parameter}
    {slots : List Nat} {inner : Scope} {body : Action} {result : Except Error Term}
    (hbind : before.scope.bind params = .ok (slots, inner))
    (hbody : (body .body).run { before with scope := inner } = (result, after)) :
    (compileFunction params body).run before =
      (result.map (Term.func slots), { after with scope := after.scope.unbind params.length }) := by
  -- Errors of the body are kept for later, so the scope is put back in any case.
  have hattempt : (body .body).attempt.run { before with scope := inner } =
      (.ok result, after) := by
    rw [Lowering.run_attempt, hbody]
  have hunbind : (Lowering.unbind params.length).run after =
      (.ok (), { after with scope := after.scope.unbind params.length }) := rfl
  unfold compileFunction
  rw [Lowering.run_bind_ok (Lowering.run_bind_slots hbind), Lowering.run_bind_ok hattempt,
    Lowering.run_bind_ok hunbind]
  cases result with
  | ok t => rfl
  | error e => rfl

/-- A function takes its slots before those of its body, and its parameters are in scope in the body
    only. -/
theorem compileFunction_emits {params : List Parameter} {body : Action} {count : Nat}
    (h : body.Emits inv carried count) :
    Lowering.Emits inv carried [] (compileFunction params body) (fun t => [t])
      (params.length + count) := by
  intro before first hinv hgiven
  rcases hbind : before.scope.bind params with e | ⟨slots, inner⟩
  · -- Nothing was bound, so nothing has to be dropped.
    rw [run_compileFunction_of_error hbind]
    exact ⟨.of_scope_eq rfl hinv _, fun _ ht => by cases ht⟩
  obtain ⟨rfl, hbindings, hnext⟩ := Scope.bind_eq_ok hbind
  obtain ⟨hbalanced, hterms⟩ :=
    h .body { before with scope := inner } inner.nextSlot hinv (.nil le_rfl)
  rcases hbody : (body .body).run { before with scope := inner } with ⟨result, after⟩
  rw [hbody] at hbalanced hterms
  rw [run_compileFunction hbind hbody]
  have hinner : CompileState.slots { before with scope := inner }
      = before.slots ++ List.range' before.scope.nextSlot params.length := by
    rw [CompileState.slots, hbindings, List.map_append, Scope.map_snd_assign]
    rfl
  constructor
  · -- Dropping as many bindings as were made leaves those from before, also after an error.
    refine ⟨Scope.bindings_unbind (hbalanced.bindings.trans hbindings), ?_, ?_, hbalanced.cache⟩
    · have hle : inner.nextSlot ≤ after.scope.nextSlot := hbalanced.nextSlot_le
      exact (by omega : before.scope.nextSlot ≤ after.scope.nextSlot)
    · have hle : after.scope.nextSlot ≤ inner.nextSlot + count := hbalanced.le_add
      exact (by omega : after.scope.nextSlot ≤ before.scope.nextSlot + (params.length + count))
  · intro t ht
    obtain ⟨t', rfl, rfl⟩ := Sequence.exists_of_map_eq_ok ht
    -- The body was compiled after the slots of the parameters had been handed out.
    have hemitted := hterms t' rfl
    rw [hinner, hnext] at hemitted
    exact hgiven.append (.func hemitted)

end Compiler

end DocQuery