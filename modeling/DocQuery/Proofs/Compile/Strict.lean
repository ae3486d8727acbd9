import DocQuery.Proofs.Compile.Alike
import DocQuery.Proofs.Compile.Sendable

/-!
# Strict compilers only refuse

A strict compiler never evaluates on the client. It goes the way of the lenient compiler up to the
first part of an expression that would have to be evaluated, and there it refuses, so it gives no
term and no other error of its own.

## Key results

- `Compiler.strict_onlyRefuses`: what a strict compiler answers, beside a lenient one
-/

namespace DocQuery

namespace Expr

/-- The first expression is the second one or lies in it, at any depth. -/
abbrev PartOf : Expr → Expr → Prop := Relation.ReflTransGen fun part whole => part ∈ whole.parts

/-- All that lies in an expression is `PartOf` it. -/
theorem everywhere_partOf (e : Expr) : Everywhere parts (·.PartOf e) e := by
  -- For the induction, the expression has to lie in a whole that stays the same.
  suffices h : ∀ {e'}, Everywhere parts (fun _ => True) e' → e'.PartOf e →
      Everywhere parts (·.PartOf e) e' from
    h (.of_forall sizeOf_lt_of_mem_parts (fun _ => trivial) e) .refl
  intro e' he' hpart
  induction he' with
  | intro _ _ ih => exact .intro hpart fun part hmem => ih part hmem (.head hmem hpart)

end Expr

namespace Compiler

/-- The compiler of the default chain that evaluates on the client or, where `evaluates` is off,
    does not. -/
def ofClientEvaluation (settings : Settings) (registry : Registry) (evaluates : Bool) : Compiler :=
  ⟨.ofSettings { settings with clientEvaluation := evaluates }, registry⟩

/-- The error by which a strict compiler refuses to evaluate a part of the expression in which no
    parameter is free, which is `foldingDisabled` with the text of the part. -/
def RefusesPart (e : Expr) (error : Error) : Prop :=
  ∃ part : Expr, part.PartOf e ∧ part.firstParameter = none ∧
    error = .compilation (.foldingDisabled part.text)

/-- From one cache the session `strict` answers what `lenient` does, or it refuses to evaluate a
    part of the expression. -/
def OnlyRefuses (e : Expr) (strict lenient : Session Term) : Prop :=
  ∀ cache : ConverterCache,
    (∀ t, (strict.run cache).1 = .ok t → (lenient.run cache).1 = .ok t) ∧
    ∀ error, (strict.run cache).1 = .error error →
      RefusesPart e error ∨ (lenient.run cache).1 = .error error

variable {settings : Settings} {registry : Registry}

/-- The strict compiler `Matches` the lenient one: converters do not depend on whether the compiler
    evaluates on the client. -/
theorem matches_strict (settings : Settings)
    (hregistry : registry = .empty ∨ registry = .defaults) (e : Expr) :
    (ofClientEvaluation settings registry false).Matches id Eq (RefusesPart e) (·.PartOf e)
      (ofClientEvaluation settings registry true) where
  injective := Function.injective_id
  registry := rfl
  linear := Registry.linear_of_eq hregistry Datum.constants_true
  uniform := .of_forall Override.uniform_id (fun _ => trivial) registry
  folding := .inr ⟨rfl, fun part hpart hfree => ⟨part, hpart, hfree, rfl⟩⟩
  encode _ _ _ _ := Session.alike_self _
  wireName _ name _ := wireName?_alike (fun _ _ => Session.alike_self _) name
  fieldName _ _ _ := Session.alike_self _

/-- Runs that end alike make sessions of which the first one `OnlyRefuses`. -/
theorem onlyRefuses_of_ends {e : Expr} {scope : Scope} {step step' : Lowering Term}
    (h : ∀ cache, Lowering.Ends id Eq (RefusesPart e) (step.run ⟨scope, cache⟩)
      (step'.run ⟨scope, cache⟩)) :
    OnlyRefuses e (start scope step) (start scope step') := by
  intro cache
  have hstrict : ((start scope step).run cache).1 = (step.run ⟨scope, cache⟩).1 := rfl
  have hlenient : ((start scope step').run cache).1 = (step'.run ⟨scope, cache⟩).1 := rfl
  rw [hstrict, hlenient]
  rcases (h cache).escapes_or_eq with ⟨error, herror, hrefused⟩ | ⟨hsame, -⟩
  · -- The strict run ended early, so there is no term and the error is a refusal.
    rw [herror]
    constructor
    · intro t ht
      cases ht
    · intro error' herror'
      obtain rfl := Except.error.inj herror'
      exact .inl hrefused
  · rw [hsame]
    exact ⟨fun _ ht => ht, fun _ herror => .inr herror⟩

/-- A strict compiler gives the terms of the lenient one. Its errors are those of the lenient one,
    but for the one by which it refuses, as in `RefusesPart`, to evaluate a part of the expression
    on the client. -/
theorem strict_onlyRefuses (hregistry : registry = .empty ∨ registry = .defaults) (e : Expr) :
    (∀ scope, OnlyRefuses e ((ofClientEvaluation settings registry false).compile e scope)
      ((ofClientEvaluation settings registry true).compile e scope)) ∧
    ∀ params, OnlyRefuses e ((ofClientEvaluation settings registry false).compileLambda params e)
      ((ofClientEvaluation settings registry true).compileLambda params e) := by
  have halike := lower_alike (matches_strict settings hregistry e) e e.everywhere_partOf
  rw [Expr.rename_id] at halike
  refine ⟨fun scope => onlyRefuses_of_ends fun cache => ?_, fun params => ?_⟩
  · have hends := halike .body scope cache cache rfl
    rwa [Scope.rename_id] at hends
  · unfold compileLambda
    split
    · -- Too many parameters are an error of both compilers.
      exact fun _ => ⟨fun _ ht => ht, fun _ herror => .inr herror⟩
    · refine onlyRefuses_of_ends fun cache => ?_
      have hends := compileFunction_alike Function.injective_id params halike .empty cache cache rfl
      rwa [Parameter.rename_id, List.map_id] at hends

/-- The lenient compiler evaluates the ending of the greeting and the strict one refuses to. -/
theorem strict_onlyRefuses_greeting :
    (Registry.defaults = .empty ∨ Registry.defaults = .defaults) ∧
    (((ofClientEvaluation {} .defaults true).compileLambda [guest] greeting).run .empty).1 =
      .ok (.func [1] greetingTerm) ∧
    ∃ error, (((ofClientEvaluation {} .defaults false).compileLambda [guest] greeting).run
      .empty).1 = .error error ∧ RefusesPart greeting error := by
  have hregistry : Registry.defaults = .empty ∨ Registry.defaults = .defaults := .inr rfl
  have hlenient : (((ofClientEvaluation {} .defaults true).compileLambda [guest] greeting).run
      .empty).1 = .ok (.func [1] greetingTerm) :=
    compileLambda_greeting
  -- Without evaluation on the client the ending, a constant expression, is refused.
  have hstrict : (((ofClientEvaluation {} .defaults false).compileLambda [guest] greeting).run
      .empty).1 = .error (.compilation (.foldingDisabled ending.text)) := rfl
  refine ⟨hregistry, hlenient, _, hstrict, ?_⟩
  have hrefuses : OnlyRefuses greeting
      ((ofClientEvaluation {} .defaults false).compileLambda [guest] greeting)
      ((ofClientEvaluation {} .defaults true).compileLambda [guest] greeting) :=
    (strict_onlyRefuses hregistry greeting).2 [guest]
  -- The error is not that of the lenient run, which succeeds.
  rcases (hrefuses .empty).2 _ hstrict with hpart | herror
  · exact hpart
  · rw [hlenient] at herror
    cases herror

end Compiler

end DocQuery
