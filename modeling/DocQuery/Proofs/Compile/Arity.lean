import DocQuery.Proofs.Compile.Hygiene
import DocQuery.Proofs.Compile.Results

/-!
# How many slots functions list

A function is compiled to a function of as many slots as it has parameters, wherever it stands in an
expression. No other part of a compiled term is a function. A query function of more than two
parameters is refused where it is the whole query, and nowhere else.

## Key results

- `Compiler.lower_lists`: functions list as many slots as functions of the expression have
  parameters
- `Compiler.compile_arity`: what that means for bodies, for query functions and for bare functions
-/

namespace DocQuery

variable {allowed : Nat → Prop}

/-- Every function anywhere in the expression has a number of parameters that is `allowed`. -/
abbrev Expr.Binds (allowed : Nat → Prop) : Expr → Prop :=
  Everywhere parts fun e => ∀ params body, e = .lambda params body → allowed params.length

namespace Term

/-- Every function anywhere in the term lists a number of slots that is `allowed`. -/
abbrev Lists (allowed : Nat → Prop) : Term → Prop :=
  Everywhere parts fun f => f.kind = .func → allowed f.parameters.length

/-- Terms other than functions list as their parts do, so `Lists` is inherited. -/
theorem inherited_lists (allowed : Nat → Prop) : Inherited (Lists allowed) where
  literal d := .of_leaf rfl fun hkind => by cases hkind
  var n := by
    refine .intro (fun hkind => by cases hkind) (List.forall_mem_singleton.mpr ?_)
    exact .of_leaf rfl fun hkind => by cases hkind
  node t hplain hparts := by
    refine .intro (fun hkind => ?_) hparts
    rw [hkind] at hplain
    cases hplain

theorem parameters_func (slots : List Nat) (body : Term) :
    (func slots body).parameters = slots.map numeral :=
  filterMap_number?_slots slots

/-- A function of slots `Lists` them, besides what its body lists. -/
theorem lists_func {slots : List Nat} {body : Term} (hslots : allowed slots.length)
    (hbody : body.Lists allowed) : (func slots body).Lists allowed := by
  have hslot : ∀ t ∈ slots.map slot, t.Lists allowed := by
    intro t ht
    obtain ⟨n, -, rfl⟩ := List.mem_map.mp ht
    exact (inherited_lists allowed).literal _
  have hlist : (makeArray (slots.map slot)).Lists allowed :=
    (inherited_lists allowed).args rfl hslot
  refine .intro (fun _ => ?_) fun part hpart => ?_
  · rwa [parameters_func, List.length_map]
  · -- The parts of a function are the list of its slots and its body.
    have hpart : part = makeArray (slots.map slot) ∨ part = body := by
      simpa [parts, func, node, args, options] using hpart
    rcases hpart with rfl | rfl
    · exact hlist
    · exact hbody

end Term

namespace Compiler

open Lowering (Action)

variable {c : Compiler}

/-- Whatever the position and the scope, functions of an expression keep their numbers of
    parameters, and nothing else becomes a function. -/
theorem lower_lists (hregistry : c.registry = .empty ∨ c.registry = .defaults) {e : Expr}
    (he : e.Binds allowed) : Action.Gives (Term.Lists allowed) (c.lower e) := by
  have hgood := Term.inherited_lists allowed
  refine lower_gives hgood (Registry.gives_of_eq hregistry hgood) (he.imp ?_)
  intro part hpart params body hlambda slots inner hlength hinner
  -- The scope hands out one slot for each parameter.
  have hallowed : allowed slots.length := by
    rw [hlength]
    exact hpart params body hlambda
  exact Term.lists_func hallowed hinner

/-- By `compile`, the functions in a compiled term list as many slots as functions of the expression
    have parameters, at any depth. By `compileLambda`, a query function with more than two
    parameters of its own is refused, so that with functions of at most two parameters inside, all
    functions list at most two slots. A function that is compiled as a body lists a slot for each of
    its parameters, however many. -/
theorem compile_arity (hregistry : c.registry = .empty ∨ c.registry = .defaults) (e : Expr)
    (cache : ConverterCache) :
    (∀ scope t, ((c.compile e scope).run cache).1 = .ok t →
      ∀ allowed : Nat → Prop, e.Binds allowed → t.Lists allowed) ∧
    (∀ params t, ((c.compileLambda params e).run cache).1 = .ok t → params.length ≤ 2 ∧
      ∀ allowed : Nat → Prop, allowed params.length → e.Binds allowed → t.Lists allowed) ∧
    ∀ params scope t, ((c.compile (.lambda params e) scope).run cache).1 = .ok t →
      t.kind = .func ∧ t.parameters.length = params.length := by
  refine ⟨fun scope t ht allowed he => ?_, fun params t ht => ⟨?_, fun allowed hparams he => ?_⟩,
    fun params scope t ht => ?_⟩
  · exact lower_lists hregistry he .body ⟨scope, cache⟩ t ht
  · -- The check stands before everything else.
    by_contra hmany
    have hrefused : ((c.compileLambda params e).run cache).1 =
        .error (.compilation (.tooManyParameters params.length)) := by
      rw [compileLambda, if_pos (by omega)]
      rfl
    rw [hrefused] at ht
    cases ht
  · -- The query function itself is allowed by its own number of parameters.
    obtain ⟨hrun, -⟩ := exists_of_compileLambda ht
    obtain ⟨slots, inner, hlength, hinner, rfl⟩ :=
      compileFunction_gives (lower_lists hregistry he) ⟨.empty, cache⟩ t hrun
    exact Term.lists_func (hlength ▸ hparams) hinner
  · -- Nothing is said of the body here, which may be anything.
    have hrun : ((compileFunction params (c.lower e)).run ⟨scope, cache⟩).1 = .ok t := by
      rw [← ht, compile, lower]
      rfl
    have hanything : Action.Gives (fun _ => True) (c.lower e) :=
      fun _ => Lowering.Gives.anything _
    obtain ⟨slots, inner, hlength, -, rfl⟩ :=
      compileFunction_gives hanything ⟨scope, cache⟩ t hrun
    refine ⟨rfl, ?_⟩
    rw [Term.parameters_func, List.length_map, hlength]

/-- The functions in `overNumbers` have one parameter each, besides those of the target. -/
theorem binds_overNumbers {method : String} {target : Expr} {op : BinaryOp}
    (htarget : target.Binds (· ≤ 2)) : (overNumbers method target op).Binds (· ≤ 2) := by
  -- The operand of the lambda is its one parameter.
  have hnumber : (Expr.parameter number).Binds (· ≤ 2) := .of_leaf rfl fun _ _ h => by cases h
  have hbody : (Expr.binary op (.parameter number) (.parameter number)).Binds (· ≤ 2) := by
    refine .intro (fun _ _ h => by cases h) fun part hpart => ?_
    obtain rfl : part = .parameter number := by simpa [Expr.parts] using hpart
    exact hnumber
  -- The lambda itself has one parameter, which is at most two.
  have hlambda : (Expr.lambda [number] (.binary op (.parameter number) (.parameter number))).Binds
      (· ≤ 2) := by
    refine .intro ?_ (List.forall_mem_singleton.mpr hbody)
    rintro _ _ ⟨⟩
    decide
  -- The call binds nothing of its own; its parts are the target and the lambda.
  refine .intro (fun _ _ h => by cases h) fun part hpart => ?_
  rcases List.mem_cons.mp hpart with rfl | hpart
  · exact htarget
  · obtain rfl := List.mem_singleton.mp hpart
    exact hlambda

/-- All functions in `doubledNumbers` have one parameter. -/
theorem compile_arity_doubledNumbers :
    (defaultCompiler.registry = .empty ∨ defaultCompiler.registry = .defaults) ∧
    ((defaultCompiler.compileLambda [numbers] doubledNumbers).run .empty).1 =
      .ok doubledNumbersTerm ∧
    doubledNumbersTerm.Lists (· ≤ 2) := by
  have hnumbers : (Expr.parameter numbers).Binds (· ≤ 2) := .of_leaf rfl fun _ _ h => by cases h
  have hbinds : doubledNumbers.Binds (· ≤ 2) := binds_overNumbers (binds_overNumbers hnumbers)
  obtain ⟨-, hlists⟩ :=
    (compile_arity (c := defaultCompiler) (.inr rfl) doubledNumbers .empty).2.1 [numbers] _
      compileLambda_doubledNumbers
  exact ⟨.inr rfl, compileLambda_doubledNumbers, hlists (· ≤ 2) (by decide) hbinds⟩

/-- The last of three parameters. -/
def thirdNumber : List Parameter × Expr :=
  ([⟨"a", .int .i32⟩, ⟨"b", .int .i32⟩, ⟨"c", .int .i32⟩], .parameter ⟨"c", .int .i32⟩)

/-- As a query function `thirdNumber` is refused. As a body, or in a query function without
    parameters, it is compiled to a function of three slots. -/
theorem not_compile_lists_two :
    ((defaultCompiler.compileLambda thirdNumber.1 thirdNumber.2).run .empty).1 =
      .error (.compilation (.tooManyParameters 3)) ∧
    (∃ t, ((defaultCompiler.compile (.lambda thirdNumber.1 thirdNumber.2) .empty).run .empty).1 =
      .ok t ∧ ¬t.Lists (· ≤ 2)) ∧
    ∃ t, ((defaultCompiler.compileLambda [] (.lambda thirdNumber.1 thirdNumber.2)).run .empty).1 =
      .ok t ∧ ¬t.Lists (· ≤ 2) := by
  have hwide : ¬(Term.func [1, 2, 3] (.var 3)).Lists (· ≤ 2) := by
    intro h
    exact absurd (h.at_top rfl) (by decide)
  refine ⟨rfl, ⟨.func [1, 2, 3] (.var 3), rfl, hwide⟩,
    ⟨.func [] (.func [1, 2, 3] (.var 3)), rfl, fun h => ?_⟩⟩
  exact hwide (h.at_part (.tail _ (.head _)))

end Compiler

end DocQuery
