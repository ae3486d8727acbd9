import DocQuery.Proofs.Codec.Cache
import DocQuery.Proofs.Codec.Standard
import DocQuery.Proofs.Compile.Hygiene
import DocQuery.Proofs.Term.Reread

/-!
# Compiled queries can be sent and read back

A compiler without registrations, or with the default ones, on an engine of the default chain emits
literals with finite numbers only: numbers are checked or bounded where they are written, also those
that evaluation on the client has computed. No array that it emits has options. So every query that
it compiles has a wire form, which reads as a term with the same wire form.

The number of a variant has 64 bits, and so has the counter of slots.

## Key results

- `Term.Emitted.resends`: emitted terms can be sent and read back
- `Compiler.Stock.serve_standard`: no request brings a converter from outside into the cache
- `Compiler.compiled_resends`: compiled queries can be sent and read back
-/

namespace DocQuery

/-! ## Emitted terms -/

namespace Term

open Codec.Leaf (finite_ofInt)

/-- A literal has a datum with finite numbers, and an array has no options. -/
def OutgoingNode (t : Term) : Prop :=
  t.FiniteNode ∧ (t.kind = .makeArray → t.options = [])

/-- Literals have finite numbers and arrays have no options, at every depth, by `OutgoingNode`. -/
abbrev Outgoing : Term → Prop := Everywhere parts OutgoingNode

theorem Outgoing.resends {t : Term} (h : t.Outgoing) : t.Resends :=
  Term.resends (h.imp fun _ h => h.1) (h.imp fun _ h => h.2)

theorem Outgoing.literal {d : Datum} (h : d.Finite) : (Term.literal d).Outgoing :=
  .of_leaf rfl ⟨fun _ => ⟨d, rfl, h⟩, fun _ => rfl⟩

/-- A slot of 64 bits is a finite number, so it is `Outgoing`. -/
theorem Outgoing.slot {n : Nat} (h : n ≤ 2 ^ 64) : (Term.slot n).Outgoing :=
  .literal (finite_ofInt (by omega))

/-- A term of parts that are `Outgoing` is so too, if it is no literal and no array with options. -/
theorem Outgoing.mk {kind : TermKind} {args : List Term} {options : List (String × Term)}
    (hkind : kind ≠ .datum) (harray : kind = .makeArray → options = [])
    (h : ∀ t ∈ (Term.mk kind args options none).parts, t.Outgoing) :
    (Term.mk kind args options none).Outgoing :=
  .intro ⟨fun hdatum => absurd hdatum hkind, harray⟩ h

/-- A term with arguments only is `Outgoing` where these are. -/
theorem Outgoing.node {kind : TermKind} {args : List Term} (hkind : kind ≠ .datum)
    (h : ∀ t ∈ args, t.Outgoing) : (Term.node kind args).Outgoing := by
  have hparts : (Term.node kind args).parts = args := List.append_nil args
  exact .mk hkind (fun _ => rfl) (hparts.symm ▸ h)

/-- A function of slots of 64 bits is `Outgoing` where its body is. -/
theorem Outgoing.func {slots : List Nat} {body : Term} (hslots : ∀ n ∈ slots, n ≤ 2 ^ 64)
    (hbody : body.Outgoing) : (Term.func slots body).Outgoing := by
  refine .node TermKind.noConfusion ?_
  simp only [List.forall_mem_cons]
  refine ⟨.node TermKind.noConfusion fun t ht => ?_, hbody, List.forall_mem_nil _⟩
  obtain ⟨n, hn, rfl⟩ := List.mem_map.mp ht
  exact .slot (hslots n hn)

/-- Terms are `Outgoing` that were `Emitted` with slots of 64 bits and literals of finite
    numbers. -/
theorem Emitted.outgoing {bound : List Nat} {first last : Nat} {ts : List Term}
    (h : Emitted Datum.Finite bound first last ts) (hbound : ∀ n ∈ bound, n ≤ 2 ^ 64)
    (hlast : last ≤ 2 ^ 64) : ∀ t ∈ ts, t.Outgoing := by
  -- On how the terms came to be emitted; only functions take slots into scope.
  induction h with
  | nil => exact List.forall_mem_nil _
  | append _ hright ihleft ihright =>
    have := hright.le
    rw [List.forall_mem_append]
    exact ⟨ihleft hbound (by omega), ihright hbound hlast⟩
  | subperm _ hsub ih => exact fun t ht => ih hbound hlast t (hsub.subset ht)
  | literal hd _ ih =>
    rw [List.forall_mem_cons]
    exact ⟨.literal hd, ih hbound hlast⟩
  | var hn _ ih =>
    rw [List.forall_mem_cons]
    refine ⟨.node TermKind.noConfusion ?_, ih hbound hlast⟩
    exact List.forall_mem_singleton.mpr (.slot (hbound _ hn))
  | node hkind harray _ _ ih =>
    have hparts := ih hbound hlast
    rw [List.forall_mem_append] at hparts
    rw [List.forall_mem_cons]
    refine ⟨.mk ?_ harray hparts.1, hparts.2⟩
    -- A literal is no plain node, so the node here is none.
    rintro rfl
    cases hkind
  | @func _ first last count body hbody ih =>
    -- The slots of the function come before the last one that its body took.
    have hle := hbody.le
    have hslots : ∀ n ∈ List.range' first count, n ≤ 2 ^ 64 := by
      intro n hn
      have := List.mem_range'_1.mp hn
      omega
    rw [List.forall_mem_singleton]
    refine .func hslots (ih ?_ hlast body (.head _))
    rw [List.forall_mem_append]
    exact ⟨hbound, hslots⟩

end Term

/-! ## Compilations -/

namespace Compiler

open Session (Ensures)

variable {c : Compiler} {inv : ConverterCache → Prop} {carried : Datum → Prop}
  {allowed : Value → Prop} {cache : ConverterCache} {scope : Scope} {count : Nat}

/-- A compilation keeps the invariant of the converters and ends with a term that was `Emitted`
    while at most `count` slots were handed out. -/
theorem start_ensures {step : Lowering Term}
    (h : Lowering.Emits inv carried [] step (fun t => [t]) count) :
    Ensures inv (start scope step) fun t => ∃ last ≤ scope.nextSlot + count,
      Term.Emitted carried (scope.bindings.map Prod.snd) scope.nextSlot last [t] := by
  intro cache hcache
  obtain ⟨hbalanced, hterms⟩ := h ⟨scope, cache⟩ scope.nextSlot hcache (.nil le_rfl)
  exact ⟨hbalanced.cache, fun t ht => ⟨_, hbalanced.le_add, hterms t ht⟩⟩

/-- A compilation of a body by `compile` emits its term. -/
theorem compile_ensures (hc : c.Regular inv carried allowed) {e : Expr} (he : e.Evaluates allowed)
    (scope : Scope) :
    Ensures inv (c.compile e scope) fun t => ∃ last ≤ scope.nextSlot + e.parameterCount,
      Term.Emitted carried (scope.bindings.map Prod.snd) scope.nextSlot last [t] :=
  start_ensures (lower_emits hc e he .body)

/-- A compilation of a function by `compileLambda` emits its term with the slots from 1 on. -/
theorem compileLambda_ensures (hc : c.Regular inv carried allowed) {body : Expr}
    (hbody : body.Evaluates allowed) (params : List Parameter) :
    Ensures inv (c.compileLambda params body) fun t =>
      ∃ last ≤ 1 + (params.length + body.parameterCount), Term.Emitted carried [] 1 last [t] := by
  unfold compileLambda
  split
  · exact .throw _
  · exact start_ensures (compileFunction_emits (lower_emits hc body hbody))

/-- A compiler with the registry `empty` or `defaults`, on an engine of the default chain. -/
structure Stock (c : Compiler) : Prop where
  engine : ∃ settings, c.engine = .ofSettings settings
  registry : c.registry = .empty ∨ c.registry = .defaults

/-- What may be asked of a compiler: something of its engine, or a compilation. -/
inductive Request where
  | ofEngine (request : Engine.Request)
  | compile (e : Expr) (scope : Scope)
  | compileLambda (params : List Parameter) (body : Expr)

/-- The cache that a request leaves, whether it was answered or refused. -/
def serve (c : Compiler) (cache : ConverterCache) : Request → ConverterCache
  | .ofEngine request => c.engine.serve cache request
  | .compile e scope => ((c.compile e scope).run cache).2
  | .compileLambda params body => ((c.compileLambda params body).run cache).2

/-- Requests to `Stock` compilers of one engine lead from the earlier to the later cache. -/
abbrev Leads (engine : Engine) : ConverterCache → ConverterCache → Prop :=
  Relation.ReflTransGen fun cache after =>
    ∃ c request, Stock c ∧ c.engine = engine ∧ c.serve cache request = after

namespace Stock

/-- A `Stock` compiler keeps standard caches and carries the datums that are written of allowed
    values. -/
theorem regular (hc : c.Stock) (hconstants : Datum.Constants carried)
    (hwritten : ∀ v d, Converter.WritesFinite v d → allowed v → carried d) :
    c.Regular ConverterCache.Standard carried allowed := by
  obtain ⟨⟨settings, hengine⟩, hregistry⟩ := hc
  -- In turn: resolving, encoding and the registry.
  refine ⟨hconstants, fun type => ?_, fun type value hvalue => ?_, ?_⟩
  · rw [hengine]
    exact (Engine.resolve_ensures type).keeps
  · rw [hengine]
    exact (Engine.encode_ensures type value).imp fun d hd => hwritten value d hd hvalue
  · exact Registry.linear_of_eq hregistry hconstants

/-- No request brings a converter from outside into the cache. -/
theorem serve_standard (hc : c.Stock) (hcache : cache.Standard) (request : Request) :
    (c.serve cache request).Standard := by
  -- Nothing is asked of the expressions here, as any of them keeps the cache standard.
  have hregular : c.Regular ConverterCache.Standard (fun _ => True) fun _ => True :=
    hc.regular Datum.constants_true fun _ _ _ _ => trivial
  cases request with
  | ofEngine request =>
    obtain ⟨⟨settings, hengine⟩, -⟩ := hc
    rw [serve, hengine]
    exact Engine.serve_standard hcache request
  | compile e scope => exact (compile_ensures hregular e.evaluates_true scope cache hcache).1
  | compileLambda params body =>
    exact (compileLambda_ensures hregular body.evaluates_true params cache hcache).1

end Stock

/-- Every cache that requests lead to has standard converters only. -/
theorem standard_of_leads {engine : Engine} (h : Leads engine .empty cache) : cache.Standard := by
  induction h with
  | refl => exact ConverterCache.standard_empty
  | tail _ hstep ih =>
    obtain ⟨c, request, hc, -, rfl⟩ := hstep
    exact hc.serve_standard ih request

/-- A `Stock` compiler carries finite numbers of representable values. -/
theorem Stock.regular_finite (hc : c.Stock) :
    c.Regular ConverterCache.Standard Datum.Finite Value.Representable := by
  have hconstants : Datum.Constants Datum.Finite :=
    ⟨.of_leaf rfl trivial, fun _ hn => Codec.Leaf.finite_ofInt (by omega), Codec.Leaf.finite_string⟩
  exact hc.regular hconstants fun _ _ hwritten hv => hwritten hv

/-- What a `Stock` compiler compiles can be sent and read back, whatever was asked before: the term
    has a wire form, by `toWire`, which `ofWire` reads as a term with that wire form. The numbers of
    variants in the expression have 64 bits, and so have the slots in scope and those that are
    handed out. -/
theorem compiled_resends (hc : c.Stock) (hcache : Leads c.engine .empty cache) :
    (∀ (e : Expr) (scope : Scope) (t : Term), e.Representable →
      (∀ n ∈ scope.bindings.map Prod.snd, n ≤ 2 ^ 64) →
      scope.nextSlot + e.parameterCount ≤ 2 ^ 64 →
      ((c.compile e scope).run cache).1 = .ok t →
      ∃ j t', t.toWire = .ok j ∧ Term.ofWire j = .ok t' ∧ t'.toWire = .ok j) ∧
    ∀ (params : List Parameter) (body : Expr) (t : Term), body.Representable →
      1 + (params.length + body.parameterCount) ≤ 2 ^ 64 →
      ((c.compileLambda params body).run cache).1 = .ok t →
      ∃ j t', t.toWire = .ok j ∧ Term.ofWire j = .ok t' ∧ t'.toWire = .ok j := by
  have hstandard := standard_of_leads hcache
  constructor
  · intro e scope t he hbound hcount h
    -- The slots that the term was emitted with are below the counter, which has 64 bits.
    obtain ⟨last, hlast, hemitted⟩ :=
      (compile_ensures hc.regular_finite he.evaluates scope cache hstandard).2 t h
    exact (hemitted.outgoing hbound (by omega) t (.head _)).resends
  · intro params body t hbody hcount h
    obtain ⟨last, hlast, hemitted⟩ :=
      (compileLambda_ensures hc.regular_finite hbody.evaluates params cache hstandard).2 t h
    exact (hemitted.outgoing (List.forall_mem_nil _) (by omega) t (.head _)).resends

/-! A greeting of a name, whose ending is computed on the client. -/

/-- The guest that is greeted. -/
def guest : Parameter := ⟨"guest", .string⟩

/-- The ending of a greeting, a member without a target that its handler computes. -/
def ending : Expr := .member none ⟨.string, "ending", .string, some fun _ _ => .ok (.string "!")⟩

/-- A greeting of a name, whose ending is computed on the client. -/
def greeting : Expr := .binary .add (.parameter guest) ending

/-- The term of a greeting, in which the ending is a literal. -/
def greetingTerm : Term := .node .add [.var 1, .literal (.string "!")]

/-- The scope in which the guest has the first slot. -/
def guestScope : Scope := ⟨[(guest, 1)], 2⟩

/-- The converters that a greeting needs. -/
def greetingCache : ConverterCache := ⟨[(.string, .leaf .string)]⟩

/-- The ending is written by the converter of texts, which gets into the cache. -/
theorem run_encode_ending :
    (defaultCompiler.engine.encode .string (.string "!")).run .empty =
      (.ok (.string "!"), greetingCache) := by
  have hresolve : (defaultCompiler.engine.resolve .string).run .empty =
      (.ok (.leaf .string), greetingCache) := by
    rw [Engine.resolve, Factory.run_resolve_of_find?_eq_none rfl]
    rfl
  rw [Engine.encode, Session.run_bind_ok hresolve]
  rfl

/-- The greeting is compiled in the scope of the guest. -/
theorem run_lower_greeting :
    (defaultCompiler.lower greeting .body).run ⟨guestScope, .empty⟩ =
      (.ok greetingTerm, ⟨guestScope, greetingCache⟩) := by
  -- The parameter is in the scope, and the ending is evaluated on the client.
  have hguest : (defaultCompiler.lower (.parameter guest) .operand).run ⟨guestScope, .empty⟩ =
      (.ok (.var 1), ⟨guestScope, .empty⟩) := rfl
  have hencode : (Lowering.ofSession (defaultCompiler.engine.encode .string (.string "!"))).run
      ⟨guestScope, .empty⟩ = (.ok (.string "!"), ⟨guestScope, greetingCache⟩) := by
    rw [Lowering.run_ofSession, run_encode_ending]
  have hending : (defaultCompiler.lower ending .operand).run ⟨guestScope, .empty⟩ =
      (.ok (.literal (.string "!")), ⟨guestScope, greetingCache⟩) :=
    Lowering.run_bind_ok hencode _
  exact (Lowering.run_bind_ok hguest _).trans (Lowering.run_bind_ok hending _)

theorem compile_greeting :
    ((defaultCompiler.compile greeting guestScope).run .empty).1 = .ok greetingTerm :=
  congrArg Prod.fst run_lower_greeting

/-- As a function the greeting is compiled to a function of the first slot. -/
theorem compileLambda_greeting :
    ((defaultCompiler.compileLambda [guest] greeting).run .empty).1 =
      .ok (.func [1] greetingTerm) := by
  have hrun : (compileFunction [guest] (defaultCompiler.lower greeting)).run ⟨.empty, .empty⟩ = _ :=
    run_compileFunction rfl run_lower_greeting
  exact congrArg Prod.fst hrun

/-- The only handler in a greeting gives a text. -/
theorem representable_greeting : greeting.Representable := by
  refine .intro trivial ?_
  simp only [greeting, Expr.parts, List.forall_mem_cons]
  refine ⟨.of_leaf rfl trivial, .of_leaf rfl ?_, List.forall_mem_nil _⟩
  -- The ending's handler gives a text, whatever it is given.
  intro handler hhandler _ _ v _ _ h
  obtain rfl := Option.some.inj hhandler
  obtain rfl := Except.ok.inj h
  exact .of_leaf rfl trivial

/-- The greeting can be sent and read back as a body and as a function. -/
theorem compiled_resends_greeting :
    (defaultCompiler.Stock ∧ Leads defaultCompiler.engine .empty .empty ∧
      greeting.Representable ∧ (∀ n ∈ guestScope.bindings.map Prod.snd, n ≤ 2 ^ 64) ∧
      guestScope.nextSlot + greeting.parameterCount ≤ 2 ^ 64 ∧
      ((defaultCompiler.compile greeting guestScope).run .empty).1 = .ok greetingTerm ∧
      1 + ([guest].length + greeting.parameterCount) ≤ 2 ^ 64 ∧
      ((defaultCompiler.compileLambda [guest] greeting).run .empty).1 =
        .ok (.func [1] greetingTerm)) ∧
    (∃ j t', greetingTerm.toWire = .ok j ∧ Term.ofWire j = .ok t' ∧ t'.toWire = .ok j) ∧
    ∃ j t', (Term.func [1] greetingTerm).toWire = .ok j ∧ Term.ofWire j = .ok t' ∧
      t'.toWire = .ok j := by
  have hc : defaultCompiler.Stock := ⟨⟨{}, rfl⟩, .inr rfl⟩
  -- The bounds are of closed numbers.
  have hbound : ∀ n ∈ guestScope.bindings.map Prod.snd, n ≤ 2 ^ 64 := by decide
  have hcount : guestScope.nextSlot + greeting.parameterCount ≤ 2 ^ 64 := by decide
  have hfunction : 1 + ([guest].length + greeting.parameterCount) ≤ 2 ^ 64 := by decide
  obtain ⟨hbody, hlambda⟩ := compiled_resends hc .refl
  exact ⟨⟨hc, .refl, representable_greeting, hbound, hcount, compile_greeting, hfunction,
    compileLambda_greeting⟩,
    hbody greeting guestScope _ representable_greeting hbound hcount compile_greeting,
    hlambda [guest] greeting _ representable_greeting hfunction compileLambda_greeting⟩

end Compiler

end DocQuery
