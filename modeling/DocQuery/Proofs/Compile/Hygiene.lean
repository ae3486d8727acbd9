import DocQuery.Proofs.Compile.Emission

/-!
# Compiled functions are hygienic

A compiled function is closed: every reference stands in the body of a function that lists its
slot. The slots of all its functions are different, start at 1, and the outermost function takes
the first ones in the order of its parameters. In a term a slot is a number, and slots up to the
greatest safe integer have numbers of their own.

A compilation leaves no binding behind, also where it fails. Only slots stay taken.

## Key results

- `Compiler.compileLambda_hygienic`: compiled functions are closed and list no slot twice
- `Compiler.lower_restores_scope`: the bindings after a compilation are those before it
-/

namespace DocQuery.Compiler

variable {c : Compiler}

/-- The compilers with the registries `empty` and `defaults` use every operand at most once. Nothing
    is asked of the converters and of the datums of literals. -/
theorem regular_of_registry (h : c.registry = .empty ∨ c.registry = .defaults) :
    c.Regular (fun _ => True) (fun _ => True) fun _ => True := by
  have hany {α : Type} (s : Session α) : s.Keeps fun _ => True :=
    fun _ _ => ⟨trivial, fun _ _ => trivial⟩
  exact ⟨Datum.constants_true, fun _ => hany _, fun _ _ _ => hany _,
    Registry.linear_of_eq h Datum.constants_true⟩

/-- What `compileLambda` gives is a function of the first slots, whose body was compiled with them
    in scope. -/
theorem exists_of_compileLambda {params : List Parameter} {body : Expr} {cache : ConverterCache}
    {t : Term} (h : ((c.compileLambda params body).run cache).1 = .ok t) :
    ((compileFunction params (c.lower body)).run ⟨.empty, cache⟩).1 = .ok t ∧
      ∃ inner, t = .func (List.range' 1 params.length) inner ∧
        ((c.compile body ⟨params.zip (List.range' 1 params.length), params.length + 1⟩).run
          cache).1 = .ok inner := by
  unfold compileLambda at h
  split at h
  · cases h
  have hrun : ((compileFunction params (c.lower body)).run ⟨.empty, cache⟩).1 = .ok t := h
  refine ⟨hrun, ?_⟩
  rcases hbind : (CompileState.mk .empty cache).scope.bind params with
    e | ⟨slots, ⟨bindings, nextSlot⟩⟩
  · -- A parameter that is bound twice is refused, and then there is no function.
    rw [run_compileFunction_of_error hbind] at hrun
    cases hrun
  -- In the empty scope the parameters are the only bindings, and their slots start at 1.
  obtain ⟨rfl, rfl, rfl⟩ := Scope.bind_eq_ok hbind
  rw [run_compileFunction hbind rfl] at hrun
  obtain ⟨inner, hinner, rfl⟩ := Sequence.exists_of_map_eq_ok hrun
  refine ⟨inner, rfl, ?_⟩
  rw [← Scope.assign_eq_zip, Nat.add_comm]
  exact hinner

/-- In a function that `compileLambda` gives every reference stands in the body of a function that
    lists its slot. No slot is listed twice, all are at least 1, and there are no more of them than
    parameters, so that their numbers are different as long as there are fewer parameters than safe
    integers. The outermost function lists a slot for each of its parameters, in their order and
    from 1 on. -/
theorem compileLambda_hygienic (hregistry : c.registry = .empty ∨ c.registry = .defaults)
    {params : List Parameter} {body : Expr} {cache : ConverterCache} {t : Term}
    (h : ((c.compileLambda params body).run cache).1 = .ok t) :
    t.Closed [] ∧
    (∃ slots : List Nat, t.binders = slots.map numeral ∧ slots.Nodup ∧
      ∀ s ∈ slots, 1 ≤ s ∧ s ≤ params.length + body.parameterCount) ∧
    (params.length + body.parameterCount ≤ 9007199254740992 → t.binders.Nodup) ∧
    ∃ inner, t = .func (List.range' 1 params.length) inner ∧
      ((c.compile body ⟨params.zip (List.range' 1 params.length), params.length + 1⟩).run
        cache).1 = .ok inner := by
  obtain ⟨hrun, houtermost⟩ := exists_of_compileLambda h
  have hemits : Lowering.Emits (fun _ => True) (fun _ => True) []
      (compileFunction params (c.lower body)) (fun t => [t])
      (params.length + body.parameterCount) :=
    compileFunction_emits (lower_emits (regular_of_registry hregistry) body body.evaluates_true)
  -- The compilation starts in the empty scope, so slots are counted from 1 and none is in scope.
  obtain ⟨hbalanced, hterms⟩ := hemits ⟨.empty, cache⟩ 1 trivial (.nil le_rfl)
  have hemitted := hterms t hrun
  have hfresh := hemitted.fresh
  rw [List.flatMap_singleton] at hfresh
  have hlast := hbalanced.le_add
  have hfirst : (CompileState.mk .empty cache).scope.nextSlot = 1 := rfl
  rw [hfirst] at hlast
  have hclosed : t.Closed [] := hemitted.closed t (.head _)
  refine ⟨hclosed, ?_, fun hcount => hfresh.nodup (by omega), houtermost⟩
  -- Distinct slots have distinct numbers as long as these are safe integers.
  obtain ⟨slots, hslots, hnodup, hrange⟩ := hfresh
  refine ⟨slots, hslots, hnodup, fun s hs => ?_⟩
  have := hrange s hs
  omega

/-! A function of a list of numbers that keeps some of them and adds up each with itself, in two
functions inside. -/

/-- A list of numbers. -/
def numbers : Parameter := ⟨"numbers", .list (.int .i32)⟩

/-- A single number, as the functions inside have it. -/
def number : Parameter := ⟨"number", .int .i32⟩

/-- A call of `method` of the list with a function of its items. -/
def overNumbers (method : String) (target : Expr) (op : BinaryOp) : Expr :=
  .call (some target) ⟨numbers.type, method, numbers.type, none⟩
    [.lambda [number] (.binary op (.parameter number) (.parameter number))]

/-- Of the numbers some are kept, and each of these is added to itself. -/
def doubledNumbers : Expr :=
  overNumbers "map" (overNumbers "filter" (.parameter numbers) .ge) .add

/-- The functions inside take slots of their own, although their parameters have one name. -/
def doubledNumbersTerm : Term :=
  .func [1] (.node .map [
    .node .filter [.var 1, .func [2] (.node .ge [.var 2, .var 2])],
    .func [3] (.node .add [.var 3, .var 3])])

/-- The compiler with the default settings and the default registrations. -/
def defaultCompiler : Compiler := ⟨.ofSettings {}, .defaults⟩

/-- The function on the list of numbers is compiled to `doubledNumbersTerm`. -/
theorem compileLambda_doubledNumbers :
    ((defaultCompiler.compileLambda [numbers] doubledNumbers).run .empty).1 =
      .ok doubledNumbersTerm := by
  rfl

/-- In `doubledNumbersTerm` the slots are 1, 2 and 3, and all references are bound. -/
theorem compileLambda_hygienic_doubledNumbers :
    (defaultCompiler.registry = .empty ∨ defaultCompiler.registry = .defaults) ∧
    ((defaultCompiler.compileLambda [numbers] doubledNumbers).run .empty).1 =
      .ok doubledNumbersTerm ∧
    doubledNumbersTerm.Closed [] ∧
    doubledNumbersTerm.binders = [1, 2, 3].map numeral ∧
    doubledNumbersTerm.binders.Nodup := by
  obtain ⟨hclosed, -, hnodup, -⟩ :=
    compileLambda_hygienic (c := defaultCompiler) (.inr rfl) compileLambda_doubledNumbers
  exact ⟨.inr rfl, compileLambda_doubledNumbers, hclosed, rfl, hnodup (by decide)⟩

/-! ## Scopes after a compilation -/

/-- Whether `lower` compiles an expression or fails, in any position and at any depth, the bindings
    in scope are the same afterwards. Slots are taken and never given back, at most one for each
    parameter of a function in the expression. -/
theorem lower_restores_scope (hregistry : c.registry = .empty ∨ c.registry = .defaults) (e : Expr)
    (position : Position) (before : CompileState) :
    ((c.lower e position).run before).2.scope.bindings = before.scope.bindings ∧
    before.scope.nextSlot ≤ ((c.lower e position).run before).2.scope.nextSlot ∧
    ((c.lower e position).run before).2.scope.nextSlot ≤
      before.scope.nextSlot + e.parameterCount := by
  obtain ⟨hbalanced, -⟩ := lower_emits (regular_of_registry hregistry) e e.evaluates_true position
    before before.scope.nextSlot trivial (.nil le_rfl)
  exact ⟨hbalanced.bindings, hbalanced.nextSlot_le, hbalanced.le_add⟩

/-- Two functions of which the second one refers, in another one inside, to a parameter `missing`
    that nothing binds. -/
def danglingFunctions : Expr :=
  .array .dynamic [.lambda [number] (.parameter number),
    .lambda [⟨"others", numbers.type⟩] (.lambda [number] (.parameter ⟨"missing", .bool⟩))]

/-- A compilation with one parameter in scope. -/
def inNumbers : CompileState := ⟨⟨[(numbers, 1)], 2⟩, .empty⟩

/-- The compilation of `danglingFunctions` fails with all parameters of the second function bound,
    and these are dropped again. -/
theorem lower_restores_scope_danglingFunctions :
    (defaultCompiler.registry = .empty ∨ defaultCompiler.registry = .defaults) ∧
    ((defaultCompiler.lower danglingFunctions .operand).run inNumbers).1 =
      .error (.compilation (.unbound "missing")) ∧
    ((defaultCompiler.lower danglingFunctions .operand).run inNumbers).2.scope.bindings =
      [(numbers, 1)] ∧
    ((defaultCompiler.lower danglingFunctions .operand).run inNumbers).2.scope.nextSlot ≤ 5 := by
  obtain ⟨hbindings, -, hslots⟩ :=
    lower_restores_scope (c := defaultCompiler) (.inr rfl) danglingFunctions .operand inNumbers
  exact ⟨.inr rfl, rfl, hbindings, hslots⟩

end DocQuery.Compiler
