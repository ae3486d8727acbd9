import Mathlib.SetTheory.Cardinal.Arithmetic
import DocQuery.Proofs.Compile.Alike
import DocQuery.Proofs.Compile.Hygiene

/-!
# Names of parameters do not matter

A function is compiled to the same term under all names of its parameters, as long as different
names stay different.

## Key results

- `Compiler.compileLambda_rename`: a function with renamed parameters is compiled to the same term
-/

namespace DocQuery

variable {σ : String → String}

/-- A renaming that keeps finitely many names apart can be continued to one that keeps all names
    apart, so nothing is lost by asking for a renaming that is `Injective`. -/
theorem exists_injective_of_injOn {names : List String} (hσ : Set.InjOn σ {n | n ∈ names}) :
    ∃ τ : String → String, Function.Injective τ ∧ ∀ n ∈ names, σ n = τ n := by
  -- There are only finitely many of the names, and infinitely many strings to choose from.
  have hfinite : Cardinal.mk {n // n ∈ names} < Cardinal.mk String :=
    (Cardinal.lt_aleph0_of_finite _).trans_le (Cardinal.aleph0_le_mk String)
  obtain ⟨τ, hτ⟩ := Cardinal.extend_function_of_lt
    (⟨fun n : {n // n ∈ names} => σ n, fun a b h => Subtype.ext (hσ a.2 b.2 h)⟩) hfinite
    ⟨Equiv.refl String⟩
  exact ⟨τ, τ.injective, fun n hn => (hτ ⟨n, hn⟩).symm⟩

namespace Compiler

variable {c : Compiler}

/-- A compiler `Matches` itself under `σ` when all names stay apart and nothing in its registry
    looks at them. -/
theorem matches_rename (hregistry : c.registry = .empty ∨ c.registry = .defaults)
    (hσ : Function.Injective σ) : c.Matches σ Eq (fun _ => False) (fun _ => True) c where
  injective := hσ
  registry := rfl
  linear := Registry.linear_of_eq hregistry Datum.constants_true
  uniform := by
    rcases hregistry with h | h
    · exact h ▸ .empty
    · exact h ▸ Registry.uniform_defaults
  folding := .inl rfl
  encode _ _ _ _ := Session.alike_self _
  wireName _ name _ := wireName?_alike (fun _ _ => Session.alike_self _) name
  fieldName _ _ _ := Session.alike_self _

/-- A compiler without registrations, or with the default ones, gives by `compileLambda` the same
    term for a function and for the function with new names for its parameters, those of functions
    inside included, if different names stay different. It fails for one of them when it fails for
    the other, and it leaves the same converters. -/
theorem compileLambda_rename (hregistry : c.registry = .empty ∨ c.registry = .defaults)
    {params : List Parameter} {body : Expr}
    (hσ : Set.InjOn σ {name | name ∈ (Expr.lambda params body).names}) (cache : ConverterCache) :
    (∀ t, ((c.compileLambda (params.map (Parameter.rename σ)) (body.rename σ)).run cache).1 =
      .ok t ↔ ((c.compileLambda params body).run cache).1 = .ok t) ∧
    ((c.compileLambda (params.map (Parameter.rename σ)) (body.rename σ)).run cache).2 =
      ((c.compileLambda params body).run cache).2 := by
  obtain ⟨τ, hτ, hsame⟩ := exists_injective_of_injOn hσ
  -- Only the names that occur matter, so the renaming may be taken for the injective one.
  have hrename := Expr.rename_congr hsame
  rw [Expr.rename, Expr.rename] at hrename
  obtain ⟨hparams, hbody⟩ := Expr.lambda.inj hrename
  have hbodies := lower_alike (matches_rename hregistry hτ) body
    (.of_forall Expr.sizeOf_lt_of_mem_parts (fun _ => trivial) body)
  rw [hparams, hbody]
  unfold compileLambda
  rw [List.length_map]
  -- The number of parameters is checked first, and renaming does not change it.
  split
  · exact ⟨fun _ => .rfl, rfl⟩
  · obtain ⟨hresult, hcache⟩ :=
      (compileFunction_alike hτ params hbodies .empty cache cache rfl).ok_iff
    exact ⟨hresult, hcache.symm⟩

/-- Of the names of the list of numbers and of a number each becomes the other one. -/
def otherName (name : String) : String := if name = "numbers" then "number" else "numbers"

/-- By `otherName` the two names in the function stay apart. -/
theorem otherName_injOn :
    Set.InjOn otherName {name | name ∈ (Expr.lambda [numbers] doubledNumbers).names} := by
  -- There are two names to tell apart.
  have hnames : ∀ name ∈ (Expr.lambda [numbers] doubledNumbers).names,
      name = "numbers" ∨ name = "number" := by
    decide
  intro a ha b hb h
  rcases hnames a ha with rfl | rfl <;> rcases hnames b hb with rfl | rfl
  · rfl
  · exact absurd h (by decide)
  · exact absurd h (by decide)
  · rfl

/-- In the function of a list of numbers both parameters get the name of the other one, and the term
    stays `doubledNumbersTerm`. -/
theorem compileLambda_rename_doubledNumbers :
    (defaultCompiler.registry = .empty ∨ defaultCompiler.registry = .defaults) ∧
    Set.InjOn otherName {name | name ∈ (Expr.lambda [numbers] doubledNumbers).names} ∧
    ((defaultCompiler.compileLambda [⟨"number", numbers.type⟩]
      (doubledNumbers.rename otherName)).run .empty).1 = .ok doubledNumbersTerm := by
  obtain ⟨hterms, -⟩ :=
    compileLambda_rename (c := defaultCompiler) (.inr rfl) otherName_injOn .empty
  exact ⟨.inr rfl, otherName_injOn, (hterms _).mpr compileLambda_doubledNumbers⟩

end Compiler

end DocQuery
