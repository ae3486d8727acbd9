import Mathlib.Data.List.Forall2
import DocQuery.Sequence

/-!
# What steps in sequence leave

A sequence that ends well has taken every step well. Where each step can be taken back up to a
relation, so can the sequence. A step with a state goes on from what the step before it left.

## Key results

- `Sequence.exists_of_bind_eq_ok`: a step that ends well follows one that did
- `Sequence.exists_collect`: results of a sequence lead back to related items
-/

namespace DocQuery.Sequence

variable {ε σ α β : Type}

/-! ## Steps with a state -/

/-- `>>=` hands the result and the state of a step that ended well to the next one. -/
theorem run_bind_of_ok {step : ExceptT ε (StateM σ) α} {before after : σ} {a : α}
    (h : StateT.run (ExceptT.run step) before = (.ok a, after)) (f : α → ExceptT ε (StateM σ) β) :
    StateT.run (ExceptT.run (step >>= f)) before = StateT.run (ExceptT.run (f a)) after := by
  simp only [ExceptT.run_bind, StateT.run_bind, h]
  rfl

/-- `>>=` takes no next step after an error, and the state stays as the failed step left it. -/
theorem run_bind_of_error {step : ExceptT ε (StateM σ) α} {before after : σ} {e : ε}
    (h : StateT.run (ExceptT.run step) before = (.error e, after))
    (f : α → ExceptT ε (StateM σ) β) :
    StateT.run (ExceptT.run (step >>= f)) before = (.error e, after) := by
  simp only [ExceptT.run_bind, StateT.run_bind, h]
  rfl

/-! ## Steps without a state -/

/-- Where `x >>= f` ends well, so did `x`, and `f` went on from its result. -/
theorem exists_of_bind_eq_ok {x : Except ε α} {f : α → Except ε β} {b : β}
    (h : x >>= f = .ok b) : ∃ a, x = .ok a ∧ f a = .ok b := by
  cases x with
  | error e => cases h
  | ok a => exact ⟨a, rfl, h⟩

/-- Two steps that end well exactly where something holds, and with one result, end well under `>>=`
    exactly where both hold. The conditions are taken apart and put together with the steps. -/
theorem bind_bind_eq_ok_iff {γ : Type} {x : Except ε α} {y : Except ε β} {p q : Prop} {a : α}
    {b : β} (hx : ∀ {result}, x = .ok result ↔ p ∧ a = result)
    (hy : ∀ {result}, y = .ok result ↔ q ∧ b = result) (f : α → β → γ) {c : γ} :
    (x >>= fun a => y >>= fun b => .ok (f a b)) = .ok c ↔ (p ∧ q) ∧ f a b = c := by
  constructor
  · -- The two steps succeed one after the other, each with its one result.
    intro h
    obtain ⟨first, hfirst, h⟩ := exists_of_bind_eq_ok h
    obtain ⟨second, hsecond, h⟩ := exists_of_bind_eq_ok h
    obtain ⟨hp, rfl⟩ := hx.mp hfirst
    obtain ⟨hq, rfl⟩ := hy.mp hsecond
    exact ⟨⟨hp, hq⟩, Except.ok.inj h⟩
  · rintro ⟨⟨hp, hq⟩, rfl⟩
    rw [hx.mpr ⟨hp, rfl⟩, hy.mpr ⟨hq, rfl⟩]
    rfl

/-- An error of `x >>= fun a => y >>= _` is an error of `x` or of `y`. -/
theorem error_of_bind_bind {γ : Type} {x : Except ε α} {y : Except ε β} (f : α → β → γ) {e : ε}
    (h : (x >>= fun a => y >>= fun b => .ok (f a b)) = .error e) : x = .error e ∨ y = .error e := by
  cases x with
  | error e' =>
    obtain rfl : e' = e := Except.error.inj h
    exact .inl rfl
  | ok a =>
    -- The second step does not depend on the first, so its error is its own.
    cases y with
    | error e' =>
      obtain rfl : e' = e := Except.error.inj h
      exact .inr rfl
    | ok b => cases h

/-- A result of `Except.map` comes from a computation that ends well. -/
theorem exists_of_map_eq_ok {x : Except ε α} {f : α → β} {b : β} (h : x.map f = .ok b) :
    ∃ a, x = .ok a ∧ f a = b := by
  cases x with
  | error e => cases h
  | ok a => exact ⟨a, rfl, Except.ok.inj h⟩

/-- Where `collect` ends well, `step` took every item to the result at its place. -/
theorem forall₂_of_collect {step : α → Except ε β} {items : List α} {results : List β}
    (h : collect step items = .ok results) :
    List.Forall₂ (fun item result => step item = .ok result) items results := by
  induction items generalizing results with
  | nil =>
    obtain rfl := Except.ok.inj h
    exact .nil
  | cons item rest ih =>
    -- The step on the first item ended well, and so did all the rest.
    obtain ⟨result, hresult, h⟩ := exists_of_bind_eq_ok h
    obtain ⟨results', hresults, h⟩ := exists_of_bind_eq_ok h
    obtain rfl := Except.ok.inj h
    exact .cons hresult (ih hresults)

/-- Under `List.Forall₂` every item on the right is related to one on the left. -/
theorem exists_of_forall₂ {related : α → β → Prop} {items : List α} {results : List β}
    (h : List.Forall₂ related items results) :
    ∀ result ∈ results, ∃ item ∈ items, related item result := by
  induction h with
  | nil => exact List.forall_mem_nil _
  | @cons item result items results hhead _ ih =>
    rw [List.forall_mem_cons]
    refine ⟨⟨item, .head _, hhead⟩, fun r hr => ?_⟩
    obtain ⟨i, hi, hrelated⟩ := ih r hr
    exact ⟨i, .tail _ hi, hrelated⟩

/-- Under `List.Forall₂` the items at one place are related. -/
theorem related_of_getElem? {related : α → β → Prop} {items : List α} {results : List β}
    (h : List.Forall₂ related items results) {index : Nat} {item : α} {result : β}
    (hitem : items[index]? = some item) (hresult : results[index]? = some result) :
    related item result := by
  -- Both lists are as long as the place requires.
  obtain ⟨hlt, rfl⟩ := List.getElem?_eq_some_iff.mp hitem
  obtain ⟨hlt', rfl⟩ := List.getElem?_eq_some_iff.mp hresult
  exact h.get hlt hlt'

/-- `List.Forall₂` of one relation follows from that of another on the items that there are. -/
theorem forall₂_imp_mem {related related' : α → β → Prop} {items : List α} {results : List β}
    (h : List.Forall₂ related items results)
    (himp : ∀ item ∈ items, ∀ result, related item result → related' item result) :
    List.Forall₂ related' items results := by
  induction h with
  | nil => exact .nil
  | cons hhead _ ih =>
    exact .cons (himp _ (.head _) _ hhead) (ih fun item hitem => himp item (.tail _ hitem))

/-- `collect` ends well where `step` does on every item. -/
theorem exists_collect_eq_ok {step : α → Except ε β} {items : List α}
    (h : ∀ item ∈ items, ∃ result, step item = .ok result) :
    ∃ results, collect step items = .ok results := by
  induction items with
  | nil => exact ⟨[], rfl⟩
  | cons item rest ih =>
    obtain ⟨result, hresult⟩ := h item (.head _)
    obtain ⟨results, hresults⟩ := ih fun a ha => h a (.tail _ ha)
    exact ⟨result :: results, by rw [collect, hresult, hresults]; rfl⟩

/-- `collect` gives the same results with a step that gives those of `step` on every item. -/
theorem collect_eq_ok_of_imp {step step' : α → Except ε β} {items : List α} {results : List β}
    (h : ∀ item ∈ items, ∀ result, step item = .ok result → step' item = .ok result)
    (hresults : collect step items = .ok results) : collect step' items = .ok results := by
  induction items generalizing results with
  | nil => exact hresults
  | cons item rest ih =>
    obtain ⟨first, hfirst, hresults⟩ := exists_of_bind_eq_ok hresults
    obtain ⟨others, hothers, hresults⟩ := exists_of_bind_eq_ok hresults
    rw [collect, h item (.head _) first hfirst, ih (fun a ha => h a (.tail _ ha)) hothers]
    exact hresults

/-- Where `read` takes every result of `write` back to an item that is `related` to the one it came
    from, `collect read` takes the results of `collect write` back to related items. -/
theorem exists_collect {write : α → Except ε β} {read : β → Except ε α} {related : α → α → Prop}
    {items : List α} {results : List β}
    (h : ∀ item ∈ items, ∀ result, write item = .ok result →
      ∃ item', read result = .ok item' ∧ related item' item)
    (hwrite : collect write items = .ok results) :
    ∃ items', collect read results = .ok items' ∧ List.Forall₂ related items' items := by
  induction items generalizing results with
  | nil =>
    obtain rfl := Except.ok.inj hwrite
    exact ⟨[], rfl, .nil⟩
  | cons item rest ih =>
    obtain ⟨result, hresult, hwrite⟩ := exists_of_bind_eq_ok hwrite
    obtain ⟨results', hresults, hwrite⟩ := exists_of_bind_eq_ok hwrite
    obtain rfl := Except.ok.inj hwrite
    -- The first item comes back from its own result, the rest by induction.
    obtain ⟨item', hread, hitem⟩ := h item (.head _) result hresult
    obtain ⟨items', hreads, hitems⟩ := ih (fun x hx => h x (.tail _ hx)) hresults
    refine ⟨item' :: items', ?_, .cons hitem hitems⟩
    rw [collect, hread, hreads]
    rfl

end DocQuery.Sequence
