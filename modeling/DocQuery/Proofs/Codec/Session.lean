import DocQuery.Codec.Engine
import DocQuery.Proofs.Sequence

/-!
# Sessions that answer as a pure computation does

A session follows a pure computation when, from every cache with an invariant, it answers as the
computation does, keeps the invariant and only adds to the cache. Sessions that follow pure
computations are composed as the computations are.

## Key results

- `Session.Follows.bind`, `Session.Follows.tryCatch`: composition, also after an error
-/

namespace DocQuery

/-- The later cache has the entries of the earlier one at their places. -/
def ConverterCache.Extends (later earlier : ConverterCache) : Prop :=
  earlier.entries <+: later.entries

namespace ConverterCache.Extends

variable {first second third : ConverterCache}

theorem refl (cache : ConverterCache) : cache.Extends cache := List.prefix_refl _

theorem trans (h : third.Extends second) (h' : second.Extends first) : third.Extends first :=
  List.IsPrefix.trans h' h

end ConverterCache.Extends

namespace Session

variable {α β : Type}

/-! ## Runs -/

theorem run_get_bind (f : ConverterCache → Session α) (cache : ConverterCache) :
    run (get >>= f) cache = (f cache).run cache := rfl

/-- After an answer `>>=` goes on from the cache that the first session left. -/
theorem run_bind_ok {s : Session α} {cache after : ConverterCache} {a : α}
    (h : s.run cache = (.ok a, after)) (f : α → Session β) :
    run (s >>= f) cache = (f a).run after :=
  Sequence.run_bind_of_ok h f

/-- After an error `>>=` stops, and the cache stays as the first session left it. -/
theorem run_bind_error {s : Session α} {cache after : ConverterCache} {e : Error}
    (h : s.run cache = (.error e, after)) (f : α → Session β) :
    run (s >>= f) cache = (.error e, after) :=
  Sequence.run_bind_of_error h f

/-- `tryCatch` passes an answer on. -/
theorem run_tryCatch_ok {s : Session α} {cache after : ConverterCache} {a : α}
    (h : s.run cache = (.ok a, after)) (handle : Error → Session α) :
    run (tryCatch s handle) cache = (.ok a, after) := by
  have h : StateT.run (ExceptT.run s) cache = (.ok a, after) := h
  simp only [run, ExceptT.run_tryCatch, StateT.run_bind, h]
  rfl

/-- `tryCatch` handles an error from the cache that the failed session left. What that session added
    stays. -/
theorem run_tryCatch_error {s : Session α} {cache after : ConverterCache} {e : Error}
    (h : s.run cache = (.error e, after)) (handle : Error → Session α) :
    run (tryCatch s handle) cache = (handle e).run after := by
  have h : StateT.run (ExceptT.run s) cache = (.error e, after) := h
  simp only [run, ExceptT.run_tryCatch, StateT.run_bind, h]
  rfl

/-! ## Following a pure computation -/

/-- From every cache with the invariant the session gives the answer, keeps the invariant and only
    adds to the cache. -/
def Follows (inv : ConverterCache → Prop) (s : Session α) (answer : Except Error α) : Prop :=
  ∀ cache, inv cache → ∃ after, s.run cache = (answer, after) ∧ inv after ∧ after.Extends cache

variable {inv : ConverterCache → Prop}

theorem Follows.pure (a : α) : Follows inv (pure a) (pure a) :=
  fun cache hinv => ⟨cache, rfl, hinv, .refl cache⟩

theorem Follows.throw (e : Error) : Follows inv (throw e : Session α) (throw e) :=
  fun cache hinv => ⟨cache, rfl, hinv, .refl cache⟩

/-- A computation that needs no cache is followed by itself: `ofExcept` follows it. -/
theorem Follows.ofExcept (p : Except Error α) :
    Follows inv (MonadExcept.ofExcept p) (MonadExcept.ofExcept p) := by
  cases p with
  | ok a => exact .pure a
  | error e => exact .throw e

/-- `bind` keeps sessions following. The second starts from what the first one answered. -/
theorem Follows.bind {s : Session α} {p : Except Error α} {f : α → Session β}
    {g : α → Except Error β} (h : Follows inv s p)
    (hf : ∀ a, p = .ok a → Follows inv (f a) (g a)) : Follows inv (s >>= f) (p >>= g) := by
  intro cache hinv
  obtain ⟨middle, hrun, hmiddle, hext⟩ := h cache hinv
  cases p with
  | error e => exact ⟨middle, run_bind_error hrun f, hmiddle, hext⟩
  | ok a =>
    -- The second session runs on the cache that the first left, which has the invariant too.
    obtain ⟨after, hrun', hafter, hext'⟩ := hf a rfl middle hmiddle
    exact ⟨after, (run_bind_ok hrun f).trans hrun', hafter, hext'.trans hext⟩

/-- `tryCatch` keeps sessions following. The handler starts from the cache that the failed session
    left. -/
theorem Follows.tryCatch {s : Session α} {p : Except Error α} {f : Error → Session α}
    {g : Error → Except Error α} (h : Follows inv s p) (hf : ∀ e, Follows inv (f e) (g e)) :
    Follows inv (tryCatch s f) (tryCatch p g) := by
  intro cache hinv
  obtain ⟨middle, hrun, hmiddle, hext⟩ := h cache hinv
  cases p with
  | ok a => exact ⟨middle, run_tryCatch_ok hrun f, hmiddle, hext⟩
  | error e =>
    -- Nothing is undone: the entries of the failed session stay.
    obtain ⟨after, hrun', hafter, hext'⟩ := hf e middle hmiddle
    exact ⟨after, (run_tryCatch_error hrun f).trans hrun', hafter, hext'.trans hext⟩

/-- `map` uses the answer with nothing more done. -/
theorem Follows.map {s : Session α} {p : Except Error α} (h : Follows inv s p) (f : α → β) :
    Follows inv (f <$> s) (f <$> p) := by
  have hbind := h.bind (g := fun a => Pure.pure (f a)) fun a _ => .pure (f a)
  cases p <;> exact hbind

end Session

end DocQuery
