import DocQuery.Proofs.Codec.Lockstep

/-!
# Bounded steps

Dynamic values are written, and dynamic documents read, by steps that are bounded in number. Two
steps that agree on everything less deep make a converter agree, so where each dynamic step goes
down before the next one a bound above the depth is never met.

## Key results

- `Converter.encodeWith_congr`, `Converter.decodeWith_congr`: a converter takes steps on parts only
- `Converter.encodeDynamic_congr`, `Converter.decodeDynamic_congr`: the bound does not matter
- `Converter.decodeDynamic_of_depth_lt`: where documents are read at all, this holds of every chain
-/

namespace DocQuery

/-- Computations in `Except` that are equal. -/
def Lockstep.equal : Lockstep (Except Error) (Except Error) where
  Related := Eq
  pure := fun _ => rfl
  throw := fun _ => rfl
  bind := fun hx hf => hx ▸ bind_congr hf

/-- Computations in `Except` of which the second one ends with the result of the first one, if that
    ends well. Two bounds on steps are compared by this where the lesser one may run out. -/
def Lockstep.passing : Lockstep (Except Error) (Except Error) where
  Related := fun x y => ∀ a, x = .ok a → y = .ok a
  pure := fun _ _ h => h
  throw := fun _ _ h => h
  bind := fun hx hf b h => by
    obtain ⟨a, ha, hb⟩ := Sequence.exists_of_bind_eq_ok h
    rw [hx a ha]
    exact hf a b hb

namespace Converter

/-! ## Writing -/

section Encode

variable {step step' : Value → Except Error Datum} {v : Value}

/-- Two steps that write parts alike make `encodeWith` write alike, where they also write the value
    alike or the converter is `Guarded` and does not pass it on. -/
theorem encodeWith_congr
    (h : ∀ c, ∀ p ∈ v.parts, encodeWith step c p = encodeWith step' c p)
    (c : Converter) (hc : c.Guarded ∨ step v = step' v) :
    encodeWith step c v = encodeWith step' c v :=
  encodeWith_related (R := .equal) h c hc

/-- Two steps that write values of less than `n` in depth alike make every converter do so. -/
theorem encodeWith_congr_below {n : Nat} (h : ∀ p : Value, p.depth < n → step p = step' p)
    (c : Converter) (hv : v.depth < n) : encodeWith step c v = encodeWith step' c v := by
  induction hdepth : v.depth using Nat.strong_induction_on generalizing c v with
  | _ depth ih =>
    refine encodeWith_congr (fun c p hp => ?_) c (.inr (h v hv))
    have hlt := Value.depth_lt_of_mem_parts hp
    exact ih p.depth (hdepth ▸ hlt) c (hlt.trans hv) rfl

/-- With more steps than the value is deep, their number does not matter to `encodeDynamic`. -/
theorem encodeDynamic_congr {resolve : Ty → Except Error Converter}
    (hguarded : ∀ v : Value, v.isNull = false → ∀ c, resolve v.runtimeType = .ok c → c.Guarded)
    {steps steps' : Nat} (hsteps : v.depth < steps) (hsteps' : v.depth < steps') :
    encodeDynamic resolve steps v = encodeDynamic resolve steps' v := by
  induction steps generalizing v steps' with
  | zero => cases hsteps
  | succ steps ih =>
    -- Neither bound is used up yet, so both sides take one step and have one less left.
    obtain ⟨steps', rfl⟩ := Nat.exists_eq_add_of_lt hsteps'
    rw [encodeDynamic, encodeDynamic]
    split
    · rfl
    · rename_i hnull
      cases hc : resolve v.runtimeType with
      | error e => rfl
      | ok c =>
        -- The converter goes down before the next dynamic step.
        refine encodeWith_congr (fun c p hp => ?_) c
          (.inl (hguarded v (Bool.eq_false_iff.mpr hnull) c hc))
        have hlt := Value.depth_lt_of_mem_parts hp
        refine encodeWith_congr_below (n := v.depth) (fun q hq => ih ?_ ?_) c hlt <;> omega

end Encode

/-! ## Reading -/

section Decode

variable {step step' : Datum → Except Error Value} {d : Datum}

/-- Two steps that read what lies deeper alike make `decodeWith` read alike, where they also read
    the document alike or the converter is `Guarded` and does not pass it on. -/
theorem decodeWith_congr
    (h : ∀ c (p : Datum), p.depth < d.depth → decodeWith step c p = decodeWith step' c p)
    (c : Converter) (hc : c.Guarded ∨ step d = step' d) :
    decodeWith step c d = decodeWith step' c d :=
  decodeWith_related (R := .equal) h c hc

/-- Two steps that read documents of less than `n` in depth alike make every converter do so. -/
theorem decodeWith_congr_below {n : Nat} (h : ∀ p : Datum, p.depth < n → step p = step' p)
    (c : Converter) (hd : d.depth < n) : decodeWith step c d = decodeWith step' c d :=
  decodeWith_related_below (R := .equal) h c hd

/-- With more steps than the document is deep, their number does not matter to `decodeDynamic`. -/
theorem decodeDynamic_congr {resolve : Ty → Except Error Converter}
    (hguarded : ∀ (d : Datum) t, d.inferType = .ok t → (t == .dynamic) = false →
      ∀ c, resolve t = .ok c → c.Guarded)
    {steps steps' : Nat} (hsteps : d.depth < steps) (hsteps' : d.depth < steps') :
    decodeDynamic resolve steps d = decodeDynamic resolve steps' d := by
  induction steps generalizing d steps' with
  | zero => cases hsteps
  | succ steps ih =>
    obtain ⟨steps', rfl⟩ := Nat.exists_eq_add_of_lt hsteps'
    rw [decodeDynamic, decodeDynamic]
    cases hinfer : d.inferType with
    | error e => rfl
    | ok t =>
      show (if t == .dynamic then _ else _) = if t == .dynamic then _ else _
      split
      · -- Only null is left to the step itself, which is the same on both sides.
        rfl
      · rename_i hdynamic
        cases hc : resolve t with
        | error e => rfl
        | ok c =>
          -- The converter goes down before the next dynamic step.
          refine decodeWith_congr (fun c p hlt => ?_) c
            (.inl (hguarded d t hinfer (Bool.eq_false_iff.mpr hdynamic) c hc))
          refine decodeWith_congr_below (n := d.depth) (fun q hq => ih ?_ ?_) c hlt <;> omega

/-- A converter reads a document that is not null as a `Guarded` one does, or it passes the document
    on to the step. -/
theorem exists_guarded_or_step (hnull : d.isNull = false) : (c : Converter) →
    (∃ inner : Converter, inner.Guarded ∧ ∀ step : Datum → Except Error Value,
      decodeWith step c d = decodeWith step inner d) ∨
    ∀ step : Datum → Except Error Value, decodeWith step c d = step d
  | nullable type inner => by
    have hinner (step : Datum → Except Error Value) :
        decodeWith step (nullable type inner) d = decodeWith step inner d := by
      rw [decodeWith, hnull, if_neg Bool.false_ne_true]
    -- Options pass the document on to what they hold, however many of them there are.
    rcases exists_guarded_or_step hnull inner with ⟨below, hguarded, hbelow⟩ | hstep
    · exact .inl ⟨below, hguarded, fun step => (hinner step).trans (hbelow step)⟩
    · exact .inr fun step => (hinner step).trans (hstep step)
  | dynamic => .inr fun step => by rw [decodeWith]
  | leaf _ | list _ _ | map _ _ | grouping _ _ _ | tuple _ _ _ | record _ _ | custom _ _ _ => by
    refine .inl ⟨_, ?_, fun _ => rfl⟩
    trivial

/-- What a dynamic document is read as, with any number of steps, it is read as with every number
    that is greater than its `depth`. No chain is assumed to find guarded converters here: a run
    that ends well shows that the steps sufficed. -/
theorem decodeDynamic_of_depth_lt {resolve : Ty → Except Error Converter} {steps steps' : Nat}
    {v : Value} (h : decodeDynamic resolve steps d = .ok v) (hsteps' : d.depth < steps') :
    decodeDynamic resolve steps' d = .ok v := by
  induction steps generalizing d v steps' with
  | zero => cases h
  | succ steps ih =>
    rw [decodeDynamic] at h
    obtain ⟨t, ht, h⟩ := Sequence.exists_of_bind_eq_ok h
    have hinfer : d.inferType = .ok t := by
      cases hinfer : d.inferType <;> rw [hinfer] at ht
      · cases ht
      · exact ht
    obtain ⟨steps', rfl⟩ := Nat.exists_eq_add_of_lt hsteps'
    by_cases hdynamic : (t == .dynamic) = true
    · -- Only null is read without a converter, and one step is enough for it.
      rw [if_pos hdynamic] at h
      rw [decodeDynamic, hinfer]
      exact (if_pos hdynamic).trans h
    · rw [if_neg hdynamic] at h
      obtain ⟨c, hc, h⟩ := Sequence.exists_of_bind_eq_ok h
      have hnull : d.isNull = false := by
        cases d <;> first | rfl | skip
        rw [Datum.inferType] at hinfer
        exact absurd (Except.ok.inj hinfer ▸ Ty.same_refl .dynamic) hdynamic
      rcases exists_guarded_or_step hnull c with ⟨inner, hguarded, hinner⟩ | hstep
      · -- The next dynamic steps are taken on what lies deeper.
        rw [decodeDynamic, hinfer]
        show (if t == .dynamic then _ else resolve t >>= _) = _
        rw [if_neg hdynamic, hc]
        show decodeWith _ c d = _
        rw [hinner] at h ⊢
        refine decodeWith_related (R := .passing) (fun c p hp => ?_) inner (.inl hguarded) v h
        refine decodeWith_related_below (R := .passing) (fun q hq a ha => ?_) c hp
        exact ih ha (by omega)
      · -- The same step would be taken again, with one less to go.
        rw [hstep] at h
        exact ih h hsteps'

end Decode

end Converter

end DocQuery
