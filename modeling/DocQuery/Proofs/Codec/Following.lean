import DocQuery.Proofs.Codec.Infer
import DocQuery.Proofs.Codec.Lockstep
import DocQuery.Proofs.Codec.Session

/-!
# Converters in sessions

Where sessions find the converters of dynamic data as a pure look-up does, reading and writing by a
converter in a session follows reading and writing by the same converter with the look-up.

## Key results

- `Converter.decode_follows`: reading in a session follows reading by a pure look-up
- `Converter.encode_follows`: writing in a session follows writing by a pure look-up
-/

namespace DocQuery

/-- A session and the pure computation that it follows. -/
def Lockstep.following (inv : ConverterCache → Prop) : Lockstep Session (Except Error) where
  Related := Session.Follows inv
  pure := .pure
  throw := .throw
  bind := fun hs hf => hs.bind fun a _ => hf a

namespace Converter

open Session (Follows)

variable {inv : ConverterCache → Prop} {names : Naming} {resolve : Ty → Session Converter}
  {pureResolve : Ty → Except Error Converter}

/-! ## Reading -/

/-- `decodeDynamic` in a session follows `decodeDynamic` with the look-up, however many steps it may
    take. -/
theorem decodeDynamic_follows
    (h : ∀ t, t.Named names → Follows inv (resolve t) (pureResolve t)) (steps : Nat) (d : Datum) :
    Follows inv (decodeDynamic resolve steps d) (decodeDynamic pureResolve steps d) := by
  induction steps generalizing d with
  | zero => exact .throw _
  | succ steps ih =>
    rw [decodeDynamic, decodeDynamic]
    refine (Follows.ofExcept _).bind fun type htype => ?_
    split
    · -- The inferred type names nothing that is not in the naming, so its converter is found alike.
      exact .pure _
    · have hnamed : type.Named names := by
        cases hinfer : d.inferType <;> rw [hinfer] at htype
        · cases htype
        · exact Datum.named_of_inferType (hinfer.trans htype)
      exact (h type hnamed).bind fun c _ =>
        decodeWith_related_of_steps (R := .following inv) ih c d

/-- `decode` in a session follows `decode` with a pure look-up, where finding the converters of
    types over the naming does. -/
theorem decode_follows (h : ∀ t, t.Named names → Follows inv (resolve t) (pureResolve t))
    (c : Converter) (d : Datum) : Follows inv (c.decode resolve d) (c.decode pureResolve d) :=
  decodeWith_related_of_steps (R := .following inv) (decodeDynamic_follows h _) c d

/-! ## Writing -/

/-- `encodeDynamic` in a session follows `encodeDynamic` with the look-up, however many steps it may
    take. -/
theorem encodeDynamic_follows
    (h : ∀ t, t.Named names → Follows inv (resolve t) (pureResolve t)) (steps : Nat) (v : Value)
    (hv : v.Named names) :
    Follows inv (encodeDynamic resolve steps v) (encodeDynamic pureResolve steps v) := by
  induction steps generalizing v with
  | zero => exact .throw _
  | succ steps ih =>
    rw [encodeDynamic, encodeDynamic]
    split
    · exact .pure _
    · -- Here it is the runtime type of the value that must be over the naming.
      exact (h _ hv.runtimeType).bind fun c _ =>
        encodeWith_related_of_steps (R := .following inv) ih c hv

/-- `encode` in a session follows `encode` with a pure look-up, where finding the converters of
    types over the naming does. -/
theorem encode_follows (h : ∀ t, t.Named names → Follows inv (resolve t) (pureResolve t))
    (c : Converter) {v : Value} (hv : v.Named names) :
    Follows inv (c.encode resolve v) (c.encode pureResolve v) :=
  encodeWith_related_of_steps (R := .following inv) (encodeDynamic_follows h _) c hv

end Converter

end DocQuery
