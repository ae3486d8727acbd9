import Mathlib.Data.List.Basic
import DocQuery.Compile.Scope
import DocQuery.Proofs.Expr.Rename

/-!
# Slots of a scope

Binding parameters hands out the slots that follow, in the order of the parameters, and dropping as
many bindings gives back the bindings from before. A parameter is read from a slot that is bound.
Where different names stay different, a scope with renamed parameters binds, reads and drops them
as the scope does.
-/

namespace DocQuery.Scope

variable {scope inner : Scope} {params : List Parameter} {slots : List Nat}

/-- `assign` gives the parameters the slots that follow `slot`, in their order. -/
theorem assign_eq_zip (slot : Nat) (params : List Parameter) :
    assign slot params = params.zip (List.range' slot params.length) := by
  induction params generalizing slot with
  | nil => rfl
  | cons p rest ih => rw [assign, ih, List.length_cons, List.range'_succ, List.zip_cons_cons]

/-- The slots that `assign` gives, without the parameters. -/
theorem map_snd_assign (slot : Nat) (params : List Parameter) :
    (assign slot params).map Prod.snd = List.range' slot params.length := by
  rw [assign_eq_zip]
  exact List.map_snd_zip (Nat.le_of_eq List.length_range')

theorem length_assign (slot : Nat) (params : List Parameter) :
    (assign slot params).length = params.length := by
  rw [← List.length_map (f := Prod.snd), map_snd_assign, List.length_range']

/-- A `bind` that succeeds gives the slots from `nextSlot` on, and the new bindings come last. -/
theorem bind_eq_ok (h : scope.bind params = .ok (slots, inner)) :
    slots = List.range' scope.nextSlot params.length ∧
      inner.bindings = scope.bindings ++ assign scope.nextSlot params ∧
      inner.nextSlot = scope.nextSlot + params.length := by
  unfold bind at h
  split at h
  · cases h
  · -- Both the slots and the inner scope are read off the same `assign`.
    obtain ⟨rfl, rfl⟩ := Prod.mk.inj (Except.ok.inj h)
    exact ⟨map_snd_assign .., rfl, rfl⟩

/-- After `unbind` with the number of the parameters, the bindings are those from before them. -/
theorem bindings_unbind {after : Scope} {slot : Nat}
    (h : after.bindings = scope.bindings ++ assign slot params) :
    (after.unbind params.length).bindings = scope.bindings := by
  rw [unbind, h, List.length_append, length_assign, Nat.add_sub_cancel]
  exact List.take_left

/-- `slotOf` reads a parameter from one of the slots in scope. -/
theorem slotOf_mem {p : Parameter} {slot : Nat} (h : scope.slotOf p = .ok slot) :
    slot ∈ scope.bindings.map Prod.snd := by
  unfold slotOf at h
  split at h
  · rename_i bound found hfind
    split at h
    · obtain rfl := Except.ok.inj h
      -- The search goes through the bindings in reverse, which have the same members.
      exact List.mem_map_of_mem (List.mem_reverse.mp (List.mem_of_find?_eq_some hfind))
    · cases h
  · cases h

/-! ## Renamed parameters -/

variable {σ : String → String}

/-- The scope with its parameters under new names. -/
def rename (σ : String → String) (scope : Scope) : Scope :=
  { scope with bindings := scope.bindings.map fun b => (b.1.rename σ, b.2) }

@[simp] theorem rename_empty : rename σ empty = empty := rfl

theorem rename_id (scope : Scope) : scope.rename id = scope :=
  congrArg (Scope.mk · scope.nextSlot) (List.map_id scope.bindings)

@[simp] theorem depth_rename (scope : Scope) : (scope.rename σ).depth = scope.depth :=
  List.length_map ..

theorem unbind_rename (scope : Scope) (count : Nat) :
    (scope.rename σ).unbind count = (scope.unbind count).rename σ := by
  simp [unbind, rename, List.map_take]

/-- `assign` gives a renamed parameter the slot of the parameter. -/
theorem assign_rename (slot : Nat) (params : List Parameter) :
    assign slot (params.map (Parameter.rename σ)) =
      (assign slot params).map fun b => (b.1.rename σ, b.2) := by
  induction params generalizing slot with
  | nil => rfl
  | cons p rest ih => rw [List.map_cons, assign, assign, ih, List.map_cons]

/-- `firstTaken` finds a renamed parameter where it found it under its old name, as no two names
    become one. -/
theorem firstTaken_rename (hσ : Function.Injective σ) (taken : List String)
    (params : List Parameter) :
    firstTaken (taken.map σ) (params.map (Parameter.rename σ)) =
      (firstTaken taken params).map (Parameter.rename σ) := by
  induction params generalizing taken with
  | nil => rfl
  | cons p rest ih =>
    -- An injective renaming takes a name to one of those renamed only if it was among them.
    have htaken : (p.rename σ).name ∈ taken.map σ ↔ p.name ∈ taken := List.mem_map_of_injective hσ
    rw [List.map_cons, firstTaken, firstTaken]
    simp only [htaken]
    split
    · rfl
    · exact ih (p.name :: taken)

/-- `bind` gives renamed parameters the same slots or refuses them as it did. The text of a refusal
    has the name in it, so it stays the same only where `σ` is `id`. -/
theorem bind_rename (hσ : Function.Injective σ) (scope : Scope) (params : List Parameter) :
    AnswersAlike σ ((scope.bind params).map fun bound => (bound.1, bound.2.rename σ))
      ((scope.rename σ).bind (params.map (Parameter.rename σ))) := by
  have hnames : (scope.rename σ).bindings.map (fun b => b.1.name) =
      (scope.bindings.map fun b => b.1.name).map σ := by
    rw [rename, List.map_map, List.map_map]
    rfl
  rw [bind, bind, hnames, firstTaken_rename hσ]
  -- The same parameter is taken in both scopes, or none is.
  cases firstTaken (scope.bindings.map fun b => b.1.name) params with
  | some p =>
    refine .error fun hid => ?_
    subst hid
    rfl
  | none =>
    have hslots : (assign scope.nextSlot (params.map (Parameter.rename σ))).map Prod.snd =
        (assign scope.nextSlot params).map Prod.snd := by
      rw [map_snd_assign, map_snd_assign, List.length_map]
    have hbindings : (scope.rename σ).bindings ++
        assign scope.nextSlot (params.map (Parameter.rename σ)) =
          (scope.bindings ++ assign scope.nextSlot params).map fun b => (b.1.rename σ, b.2) := by
      rw [List.map_append, assign_rename]
      rfl
    have hnext : (scope.rename σ).nextSlot = scope.nextSlot := rfl
    simp only [Option.map_none, hnext, hslots, hbindings, List.length_map]
    exact .ok _

/-- `slotOf` reads a renamed parameter from the slot of the parameter. -/
theorem slotOf_rename (hσ : Function.Injective σ) (scope : Scope) (p : Parameter) :
    AnswersAlike σ (scope.slotOf p) ((scope.rename σ).slotOf (p.rename σ)) := by
  have hfind : ((scope.rename σ).bindings.reverse.find? fun b => b.1.name == (p.rename σ).name) =
      (scope.bindings.reverse.find? fun b => b.1.name == p.name).map
        fun b => (b.1.rename σ, b.2) := by
    rw [rename, ← List.map_reverse, List.find?_map]
    congr 2
    -- A name is that of the binding just where the renamed one is.
    funext b
    exact Bool.eq_iff_iff.mpr (by simp [Parameter.rename, hσ.eq_iff])
  rw [slotOf, slotOf, hfind]
  cases scope.bindings.reverse.find? fun b => b.1.name == p.name with
  | none =>
    refine .error fun hid => ?_
    subst hid
    rfl
  | some found =>
    obtain ⟨bound, slot⟩ := found
    -- Renaming leaves the types as they are, so the comparison of types is the same one.
    show AnswersAlike σ (if bound.type == p.type then _ else _)
      (if bound.type == p.type then _ else _)
    split
    · exact .ok slot
    · refine .error fun hid => ?_
      subst hid
      rfl

end DocQuery.Scope
