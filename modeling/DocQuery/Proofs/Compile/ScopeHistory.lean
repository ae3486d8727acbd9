import Mathlib.Data.List.Range
import DocQuery.Proofs.Compile.Lowering
import DocQuery.Proofs.Members

/-!
# Scopes in the course of a compilation

In the course of a compilation parameters are bound and dropped again, some are refused, and more
may be dropped than are bound. Whatever the order, the names that are bound are different, and the
slots increase inwards. Slots are handed out one after the other: those of dropped bindings never
come up again. A parameter is read from its binding, and there is at most one.

Slots are counted without a bound here. As words of 64 bits they are the same as long as fewer than
`2 ^ 64` are handed out.

## Key results

- `Scope.slotOf_eq_ok_iff`: what is bound is what is read
- `Scope.advances_step`: what one change does
- `Scope.advances_course`: what a course of changes does
- `Scope.course_orderly`: all of it, from the empty scope on
-/

namespace DocQuery.Scope

variable {scope inner : Scope} {params : List Parameter}

/-! ## Orderly scopes -/

/-- Names are bound once. The slots increase from the outermost binding inwards, and `nextSlot` is
    beyond them. -/
structure Orderly (scope : Scope) : Prop where
  names : (scope.bindings.map fun b => b.1.name).Nodup
  slots : (scope.bindings.map Prod.snd).Pairwise (· < ·)
  below : ∀ slot ∈ scope.bindings.map Prod.snd, slot < scope.nextSlot

/-- `empty` binds nothing, so it is `Orderly`. -/
theorem orderly_empty : empty.Orderly := ⟨.nil, .nil, List.forall_mem_nil _⟩

/-- Where `firstTaken` finds no parameter, the names of the parameters differ from those that are
    `taken` and from each other. -/
theorem nodup_of_firstTaken {taken : List String} (htaken : taken.Nodup)
    (h : firstTaken taken params = none) : (taken ++ params.map Parameter.name).Nodup := by
  induction params generalizing taken with
  | nil => rwa [List.map_nil, List.append_nil]
  | cons p rest ih =>
    rw [firstTaken] at h
    split at h
    · cases h
    · rename_i hp
      -- The name joins those that are taken, so it stands before them there.
      have hrest := ih (List.nodup_cons.mpr ⟨hp, htaken⟩) h
      exact List.perm_middle.nodup_iff.mpr hrest

/-- `assign` keeps the names of the parameters in their order. -/
theorem map_name_assign (slot : Nat) (params : List Parameter) :
    (assign slot params).map (fun b => b.1.name) = params.map Parameter.name := by
  induction params generalizing slot with
  | nil => rfl
  | cons p rest ih => rw [assign, List.map_cons, List.map_cons, ih]

/-- `bind` leaves an `Orderly` scope: its check keeps the names apart, and its slots follow those in
    use. -/
theorem Orderly.bind {slots : List Nat} (h : scope.Orderly)
    (hbind : scope.bind params = .ok (slots, inner)) : inner.Orderly := by
  -- Had a parameter been taken, the scope would have been refused.
  have hnone : firstTaken (scope.bindings.map fun b => b.1.name) params = none := by
    unfold Scope.bind at hbind
    split at hbind
    · cases hbind
    · assumption
  obtain ⟨-, hbindings, hnext⟩ := bind_eq_ok hbind
  have hslots : inner.bindings.map Prod.snd =
      scope.bindings.map Prod.snd ++ List.range' scope.nextSlot params.length := by
    rw [hbindings, List.map_append, map_snd_assign]
  refine ⟨?_, ?_, ?_⟩
  · rw [hbindings, List.map_append, map_name_assign]
    exact nodup_of_firstTaken h.names hnone
  · rw [hslots]
    refine List.pairwise_append.mpr ⟨h.slots, List.pairwise_lt_range', fun old hold new hnew => ?_⟩
    -- The slots in use are below the next one, and new slots start there.
    exact Nat.lt_of_lt_of_le (h.below old hold) (List.mem_range'_1.mp hnew).1
  · rw [hslots, hnext]
    intro slot hslot
    rcases List.mem_append.mp hslot with hold | hnew
    · exact Nat.lt_add_right _ (h.below slot hold)
    · exact (List.mem_range'_1.mp hnew).2

/-- `unbind` keeps a scope `Orderly`, even when it drops more than there is. -/
theorem Orderly.unbind (h : scope.Orderly) (count : Nat) : (scope.unbind count).Orderly := by
  -- What stays is a first part of the bindings, and `nextSlot` is as it was.
  refine ⟨?_, ?_, ?_⟩
  · rw [Scope.unbind, List.map_take]
    exact h.names.sublist (List.take_sublist ..)
  · rw [Scope.unbind, List.map_take]
    exact h.slots.sublist (List.take_sublist ..)
  · rw [Scope.unbind, List.map_take]
    exact fun slot hslot => h.below slot (List.mem_of_mem_take hslot)

/-- The search of `slotOf` from the innermost binding finds every binding of an `Orderly` scope by
    its name: with one binding for each name, the direction does not matter. -/
theorem Orderly.find?_eq_some_iff (h : scope.Orderly) {name : String} {b : Parameter × Nat} :
    (scope.bindings.reverse.find? fun b => b.1.name == name) = some b ↔
      b ∈ scope.bindings ∧ b.1.name = name := by
  have hnames : (scope.bindings.reverse.map fun b => b.1.name).Nodup := by
    rw [List.map_reverse]
    exact List.nodup_reverse.mpr h.names
  rw [Members.find?_key_eq_some_iff hnames, List.mem_reverse]

/-- `slotOf` reads a parameter of an `Orderly` scope from the binding with its name and its type,
    and fails where there is none. -/
theorem slotOf_eq_ok_iff (h : scope.Orderly) {p : Parameter} {slot : Nat} :
    scope.slotOf p = .ok slot ↔
      ∃ bound, (bound, slot) ∈ scope.bindings ∧ bound.name = p.name ∧
        (bound.type == p.type) = true := by
  unfold slotOf
  constructor
  · intro hslot
    -- There is a binding of the name, and it has to be of the parameter's type.
    split at hslot
    · rename_i bound found hfind
      split at hslot
      · rename_i htype
        obtain rfl := Except.ok.inj hslot
        obtain ⟨hbound, hname⟩ := h.find?_eq_some_iff.mp hfind
        exact ⟨bound, hbound, hname, htype⟩
      · cases hslot
    · cases hslot
  · rintro ⟨bound, hbound, hname, htype⟩
    rw [h.find?_eq_some_iff.mpr ⟨hbound, hname⟩]
    exact if_pos htype

/-- An accepted `bind` adds one binding for each parameter, with the slots that it gives. -/
theorem bindings_of_bind {slots : List Nat} (h : scope.bind params = .ok (slots, inner)) :
    slots.length = params.length ∧ inner.bindings = scope.bindings ++ params.zip slots := by
  obtain ⟨rfl, hbindings, -⟩ := bind_eq_ok h
  rw [assign_eq_zip] at hbindings
  exact ⟨List.length_range', hbindings⟩

/-! ## Changes of a scope -/

/-- What a compilation does with its scope. -/
inductive Change where
  | bind (params : List Parameter)
  | unbind (count : Nat)

/-- Makes a change and gives the slots that it hands out. -/
def Change.step : Change → Lowering (List Nat)
  | .bind params => Lowering.bind params
  | .unbind count => do
    Lowering.unbind count
    return []

/-- The slots that a change hands out. One that is refused hands out none. -/
def Change.slots (change : Change) (before : CompileState) : List Nat :=
  match (change.step.run before).1 with
  | .ok slots => slots
  | .error _ => []

/-- The state after some changes. After one that is refused, the next is made all the same. -/
def course (before : CompileState) : List Change → CompileState
  | [] => before
  | change :: rest => course (change.step.run before).2 rest

/-- The slots that some changes hand out, in their order. -/
def handedOut (before : CompileState) : List Change → List Nat
  | [] => []
  | change :: rest => change.slots before ++ handedOut (change.step.run before).2 rest

/-- The scope afterwards is `Orderly`, and the slots are those from `nextSlot` on, one after the
    other. -/
structure Advances (before : CompileState) (slots : List Nat) (after : CompileState) : Prop where
  orderly : after.scope.Orderly
  consecutive : slots = List.range' before.scope.nextSlot slots.length
  nextSlot : after.scope.nextSlot = before.scope.nextSlot + slots.length

namespace Advances

variable {first second third : CompileState} {slots more : List Nat}

theorem refl (h : first.scope.Orderly) : Advances first [] first := ⟨h, rfl, rfl⟩

/-- `Advances` one after the other hand out the slots of both, in their order. -/
theorem trans (h : Advances first slots second) (h' : Advances second more third) :
    Advances first (slots ++ more) third := by
  refine ⟨h'.orderly, ?_, ?_⟩
  · -- The second goes on with the slot that the first leaves as its next one.
    have hmore := h'.consecutive
    rw [h.nextSlot] at hmore
    rw [List.length_append, ← List.range'_append_1, ← h.consecutive, ← hmore]
  · rw [h'.nextSlot, h.nextSlot, List.length_append, Nat.add_assoc]

end Advances

/-- One `Change` `Advances` the state. Binding hands out the next slots or, where it is refused,
    changes nothing; dropping hands out no slot and gives none back. -/
theorem advances_step {before : CompileState} (h : before.scope.Orderly) (change : Change) :
    Advances before (change.slots before) (change.step.run before).2 := by
  cases change with
  | bind params =>
    rcases hbind : before.scope.bind params with e | ⟨slots, inner⟩
    · -- A refused list of parameters takes no slot and leaves the scope as it is.
      rw [Change.slots, Change.step, Lowering.run_bind_refused hbind]
      exact .refl h
    · rw [Change.slots, Change.step, Lowering.run_bind_slots hbind]
      -- An accepted one takes the next slots in a row.
      obtain ⟨rfl, -, hnext⟩ := bind_eq_ok hbind
      refine ⟨h.bind hbind, ?_, ?_⟩
      · rw [List.length_range']
      · rw [List.length_range']
        exact hnext
  | unbind count => exact ⟨h.unbind count, rfl, rfl⟩

/-- A `course` of changes `Advances` the state with the slots `handedOut` on the way. -/
theorem advances_course {before : CompileState} (h : before.scope.Orderly)
    (changes : List Change) :
    Advances before (handedOut before changes) (course before changes) := by
  induction changes generalizing before with
  | nil => exact .refl h
  | cons change rest ih =>
    -- The rest goes on from the scope and the next slot that this change leaves.
    have hstep := advances_step h change
    exact hstep.trans (ih hstep.orderly)

/-- Whatever is bound and dropped from the `empty` scope on, the scope stays `Orderly`: the names
    that are bound are different, and their slots increase inwards and are less than `nextSlot`. No
    slot is handed out twice. A `bind` that is refused leaves the state as it was, and one that is
    accepted adds a binding for each parameter. `slotOf` reads a parameter from the binding with its
    name and type. Fewer than `2 ^ 64` slots are `handedOut`, so they are the same as words. -/
theorem course_orderly (changes : List Change) (cache : ConverterCache) :
    (course ⟨.empty, cache⟩ changes).scope.Orderly ∧
      (handedOut ⟨.empty, cache⟩ changes).Nodup ∧
      (∀ params e after,
        (Lowering.bind params).run (course ⟨.empty, cache⟩ changes) = (.error e, after) →
          after = course ⟨.empty, cache⟩ changes) ∧
      (∀ params slots after,
        (Lowering.bind params).run (course ⟨.empty, cache⟩ changes) = (.ok slots, after) →
          slots.length = params.length ∧ after.scope.bindings =
            (course ⟨.empty, cache⟩ changes).scope.bindings ++ params.zip slots) ∧
      ∀ p slot, (course ⟨.empty, cache⟩ changes).scope.slotOf p = .ok slot ↔
        ∃ bound, (bound, slot) ∈ (course ⟨.empty, cache⟩ changes).scope.bindings ∧
          bound.name = p.name ∧ (bound.type == p.type) = true := by
  have hcourse : Advances ⟨.empty, cache⟩ _ _ := advances_course orderly_empty changes
  refine ⟨hcourse.orderly, ?_, fun params e after hrun => ?_, fun params slots after hrun => ?_,
    fun p slot => ?_⟩
  · -- Consecutive slots are different, also those of bindings that were dropped.
    rw [hcourse.consecutive]
    exact List.nodup_range'
  · rcases hbind : (course ⟨.empty, cache⟩ changes).scope.bind params with e' | ⟨slots, inner⟩
    · rw [Lowering.run_bind_refused hbind] at hrun
      exact (Prod.mk.inj hrun).2.symm
    · rw [Lowering.run_bind_slots hbind] at hrun
      cases hrun
  · rcases hbind : (course ⟨.empty, cache⟩ changes).scope.bind params with e | ⟨slots', inner⟩
    · rw [Lowering.run_bind_refused hbind] at hrun
      cases hrun
    · rw [Lowering.run_bind_slots hbind] at hrun
      cases hrun
      exact bindings_of_bind hbind
  · exact slotOf_eq_ok_iff hcourse.orderly

/-- The second function cannot take a name that is bound. Once it is dropped the name is free again,
    and its slot is not. -/
example : handedOut ⟨.empty, .empty⟩ [.bind [⟨"item", .string⟩],
    .bind [⟨"key", .bool⟩, ⟨"item", .bool⟩], .unbind 2, .bind [⟨"item", .bool⟩]] = [1, 2] := rfl

end DocQuery.Scope
