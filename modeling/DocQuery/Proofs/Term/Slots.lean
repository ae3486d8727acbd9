import Mathlib.Data.List.Flatten
import Mathlib.Data.List.Perm.Basic
import Mathlib.Data.List.Perm.Subperm
import DocQuery.Proofs.Number.Exact
import DocQuery.Proofs.Term.Wire

/-!
# Slots of functions

A term refers to the parameters of its functions by the numbers of slots. It is closed when every
reference stands in the body of a function that lists its number. A compilation hands out slots in
order, and the terms that it emits use every part that it compiled at most once, so no number is
listed twice.

## Key results

- `Term.Emitted.closed`: emitted terms refer to slots in scope only
- `Term.Emitted.fresh`: the slots that emitted terms list were handed out meanwhile, each once
-/

namespace DocQuery

/-- The number that stands for a slot in a term, as `Binary.ofInt` rounds it. -/
def numeral (slot : Nat) : Binary64 := Binary.ofInt slot

/-- Slots up to `2 ^ 53`, the greatest safe integer and one more, have different numbers. -/
theorem numeral_inj {s s' : Nat} (hs : s ≤ 9007199254740992) (hs' : s' ≤ 9007199254740992)
    (h : numeral s = numeral s') : s = s' := by
  have hvalue : (numeral s).toRat? = some ((s : Int) : Rat) := Binary.toRat?_ofInt (by omega)
  have hvalue' : (numeral s').toRat? = some ((s' : Int) : Rat) := Binary.toRat?_ofInt (by omega)
  rw [h, hvalue'] at hvalue
  have hcast : ((s' : Int) : Rat) = ((s : Int) : Rat) := Option.some.inj hvalue
  exact_mod_cast hcast.symm

/-- A kind whose terms hold no datum and neither read nor list slots: all but `datum`, `var` and
    `func`. -/
def TermKind.plain : TermKind → Bool
  | .datum | .var | .func => false
  | _ => true

namespace Term

/-! ## Closed terms and listed slots -/

/-- Every reference stands in the body of a `func` that lists its number, or its number is among
    `bound`. Functions list numbers and have one body. -/
inductive Closed : List Binary64 → Term → Prop where
  | var {bound : List Binary64} {x : Binary64} (h : x ∈ bound) :
    Closed bound (node .var [literal (.number x)])
  | func {bound params : List Binary64} {body : Term} (hbody : Closed (bound ++ params) body) :
    Closed bound (node .func [makeArray (params.map fun x => literal (.number x)), body])
  | other {bound : List Binary64} {t : Term} (hvar : t.kind ≠ .var) (hfunc : t.kind ≠ .func)
    (hparts : ∀ part ∈ t.parts, Closed bound part) : Closed bound t

/-- The number of a literal with a number, such as a slot. -/
def number? : Term → Option Binary64
  | mk _ _ _ (some (.number x)) => some x
  | _ => none

/-- The numbers that a `func` lists, in the array that is its first argument. -/
def parameters : Term → List Binary64
  | mk .func (list :: _) _ _ => list.args.filterMap number?
  | _ => []

mutual

/-- The numbers that the functions anywhere in a term list, in the order of the term. -/
def binders : Term → List Binary64
  | mk kind args options datum =>
    parameters (mk kind args options datum) ++ (bindersOfArgs args ++ bindersOfOptions options)

/-- The `binders` of arguments. -/
def bindersOfArgs : List Term → List Binary64
  | [] => []
  | t :: rest => binders t ++ bindersOfArgs rest

/-- The `binders` of options. -/
def bindersOfOptions : List (String × Term) → List Binary64
  | [] => []
  | (_, t) :: rest => binders t ++ bindersOfOptions rest

end

/-- `bindersOfArgs` are the `binders` of each argument. -/
theorem bindersOfArgs_eq_flatMap (args : List Term) :
    bindersOfArgs args = args.flatMap binders := by
  induction args with
  | nil => rfl
  | cons t rest ih => rw [bindersOfArgs, ih, List.flatMap_cons]

/-- `bindersOfOptions` are the `binders` of each value. -/
theorem bindersOfOptions_eq_flatMap (options : List (String × Term)) :
    bindersOfOptions options = (options.map Prod.snd).flatMap binders := by
  induction options with
  | nil => rfl
  | cons m rest ih => rw [bindersOfOptions, ih, List.map_cons, List.flatMap_cons]

/-- A term lists its own `parameters` and then those of its parts. -/
theorem binders_eq (t : Term) : t.binders = t.parameters ++ t.parts.flatMap binders := by
  obtain ⟨kind, args, options, datum⟩ := t
  rw [binders, bindersOfArgs_eq_flatMap, bindersOfOptions_eq_flatMap, ← List.flatMap_append]
  rfl

/-- Only a `func` has `parameters` of its own. -/
theorem parameters_of_ne_func {t : Term} (h : t.kind ≠ .func) : t.parameters = [] := by
  rw [parameters]
  rintro _ _ _ _ rfl
  exact h rfl

@[simp] theorem binders_literal (d : Datum) : (literal d).binders = [] := rfl

@[simp] theorem binders_var (n : Nat) : (var n).binders = [] := rfl

/-- The numbers that stand for slots are found by `number?`. -/
theorem filterMap_number?_slots (slots : List Nat) :
    (slots.map slot).filterMap number? = slots.map numeral := by
  rw [List.filterMap_map, show number? ∘ slot = some ∘ numeral from rfl, List.filterMap_eq_map]

/-- The list of slots lists nothing by itself. -/
theorem binders_slots (slots : List Nat) : (makeArray (slots.map slot)).binders = [] := by
  have hparts : (makeArray (slots.map slot)).parts = slots.map slot := List.append_nil _
  -- A list of slots is no function, and a literal binds nothing.
  have hkind : (makeArray (slots.map slot)).kind ≠ .func := TermKind.noConfusion
  rw [binders_eq, parameters_of_ne_func hkind, List.nil_append, hparts,
    List.flatMap_eq_nil_iff]
  intro t ht
  obtain ⟨n, -, rfl⟩ := List.mem_map.mp ht
  exact binders_literal _

/-- A `func` lists its slots and then those in its body. -/
theorem binders_func (slots : List Nat) (body : Term) :
    (func slots body).binders = slots.map numeral ++ body.binders := by
  have hown : (func slots body).parameters = slots.map numeral := filterMap_number?_slots slots
  have hparts : (func slots body).parts = [makeArray (slots.map slot), body] := rfl
  rw [binders_eq, hown, hparts, List.flatMap_cons, List.flatMap_singleton, binders_slots,
    List.nil_append]

/-! ## Emitted terms -/

/-- Terms that a compilation emits while it hands out the slots from `first` up to `last`, where the
    slots `bound` are in scope. What was compiled may be put into a `node`, reordered or dropped,
    but not used twice. Literals hold datums that are `carried`, and arrays have no options. -/
inductive Emitted (carried : Datum → Prop) : List Nat → Nat → Nat → List Term → Prop where
  | nil {bound : List Nat} {first last : Nat} (h : first ≤ last) :
    Emitted carried bound first last []
  | append {bound : List Nat} {first middle last : Nat} {ts us : List Term}
    (hleft : Emitted carried bound first middle ts)
    (hright : Emitted carried bound middle last us) : Emitted carried bound first last (ts ++ us)
  | subperm {bound : List Nat} {first last : Nat} {ts us : List Term}
    (h : Emitted carried bound first last ts) (hsub : us.Subperm ts) :
    Emitted carried bound first last us
  | literal {bound : List Nat} {first last : Nat} {d : Datum} {rest : List Term} (hd : carried d)
    (hrest : Emitted carried bound first last rest) :
    Emitted carried bound first last (literal d :: rest)
  | var {bound : List Nat} {first last n : Nat} {rest : List Term} (hn : n ∈ bound)
    (hrest : Emitted carried bound first last rest) :
    Emitted carried bound first last (var n :: rest)
  | node {bound : List Nat} {first last : Nat} {kind : TermKind} {args rest : List Term}
    {options : List (String × Term)} (hkind : kind.plain = true)
    (harray : kind = .makeArray → options = []) (hnodup : (options.map Prod.fst).Nodup)
    (h : Emitted carried bound first last ((mk kind args options none).parts ++ rest)) :
    Emitted carried bound first last (mk kind args options none :: rest)
  | func {bound : List Nat} {first last count : Nat} {body : Term}
    (h : Emitted carried (bound ++ List.range' first count) (first + count) last [body]) :
    Emitted carried bound first last [func (List.range' first count) body]

/-- Numbers of slots from `first` up to `last`, each at most once. -/
def Fresh (first last : Nat) (xs : List Binary64) : Prop :=
  ∃ slots : List Nat, xs = slots.map numeral ∧ slots.Nodup ∧ ∀ s ∈ slots, first ≤ s ∧ s < last

namespace Fresh

variable {first middle last : Nat} {xs ys : List Binary64}

theorem nil : Fresh first last [] := ⟨[], rfl, .nil, List.forall_mem_nil _⟩

/-- The numbers of a run of slots are `Fresh` in its range. -/
theorem range' (first count : Nat) :
    Fresh first (first + count) ((List.range' first count).map numeral) :=
  ⟨List.range' first count, rfl, List.nodup_range', fun _ hs => List.mem_range'_1.mp hs⟩

/-- Numbers that are `Fresh` in ranges one behind the other are together, as slots handed out later
    are other slots. -/
theorem append (hx : Fresh first middle xs) (hy : Fresh middle last ys) (hfirst : first ≤ middle)
    (hlast : middle ≤ last) : Fresh first last (xs ++ ys) := by
  obtain ⟨slots, rfl, hnodup, hslots⟩ := hx
  obtain ⟨later, rfl, hnodup', hlater⟩ := hy
  refine ⟨slots ++ later, List.map_append.symm, hnodup.append hnodup' ?_, ?_⟩
  · intro s hs hs'
    have := hslots s hs
    -- The earlier slots end where the later ones start.
    have := hlater s hs'
    omega
  · intro s hs
    rcases List.mem_append.mp hs with hs | hs
    · have := hslots s hs
      omega
    · have := hlater s hs
      omega

/-- Numbers that are `Fresh` may be reordered and dropped. -/
theorem subperm (h : Fresh first last xs) (hsub : ys.Subperm xs) : Fresh first last ys := by
  obtain ⟨slots, rfl, hnodup, hslots⟩ := h
  -- Dropping and reordering numbers is dropping and reordering the slots they stand for.
  obtain ⟨zs, hperm, hsublist⟩ := hsub
  obtain ⟨kept, hkept, rfl⟩ := List.sublist_map_iff.mp hsublist
  obtain ⟨kept', rfl, hperm'⟩ : ∃ kept' : List Nat, ys = kept'.map numeral ∧ kept'.Perm kept := by
    have hcomp := congrFun (congrFun (List.eq_map_comp_perm numeral) ys) kept
    exact hcomp.mpr hperm.symm
  refine ⟨kept', rfl, hperm'.symm.nodup (hkept.nodup hnodup), fun s hs => ?_⟩
  exact hslots s (hkept.subset (hperm'.subset hs))

/-- Up to the slot `2 ^ 53`, different slots have different numbers, so `Fresh` numbers have no
    duplicates. -/
theorem nodup (h : Fresh first last xs) (hlast : last ≤ 9007199254740993) : xs.Nodup := by
  obtain ⟨slots, rfl, hnodup, hslots⟩ := h
  refine hnodup.map_on fun s hs s' hs' heq => ?_
  have := hslots s hs
  have := hslots s' hs'
  exact numeral_inj (by omega) (by omega) heq

end Fresh

/-- The `binders` are reordered and dropped with their terms. -/
theorem flatMap_binders_subperm {ts us : List Term} (h : us.Subperm ts) :
    (us.flatMap binders).Subperm (ts.flatMap binders) := by
  obtain ⟨kept, hperm, hsub⟩ := h
  exact ⟨kept.flatMap binders, hperm.flatMap_right binders, hsub.flatMap binders⟩

namespace Emitted

variable {carried : Datum → Prop} {bound : List Nat} {first last : Nat} {ts : List Term}

/-- No slot is taken back: `Emitted` terms end at a slot at or behind the one they started from. -/
theorem le (h : Emitted carried bound first last ts) : first ≤ last := by
  induction h with
  | nil h => exact h
  | append _ _ hleft hright => exact hleft.trans hright
  | subperm _ _ ih | literal _ _ ih | var _ _ ih | node _ _ _ _ ih => exact ih
  | func _ ih => omega

/-- `Emitted` terms are `Closed`: they refer to slots in scope and to those of their own
    functions. -/
theorem closed (h : Emitted carried bound first last ts) :
    ∀ t ∈ ts, t.Closed (bound.map numeral) := by
  induction h with
  | nil => exact List.forall_mem_nil _
  | append _ _ hleft hright =>
    intro t ht
    rcases List.mem_append.mp ht with ht | ht
    · exact hleft t ht
    · exact hright t ht
  | subperm _ hsub ih => exact fun t ht => ih t (hsub.subset ht)
  -- A literal refers to nothing.
  | literal _ _ ih =>
    rw [List.forall_mem_cons]
    exact ⟨.other TermKind.noConfusion TermKind.noConfusion (List.forall_mem_nil _), ih⟩
  | var hn _ ih =>
    rw [List.forall_mem_cons]
    exact ⟨.var (List.mem_map_of_mem hn), ih⟩
  | @node _ _ _ kind _ _ _ hkind _ _ _ ih =>
    rw [List.forall_mem_append] at ih
    rw [List.forall_mem_cons]
    refine ⟨.other ?_ ?_ ih.1, ih.2⟩
    · -- A plain kind is neither that of references nor that of functions.
      rintro rfl
      cases hkind
    · rintro rfl
      cases hkind
  | @func _ first _ count body _ ih =>
    -- The body sees the slots of the function besides those in scope.
    rw [List.forall_mem_singleton] at ih ⊢
    rw [List.map_append] at ih
    have hslots : (List.range' first count).map slot
        = ((List.range' first count).map numeral).map fun x => Term.literal (.number x) := by
      rw [List.map_map]
      rfl
    rw [Term.func, hslots]
    exact .func ih

/-- The `binders` of `Emitted` terms were handed out meanwhile, each once. -/
theorem fresh (h : Emitted carried bound first last ts) :
    Fresh first last (ts.flatMap binders) := by
  induction h with
  | nil => exact .nil
  | append hts hus hleft hright =>
    -- What was emitted later took the slots from where the earlier terms had stopped.
    rw [List.flatMap_append]
    exact hleft.append hright hts.le hus.le
  | subperm _ hsub ih => exact ih.subperm (flatMap_binders_subperm hsub)
  | literal _ _ ih => rwa [List.flatMap_cons, binders_literal, List.nil_append]
  | var _ _ ih => rwa [List.flatMap_cons, binders_var, List.nil_append]
  | @node _ _ _ kind _ _ _ hkind _ _ _ ih =>
    -- A plain node lists nothing by itself, and its parts stand in its place.
    have hfunc : kind ≠ .func := by
      rintro rfl
      cases hkind
    rw [List.flatMap_cons, binders_eq,
      parameters_of_ne_func (t := mk kind _ _ none) hfunc, List.nil_append, ← List.flatMap_append]
    exact ih
  | func hbody ih =>
    -- The slots of the function come before those of its body.
    rw [List.flatMap_singleton] at ih ⊢
    rw [binders_func]
    exact (Fresh.range' _ _).append ih (by omega) hbody.le

end Emitted

end Term

end DocQuery
