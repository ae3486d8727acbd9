import DocQuery.Proofs.Everywhere
import DocQuery.Proofs.Members
import DocQuery.Proofs.Number.Exact
import DocQuery.Term.Wire

/-!
# The wire form of literals reads back

A literal that can be sent has finite numbers and objects with distinct keys. Its wire form reads
back as a literal with the same datum: arrays come back out of the terms that stand for them, and
objects of literals are literals.

## Key results

- `Datum.safeInteger?_beq`: a number that is written as an integer is that integer
- `Datum.ofWire_toWire_literal`: the wire form of a literal reads back as the literal
-/

namespace DocQuery.Datum

/-- The datums that a datum holds directly. -/
def parts : Datum → List Datum
  | array items => items
  | object members => members.map Prod.snd
  | _ => []

/-- The `parts` of a datum are smaller than the datum. -/
theorem sizeOf_lt_of_mem_parts (d : Datum) : ∀ part ∈ d.parts, sizeOf part < sizeOf d := by
  intro part hpart
  cases d with
  | array items =>
    have hpart : part ∈ items := hpart
    have := List.sizeOf_lt_of_mem hpart
    simp
    omega
  -- Members are pairs, and the size of a value is below that of its pair.
  | object members =>
    obtain ⟨⟨key, part⟩, hmember, rfl⟩ := List.mem_map.mp hpart
    have := List.sizeOf_lt_of_mem hmember
    simp at this ⊢
    omega
  | _ => cases hpart

/-- Induction on the `parts` of a datum, whether they are items or members. -/
theorem parts_induction {motive : Datum → Prop}
    (node : ∀ d, (∀ part ∈ d.parts, motive part) → motive d) (d : Datum) : motive d := by
  have hall : Everywhere parts (fun _ => True) d :=
    .of_forall sizeOf_lt_of_mem_parts (fun _ => trivial) d
  induction hall with
  | intro _ _ ih => exact node _ ih

/-- `ofJsonItems` is `ofJson` on each item. -/
theorem ofJsonItems_eq (items : List Json) : ofJsonItems items = items.map ofJson := by
  induction items with
  | nil => rfl
  | cons j rest ih => rw [ofJsonItems, ih, List.map_cons]

/-- `ofJsonMembers` is `ofJson` on each value. -/
theorem ofJsonMembers_eq (members : List (String × Json)) :
    ofJsonMembers members = members.map fun m => (m.1, ofJson m.2) := by
  induction members with
  | nil => rfl
  | cons m rest ih => rw [ofJsonMembers, ih, List.map_cons]

/-- The numbers of a datum are finite and the keys of an object distinct. -/
def SendableNode : Datum → Prop
  | number x => x.isFinite = true
  | object members => (members.map Prod.fst).Nodup
  | _ => True

/-- A datum with finite numbers and objects with distinct keys, at every depth. -/
abbrev Sendable : Datum → Prop := Everywhere parts SendableNode

/-! ## Numbers -/

/-- `safeInteger?` gives the integer that a number is exactly, provided that it is safe. -/
theorem safeInteger?_eq_some_iff {x : Binary64} {n : Int} :
    safeInteger? x = some n ↔ x.toRat? = some (n : Rat) ∧ n.natAbs ≤ maxSafeInteger := by
  rw [safeInteger?]
  cases x.toRat? with
  | none => simp
  | some q =>
    constructor
    · intro h
      dsimp only at h
      -- Its denominator is one, so the number is its numerator.
      split_ifs at h with hsafe
      obtain rfl := Option.some.inj h
      have hden : q.den = 1 := by simpa [Rounding.isIntegral] using hsafe.1
      exact ⟨congrArg some (Rat.coe_int_num_of_den_eq_one hden).symm, hsafe.2⟩
    · rintro ⟨hq, hsafe⟩
      obtain rfl := Option.some.inj hq
      exact if_pos ⟨by simp [Rounding.isIntegral], hsafe⟩

/-- The integer that `safeInteger?` gives is equal to the number. -/
theorem safeInteger?_beq {x : Binary64} {n : Int} (h : safeInteger? x = some n) :
    (Binary.ofInt n == x) = true := by
  obtain ⟨hexact, hsafe⟩ := safeInteger?_eq_some_iff.mp h
  exact Binary.beq_of_toRat? (Binary.toRat?_ofInt hsafe) hexact

theorem natAbs_le_of_safeInteger? {x : Binary64} {n : Int} (h : safeInteger? x = some n) :
    n.natAbs ≤ maxSafeInteger :=
  (safeInteger?_eq_some_iff.mp h).2

theorem safeInteger?_ofInt {n : Int} (h : n.natAbs ≤ maxSafeInteger) :
    safeInteger? (Binary.ofInt n) = some n :=
  safeInteger?_eq_some_iff.mpr ⟨Binary.toRat?_ofInt h, h⟩

/-- `toJson` writes a finite number as a scalar, which `ofWire` reads as an equal number. -/
theorem ofWire_toJson_number {x : Binary64} (h : x.isFinite = true) :
    ∃ y : Binary64, Term.ofWire (number x).toJson = .ok (.literal (number y)) ∧
      (y == x) = true := by
  rw [toJson]
  cases hx : safeInteger? x with
  | none => exact ⟨x, rfl, Binary.beq_self_of_isFinite h⟩
  | some n => exact ⟨Binary.ofInt n, rfl, safeInteger?_beq hx⟩

/-! ## Literals -/

/-- `literals?` finds the datums of a list of literals. -/
theorem literals?_map_literal (ds : List Datum) :
    Term.literals? (ds.map Term.literal) = some ds := by
  induction ds with
  | nil => rfl
  | cons d ds ih => simp [Term.literals?, Term.isDatum, Term.literal, Term.kind, Term.datum, ih]

/-- `collapse` makes an array of literals a literal. -/
theorem collapse_map_literal (ds : List Datum) :
    Term.collapse .makeArray (ds.map Term.literal) [] = .literal (array ds) := by
  rw [Term.collapse, if_pos rfl, literals?_map_literal]

/-- `ofMembers` makes an object of literals a literal. -/
theorem ofMembers_map_literal (ms : List (String × Datum)) :
    Term.ofMembers (ms.map fun m => (m.1, Term.literal m.2)) = .literal (object ms) := by
  have hsnd : (ms.map fun m => (m.1, Term.literal m.2)).map Prod.snd
      = (ms.map Prod.snd).map Term.literal := by simp
  have hfst : (ms.map fun m => (m.1, Term.literal m.2)).map Prod.fst = ms.map Prod.fst := by simp
  rw [Term.ofMembers, hsnd, literals?_map_literal, hfst]
  -- Keys and values are taken apart for the check and put together again in their order.
  have hzip : (ms.map Prod.fst).zip (ms.map Prod.snd) = ms := by
    rw [List.zip_map', List.map_id']
  simp only [hzip]

/-- The wire form of a literal reads back as the literal. -/
def ReadsBack (d : Datum) : Prop :=
  ∃ j d', d.toWire = .ok j ∧ Term.ofWire j = .ok (.literal d') ∧ same d' d = true

/-- Items that `ReadsBack` one by one read back together. -/
theorem readsBack_items {items : List Datum} (h : ∀ d ∈ items, ReadsBack d) :
    ∃ js ds, toWireItems items = .ok js ∧ Term.ofWireArgs js = .ok (ds.map Term.literal) ∧
      sameItems ds items = true := by
  induction items with
  | nil => exact ⟨[], [], rfl, rfl, rfl⟩
  | cons d items ih =>
    obtain ⟨j, d', hwrite, hread, hsame⟩ := h d (.head _)
    -- The first item is written and read on its own, and the rest after it.
    obtain ⟨js, ds, hwrites, hreads, hsames⟩ := ih fun x hx => h x (.tail _ hx)
    refine ⟨j :: js, d' :: ds, ?_, ?_, ?_⟩
    · rw [toWireItems, hwrite, hwrites]; rfl
    · rw [Term.ofWireArgs, hread, hreads]; rfl
    · rw [sameItems, hsame, hsames]; rfl

/-- Members with new and distinct keys that `ReadsBack` one by one read back together. -/
theorem readsBack_members {members : List (String × Datum)} (done : List (String × Json))
    (h : ∀ m ∈ members, ReadsBack m.2) (hnodup : (members.map Prod.fst).Nodup)
    (hdisj : ∀ k ∈ done.map Prod.fst, k ∉ members.map Prod.fst) :
    ∃ js ds, toWireMembers done members = .ok (done ++ js) ∧
      Term.ofWireMembers js = .ok (ds.map fun m => (m.1, Term.literal m.2)) ∧
      sameMembers ds members = true := by
  -- Writing collects the members in `done`. Each key is new there, so it goes to the end.
  induction members generalizing done with
  | nil => exact ⟨[], [], by rw [List.append_nil]; rfl, rfl, rfl⟩
  | cons m members ih =>
    obtain ⟨key, d⟩ := m
    rw [List.map_cons, List.nodup_cons] at hnodup
    obtain ⟨j, d', hwrite, hread, hsame⟩ := h _ (.head _)
    have hnew : key ∉ done.map Prod.fst := fun hmem => hdisj _ hmem (List.mem_cons_self ..)
    have hlater : ∀ k ∈ done.map Prod.fst, k ∉ members.map Prod.fst :=
      fun k hk hrest => hdisj k hk (List.mem_cons_of_mem _ hrest)
    obtain ⟨js, ds, hwrites, hreads, hsames⟩ :=
      ih (done ++ [(key, j)]) (fun x hx => h x (.tail _ hx)) hnodup.2
        (Members.names_disjoint_append j hnodup.1 hlater)
    refine ⟨(key, j) :: js, (key, d') :: ds, ?_, ?_, ?_⟩
    · rw [toWireMembers, hwrite]
      show toWireMembers (Members.set key j done) members = _
      rw [Members.set_of_notMem hnew, hwrites, List.append_assoc, List.singleton_append]
    · rw [Term.ofWireMembers, hread, hreads]; rfl
    · simp [sameMembers, hsame, hsames]

/-- A `Sendable` literal `ReadsBack`: its wire form is read as a literal with the same datum. -/
theorem ofWire_toWire_literal {d : Datum} (h : d.Sendable) : ReadsBack d := by
  induction h with
  | @intro d top rest ih =>
    cases d with
    | null => exact ⟨.null, null, rfl, rfl, rfl⟩
    | bool b => exact ⟨.bool b, bool b, rfl, rfl, by simp [same]⟩
    | string s => exact ⟨.string s, string s, rfl, rfl, by simp [same]⟩
    | number x =>
      have hfinite : x.isFinite = true := top
      obtain ⟨y, hread, hsame⟩ := ofWire_toJson_number hfinite
      exact ⟨(number x).toJson, number y, by rw [toWire, if_pos hfinite], hread, hsame⟩
    | array items =>
      -- Written as a term, so what is read is an array of literals, which collapses.
      have hall : ∀ d ∈ items, ReadsBack d := ih
      obtain ⟨js, ds, hwrites, hreads, hsames⟩ := readsBack_items hall
      refine ⟨.array [.integer TermKind.makeArray.id, .array js], array ds, ?_, ?_, hsames⟩
      · rw [toWire, hwrites]; rfl
      · rw [Term.ofWire_node (by decide), hreads]
        exact congrArg Except.ok (collapse_map_literal ds)
    | object members =>
      -- Written as it stands. Members whose values read as literals make a literal.
      have hall : ∀ m ∈ members, ReadsBack m.2 := fun m hm =>
        ih m.2 (List.mem_map_of_mem hm)
      obtain ⟨js, ds, hwrites, hreads, hsames⟩ :=
        readsBack_members [] hall top fun _ hk => absurd hk List.not_mem_nil
      refine ⟨.object js, object ds, ?_, ?_, hsames⟩
      · rw [toWire, hwrites]; rfl
      · rw [Term.ofWire, hreads]
        exact congrArg Except.ok (ofMembers_map_literal ds)

end DocQuery.Datum
