import Mathlib.Data.String.Basic
import DocQuery.Codec.Decode
import DocQuery.Proofs.Members
import DocQuery.Proofs.Sequence

/-!
# Entries of maps

A map keeps its entries in the order of their keys, one for each member of the object that it was
read from. Members that come in this order are read as they stand.

## Key results

- `Converter.exists_of_decodeEntries`: entries are the members read, in the order of their keys
- `Converter.decodeEntries_of_forall₂`: members in the order of their keys are read as they stand
-/

namespace DocQuery

namespace Value

/-- `insertEntry` puts a new entry beside those that were there before. -/
theorem insertEntry_perm {key : String} {entries : List (String × Value)}
    (h : key ∉ entries.map Prod.fst) (value : Value) :
    (insertEntry key value entries).Perm ((key, value) :: entries) := by
  induction entries with
  | nil => exact .refl _
  | cons entry rest ih =>
    obtain ⟨k, v⟩ := entry
    rw [List.map_cons, List.mem_cons, not_or] at h
    rw [insertEntry, if_neg h.1]
    split
    · exact .refl _
    · -- The new entry changes places with those that it passes.
      exact ((ih h.2).cons _).trans (.swap _ _ _)

/-- `insertEntry` keeps entries in the order of their keys. -/
theorem insertEntry_sorted {key : String} {entries : List (String × Value)}
    (h : key ∉ entries.map Prod.fst) (value : Value)
    (hsorted : (entries.map Prod.fst).Pairwise (· < ·)) :
    ((insertEntry key value entries).map Prod.fst).Pairwise (· < ·) := by
  induction entries with
  | nil => exact List.pairwise_singleton _ _
  | cons entry rest ih =>
    obtain ⟨k, v⟩ := entry
    rw [List.map_cons, List.mem_cons, not_or] at h
    rw [List.map_cons, List.pairwise_cons] at hsorted
    rw [insertEntry, if_neg h.1]
    split
    · rename_i hlt
      rw [List.map_cons, List.map_cons, List.pairwise_cons, List.pairwise_cons]
      -- The new key stands before all others, as it is below the first.
      refine ⟨fun l hl => ?_, hsorted⟩
      rcases List.mem_cons.mp hl with rfl | hl
      · exact hlt
      · exact hlt.trans (hsorted.1 l hl)
    · rename_i hlt
      rw [List.map_cons, List.pairwise_cons]
      refine ⟨fun l hl => ?_, ih h.2 hsorted.2⟩
      -- The keys of the rest are above this one, and so is the new key.
      have hperm := (insertEntry_perm h.2 value).map Prod.fst
      rcases List.mem_cons.mp (hperm.subset hl) with rfl | hl
      · exact lt_of_le_of_ne (not_lt.mp hlt) (Ne.symm h.1)
      · exact hsorted.1 l hl

/-- `insertEntry` puts an entry with the greatest key at the end. -/
theorem insertEntry_append {key : String} {done : List (String × Value)}
    (h : ∀ k ∈ done.map Prod.fst, k < key) (value : Value) :
    insertEntry key value done = done ++ [(key, value)] := by
  induction done with
  | nil => rfl
  | cons entry rest ih =>
    have hlt : entry.1 < key := h entry.1 (.head _)
    rw [insertEntry, if_neg (ne_of_gt hlt), if_neg (lt_asymm hlt),
      ih fun k hk => h k (.tail _ hk), List.cons_append]

end Value

namespace Converter

open Sequence (exists_of_bind_eq_ok)

variable {read : Datum → Except Error Value}

/-- The member is read as the entry of its key. -/
def ReadsEntry (read : Datum → Except Error Value) (m : String × Datum) (entry : String × Value) :
    Prop :=
  entry.1 = m.1 ∧ read m.2 = .ok entry.2

/-- `decodeEntries` reads one entry for each member and keeps them in the order of their keys. -/
theorem exists_of_decodeEntries {done entries : List (String × Value)}
    {members : List (String × Datum)} (hdone : (done.map Prod.fst).Pairwise (· < ·))
    (h : decodeEntries read done members = .ok entries) :
    ∃ decoded, List.Forall₂ (ReadsEntry read) members decoded ∧
      entries.Perm (done ++ decoded) ∧ (entries.map Prod.fst).Pairwise (· < ·) := by
  induction members generalizing done with
  | nil =>
    obtain rfl := Except.ok.inj h
    exact ⟨[], .nil, by rw [List.append_nil], hdone⟩
  | cons m rest ih =>
    obtain ⟨key, item⟩ := m
    obtain ⟨value, hvalue, h⟩ := exists_of_bind_eq_ok h
    split at h
    · cases h
    · rename_i hfound
      have hnew : key ∉ done.map Prod.fst :=
        Members.notMem_of_get?_eq_none (by simpa using hfound)
      obtain ⟨decoded, hdecoded, hperm, hsorted⟩ :=
        ih (Value.insertEntry_sorted hnew value hdone) h
      -- The entry stands among those that are `done`, so it is moved before those still to come.
      refine ⟨(key, value) :: decoded, .cons ⟨rfl, hvalue⟩ hdecoded, hperm.trans ?_, hsorted⟩
      exact ((Value.insertEntry_perm hnew value).append_right decoded).trans
        List.perm_middle.symm

/-- `decodeEntries` reads members in the order of their keys as they stand, after those that are
    `done`. -/
theorem decodeEntries_of_forall₂ {members : List (String × Datum)}
    {done entries : List (String × Value)} (h : List.Forall₂ (ReadsEntry read) members entries)
    (hsorted : (entries.map Prod.fst).Pairwise (· < ·))
    (hdone : ∀ k ∈ done.map Prod.fst, ∀ key ∈ entries.map Prod.fst, k < key) :
    decodeEntries read done members = .ok (done ++ entries) := by
  -- By induction on the members that are still to come; the keys in `done` are below theirs.
  induction h generalizing done with
  | nil =>
    rw [List.append_nil]
    rfl
  | @cons m entry members entries hentry _ ih =>
    obtain ⟨key, d⟩ := m
    obtain ⟨name, value⟩ := entry
    obtain ⟨rfl, hread⟩ : name = key ∧ read d = .ok value := hentry
    rw [List.map_cons, List.pairwise_cons] at hsorted
    -- The key is new and greater than all before it, so its entry is put at the end.
    have hbelow : ∀ k ∈ done.map Prod.fst, k < name := fun k hk => hdone k hk name (.head _)
    have hnew : Members.get? name done = none :=
      Members.get?_eq_none fun hmem => lt_irrefl name (hbelow name hmem)
    have hlater : ∀ k ∈ (done ++ [(name, value)]).map Prod.fst, ∀ key ∈ entries.map Prod.fst,
        k < key := by
      intro k hk later hlater
      rw [List.map_append, List.mem_append] at hk
      rcases hk with hk | hk
      · exact hdone k hk later (.tail _ hlater)
      · obtain rfl := List.mem_singleton.mp hk
        exact hsorted.1 later hlater
    rw [decodeEntries, hread]
    show (if (Members.get? name done).isSome then _
      else decodeEntries read (Value.insertEntry name value done) members) = _
    rw [hnew, if_neg (by decide), Value.insertEntry_append hbelow, ih hsorted.2 hlater,
      List.append_assoc, List.singleton_append]

end Converter

end DocQuery
