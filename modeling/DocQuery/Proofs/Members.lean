import Mathlib.Data.List.Induction
import Mathlib.Data.List.Nodup
import Mathlib.Data.List.Perm.Subperm
import DocQuery.Members

/-!
# Members with distinct names

Setting a name that is not there puts it at the end, so a list of members with distinct names is
built up unchanged by setting one member after the other. Setting any members gives distinct names,
each at its first place with its last value, and no value comes up more often than it was set.
-/

namespace DocQuery.Members

variable {κ α : Type} [DecidableEq κ]

/-- `set` puts a new name at the end. -/
theorem set_of_notMem {name : κ} {members : List (κ × α)} (h : name ∉ members.map Prod.fst)
    (value : α) : set name value members = members ++ [(name, value)] := by
  induction members with
  | nil => rfl
  | cons m rest ih =>
    simp only [List.map_cons, List.mem_cons, not_or] at h
    rw [set, if_neg (Ne.symm h.1), ih h.2, List.cons_append]

/-- `get?` finds nothing under a name that no member has. -/
theorem get?_eq_none {name : κ} {members : List (κ × α)} (h : name ∉ members.map Prod.fst) :
    get? name members = none := by
  induction members with
  | nil => rfl
  | cons m rest ih =>
    simp only [List.map_cons, List.mem_cons, not_or] at h
    rw [get?, if_neg (Ne.symm h.1), ih h.2]

omit [DecidableEq κ] in
/-- After a new member is put at the end, the names that are still to come are new again. -/
theorem names_disjoint_append {name : κ} (value : α) {done : List (κ × α)} {names : List κ}
    (hnew : name ∉ names) (hdisj : ∀ k ∈ done.map Prod.fst, k ∉ names) :
    ∀ k ∈ (done ++ [(name, value)]).map Prod.fst, k ∉ names := by
  intro k hk
  rw [List.map_append, List.mem_append] at hk
  rcases hk with hk | hk
  · exact hdisj k hk
  · rw [List.map_singleton, List.mem_singleton] at hk
    rwa [hk]

/-- To `set` members with new and distinct names puts them at the end in their order. -/
theorem foldl_set_of_nodup {rest done : List (κ × α)} (hnodup : (rest.map Prod.fst).Nodup)
    (hdisj : ∀ k ∈ done.map Prod.fst, k ∉ rest.map Prod.fst) :
    rest.foldl (fun done (name, value) => set name value done) done = done ++ rest := by
  induction rest generalizing done with
  | nil => rw [List.foldl_nil, List.append_nil]
  | cons m rest ih =>
    obtain ⟨name, value⟩ := m
    rw [List.map_cons, List.nodup_cons] at hnodup
    -- The first name is new, and once it is set, those after it still are.
    have hnew : name ∉ done.map Prod.fst := fun hmem => hdisj _ hmem (List.mem_cons_self ..)
    have hlater : ∀ k ∈ done.map Prod.fst, k ∉ rest.map Prod.fst :=
      fun k hk hrest => hdisj k hk (List.mem_cons_of_mem _ hrest)
    rw [List.foldl_cons]
    dsimp only
    rw [set_of_notMem hnew, ih hnodup.2 (names_disjoint_append value hnodup.1 hlater),
      List.append_assoc, List.singleton_append]

/-- `ofList` keeps members with distinct names as they are. -/
theorem ofList_of_nodup {members : List (κ × α)} (h : (members.map Prod.fst).Nodup) :
    ofList members = members :=
  foldl_set_of_nodup h fun _ hk => absurd hk List.not_mem_nil

/-- `get?` finds members with distinct names in any order. -/
theorem get?_of_perm {members members' : List (κ × α)} (h : members.Perm members')
    (hnodup : (members.map Prod.fst).Nodup) (name : κ) :
    get? name members = get? name members' := by
  induction h with
  | nil => rfl
  | cons m _ ih =>
    rw [List.map_cons, List.nodup_cons] at hnodup
    rw [get?, get?, ih hnodup.2]
  | swap m m' rest =>
    obtain ⟨k, v⟩ := m
    obtain ⟨k', v'⟩ := m'
    rw [List.map_cons, List.nodup_cons] at hnodup
    -- Of two members that change places only one can have the name, as their names differ.
    have hne : k' ≠ k := fun h => hnodup.1 (by rw [h]; exact .head _)
    rw [get?, get?, get?, get?]
    by_cases hk : k = name
    · rw [if_pos hk, if_pos hk, if_neg fun h => hne (h.trans hk.symm)]
    · rw [if_neg hk, if_neg hk]
  | trans h _ ih ih' => exact (ih hnodup).trans (ih' ((h.map Prod.fst).nodup_iff.mp hnodup))

/-! ## Members with any names -/

/-- Where `get?` finds nothing, the name is that of no member. -/
theorem notMem_of_get?_eq_none {name : κ} {members : List (κ × α)}
    (h : get? name members = none) : name ∉ members.map Prod.fst := by
  -- Induction on the members. The front one has another name, or it would be found.
  induction members with
  | nil => exact List.not_mem_nil
  | cons m rest ih =>
    obtain ⟨k, v⟩ := m
    rw [get?] at h
    split at h
    · cases h
    · rename_i hk
      rw [List.map_cons, List.mem_cons, not_or]
      exact ⟨Ne.symm hk, ih h⟩

/-- A member that `get?` finds is there. -/
theorem mem_of_get? {name : κ} {members : List (κ × α)} {value : α}
    (h : get? name members = some value) : (name, value) ∈ members := by
  induction members with
  | nil => cases h
  | cons m rest ih =>
    obtain ⟨k, v⟩ := m
    -- The front member is found, or one further on.
    unfold get? at h
    split at h
    · rename_i hk
      obtain rfl := Option.some.inj h
      exact hk ▸ .head _
    · exact .tail _ (ih h)

/-- Where the keys of items are distinct, `find?` gives an item for its key. -/
theorem find?_key_eq_some_iff {key : α → κ} {items : List α} (h : (items.map key).Nodup) {k : κ}
    {item : α} : (items.find? fun i => key i == k) = some item ↔ item ∈ items ∧ key item = k := by
  have hfound {found : α} (hfind : (items.find? fun i => key i == k) = some found) :
      found ∈ items ∧ key found = k :=
    ⟨List.mem_of_find?_eq_some hfind,
      eq_of_beq (List.find?_some (p := fun i => key i == k) hfind)⟩
  refine ⟨hfound, fun ⟨hitem, hkey⟩ => ?_⟩
  -- Something is found, as the item itself would do, and its key tells that it is the item.
  obtain ⟨found, hfind⟩ := Option.isSome_iff_exists.mp <|
    List.find?_isSome (p := fun i => key i == k).mpr ⟨item, hitem, beq_iff_eq.mpr hkey⟩
  obtain ⟨hmem, hsame⟩ := hfound hfind
  rw [hfind, List.inj_on_of_nodup_map h hmem hitem (hsame.trans hkey.symm)]

/-- `get?` finds related members one by one, or none in either list. -/
theorem rel_get? {β : Type} {related : α → β → Prop} {members : List (κ × α)}
    {members' : List (κ × β)}
    (h : List.Forall₂ (fun m m' => m.1 = m'.1 ∧ related m.2 m'.2) members members') (name : κ) :
    Option.Rel related (get? name members) (get? name members') := by
  induction h with
  | nil => exact .none
  | @cons m m' _ _ hfirst _ ih =>
    obtain ⟨k, v⟩ := m
    obtain ⟨k', v'⟩ := m'
    obtain ⟨rfl, hrelated⟩ := hfirst
    -- The front members have one name, so both sides go the same way.
    rw [get?, get?]
    split
    · exact .some hrelated
    · exact ih

/-- After `set` the new value stands beside values that were there before. -/
theorem values_set_subperm (name : κ) (value : α) (members : List (κ × α)) :
    ((set name value members).map Prod.snd).Subperm (members.map Prod.snd ++ [value]) := by
  induction members with
  | nil => exact .refl _
  | cons m rest ih =>
    obtain ⟨k, v⟩ := m
    unfold set
    split
    · -- The value takes the place of another one, which is dropped.
      apply List.Subperm.cons_right v
      exact (List.perm_append_singleton value (rest.map Prod.snd)).symm.subperm
    · exact (List.subperm_cons v).mpr ih

/-- What holds of all values and of a new one still holds of all after `set`. -/
theorem forall_mem_set {holds : α → Prop} {members : List (κ × α)} {value : α}
    (h : ∀ m ∈ members, holds m.2) (hvalue : holds value) (name : κ) :
    ∀ m ∈ set name value members, holds m.2 := by
  intro m hm
  -- No value comes from anywhere else.
  have hmem := (values_set_subperm name value members).subset (List.mem_map_of_mem hm)
  rcases List.mem_append.mp hmem with hold | hnew
  · obtain ⟨m', hm', hsnd⟩ := List.mem_map.mp hold
    exact hsnd ▸ h m' hm'
  · exact List.mem_singleton.mp hnew ▸ hvalue

/-- To `set` related values under one name keeps members related. -/
theorem forall₂_set {β : Type} {related : α → β → Prop} {members : List (κ × α)}
    {members' : List (κ × β)}
    (h : List.Forall₂ (fun m m' => m.1 = m'.1 ∧ related m.2 m'.2) members members')
    {value : α} {value' : β} (hvalue : related value value') (name : κ) :
    List.Forall₂ (fun m m' => m.1 = m'.1 ∧ related m.2 m'.2) (set name value members)
      (set name value' members') := by
  induction h with
  | nil => exact .cons ⟨rfl, hvalue⟩ .nil
  | @cons m m' rest rest' hm hrest ih =>
    obtain ⟨k, v⟩ := m
    obtain ⟨k', v'⟩ := m'
    obtain rfl : k = k' := hm.1
    unfold set
    -- Names are the same at each place, so both lists take the value at the same place.
    by_cases hk : k = name
    · rw [if_pos hk, if_pos hk]
      exact .cons ⟨rfl, hvalue⟩ hrest
    · rw [if_neg hk, if_neg hk]
      exact .cons hm ih

/-- After `set` the name has its value, and the other names have theirs. -/
theorem get?_set (name : κ) (value : α) (members : List (κ × α)) (key : κ) :
    get? key (set name value members) = if name = key then some value else get? key members := by
  induction members with
  | nil => rfl
  | cons m rest ih =>
    obtain ⟨k, v⟩ := m
    -- The member at hand may be the one that is set, the one that is looked for, or neither.
    by_cases hk : k = name
    · subst hk
      by_cases hkey : k = key <;> simp [set, get?, hkey]
    · by_cases hkey : k = key
      · subst hkey
        simp [set, get?, hk, Ne.symm hk]
      · simp [set, get?, hk, hkey, ih]

/-- `set` commutes with a change of all values. -/
theorem set_map {β : Type} (f : α → β) (name : κ) (value : α) (members : List (κ × α)) :
    set name (f value) (members.map fun m => (m.1, f m.2)) =
      (set name value members).map fun m => (m.1, f m.2) := by
  induction members with
  | nil => rfl
  | cons m rest ih =>
    obtain ⟨k, v⟩ := m
    by_cases hk : k = name
    · simp [set, hk]
    · simp [set, hk, ih]

/-- So does one `set` after the other. -/
theorem foldl_set_map {β : Type} (f : α → β) (members done : List (κ × α)) :
    (members.map fun m => (m.1, f m.2)).foldl (fun done (name, value) => set name value done)
        (done.map fun m => (m.1, f m.2)) =
      (members.foldl (fun done (name, value) => set name value done) done).map
        fun m => (m.1, f m.2) := by
  induction members generalizing done with
  | nil => rfl
  | cons m rest ih =>
    rw [List.map_cons, List.foldl_cons, List.foldl_cons, ← ih]
    dsimp only
    rw [set_map]

/-- `ofList` commutes with a change of all values. -/
theorem ofList_map {β : Type} (f : α → β) (members : List (κ × α)) :
    ofList (members.map fun m => (m.1, f m.2)) =
      (ofList members).map fun m => (m.1, f m.2) :=
  foldl_set_map f members []

/-- After one `set` after the other, every value was there before or comes from a member that was
    set. -/
theorem values_foldl_set_subperm (members done : List (κ × α)) :
    ((members.foldl (fun done (name, value) => set name value done) done).map Prod.snd).Subperm
      (done.map Prod.snd ++ members.map Prod.snd) := by
  induction members generalizing done with
  | nil => exact (List.append_nil _).symm ▸ .refl _
  | cons m rest ih =>
    obtain ⟨name, value⟩ := m
    -- The rest is set after the first, whose value may have taken the place of another one.
    apply (ih (set name value done)).trans
    rw [List.map_cons, List.append_cons]
    exact (List.subperm_append_right _).mpr (values_set_subperm name value done)

/-- Every value of `ofList` comes from a member that was set. -/
theorem values_ofList_subperm (members : List (κ × α)) :
    ((ofList members).map Prod.snd).Subperm (members.map Prod.snd) :=
  values_foldl_set_subperm members []

/-- `set` keeps the names and adds a new one at the end. -/
theorem names_set (name : κ) (value : α) (members : List (κ × α)) :
    (set name value members).map Prod.fst
      = if name ∈ members.map Prod.fst then members.map Prod.fst
        else members.map Prod.fst ++ [name] := by
  induction members with
  | nil => rfl
  | cons m rest ih =>
    obtain ⟨k, v⟩ := m
    by_cases hk : k = name
    · simp [set, hk]
    · simp only [set, if_neg hk, List.map_cons, ih, List.mem_cons, Ne.symm hk, false_or]
      split <;> rfl

/-- The names after one `set` after the other are those from before and those of the members. -/
theorem mem_names_foldl_set {name : κ} {members done : List (κ × α)} :
    name ∈ (members.foldl (fun done (name, value) => set name value done) done).map Prod.fst ↔
      name ∈ done.map Prod.fst ∨ name ∈ members.map Prod.fst := by
  induction members generalizing done with
  | nil => simp
  | cons m rest ih =>
    rw [List.foldl_cons, ih, names_set, List.map_cons, List.mem_cons]
    split
    · rename_i hold
      -- The name was there, so only the names of the rest can add to it.
      refine ⟨fun h => h.imp_right .inr, fun h => ?_⟩
      rcases h with h | rfl | h
      · exact .inl h
      · exact .inl hold
      · exact .inr h
    · rw [List.mem_append, List.mem_singleton, or_assoc]

/-- The names of `ofList` are those of the members. -/
theorem mem_names_ofList {name : κ} {members : List (κ × α)} :
    name ∈ (ofList members).map Prod.fst ↔ name ∈ members.map Prod.fst := by
  rw [ofList, mem_names_foldl_set]
  simp

/-- `set` keeps names distinct. -/
theorem nodup_set {members : List (κ × α)} (h : (members.map Prod.fst).Nodup) (name : κ)
    (value : α) : ((set name value members).map Prod.fst).Nodup := by
  rw [names_set]
  split
  · exact h
  · rename_i hnew
    rw [List.nodup_append]
    -- A name that is added was not among the others.
    refine ⟨h, List.pairwise_singleton .., fun k hk l hl => ?_⟩
    rintro rfl
    exact hnew (List.mem_singleton.mp hl ▸ hk)

/-- `ofList` gives members with distinct names. -/
theorem nodup_ofList (members : List (κ × α)) : ((ofList members).map Prod.fst).Nodup := by
  have hset : ∀ done : List (κ × α), (done.map Prod.fst).Nodup → ∀ m ∈ members,
      ((set m.1 m.2 done).map Prod.fst).Nodup := fun _ hdone m _ => nodup_set hdone m.1 m.2
  exact List.foldlRecOn members _ .nil hset

/-! ## First places and last values -/

/-- The members with distinct names, each at the first place of its name with its last value. -/
def merged (members : List (κ × α)) : List (κ × α) :=
  (members.map Prod.fst).eraseDups.filterMap fun name =>
    (get? name members.reverse).map fun value => (name, value)

/-- `ofList` sets the last member last. -/
theorem ofList_append_singleton (members : List (κ × α)) (name : κ) (value : α) :
    ofList (members ++ [(name, value)]) = set name value (ofList members) := by
  rw [ofList, List.foldl_append]
  rfl

/-- `ofList` keeps each name at its first place. -/
theorem names_ofList (members : List (κ × α)) :
    (ofList members).map Prod.fst = (members.map Prod.fst).eraseDups := by
  induction members using List.reverseRecOn with
  | nil => rfl
  | append_singleton members m ih =>
    obtain ⟨name, value⟩ := m
    rw [ofList_append_singleton, names_set, List.map_append, List.eraseDups_append, ih]
    -- A name is new among the names without repetition where it is new among all.
    by_cases hname : name ∈ members.map Prod.fst
    · have hold : name ∈ (members.map Prod.fst).eraseDups := List.mem_eraseDups.mpr hname
      rw [if_pos hold]
      simp [List.removeAll, hname]
    · have hnew : name ∉ (members.map Prod.fst).eraseDups := fun h =>
        hname (List.mem_eraseDups.mp h)
      rw [if_neg hnew]
      simp [List.removeAll, hname, List.eraseDups_cons]

/-- `get?` finds the last value of a name in `ofList`. -/
theorem get?_ofList (name : κ) (members : List (κ × α)) :
    get? name (ofList members) = get? name members.reverse := by
  induction members using List.reverseRecOn with
  | nil => rfl
  | append_singleton members m ih =>
    -- From the end, the last member is the first that the reversed list has.
    rw [ofList_append_singleton, get?_set, ih, List.reverse_append, List.reverse_singleton,
      List.singleton_append, get?]

/-- `get?` finds members with distinct names one after the other, each under its own name. -/
theorem filterMap_get? {members : List (κ × α)} (h : (members.map Prod.fst).Nodup) :
    ((members.map Prod.fst).filterMap fun name =>
      (get? name members).map fun value => (name, value)) = members := by
  induction members with
  | nil => rfl
  | cons m rest ih =>
    obtain ⟨name, value⟩ := m
    rw [List.map_cons, List.nodup_cons] at h
    -- The first member has another name, so it is passed over for the rest.
    have hrest : ∀ key ∈ rest.map Prod.fst,
        (get? key ((name, value) :: rest)).map (fun value => (key, value)) =
          (get? key rest).map fun value => (key, value) := by
      intro key hkey
      have hne : name ≠ key := by
        rintro rfl
        exact h.1 hkey
      rw [get?, if_neg hne]
    rw [List.map_cons, List.filterMap_cons, List.filterMap_congr hrest, ih h.2, get?, if_pos rfl]
    rfl

/-- `ofList`, one `set` after the other, is `merged`. -/
theorem ofList_eq_merged (members : List (κ × α)) : ofList members = merged members := by
  rw [merged, ← names_ofList]
  simp only [← get?_ofList]
  exact (filterMap_get? (nodup_ofList members)).symm

example : merged [("a", 1), ("b", 2), ("a", 3)] = [("a", 3), ("b", 2)] := by decide

end DocQuery.Members
