import DocQuery.Proofs.Datum.Finite
import DocQuery.Proofs.Sequence
import DocQuery.Proofs.Term.Wire

/-!
# Wire forms and what they reread as

A wire form is settled when the term that it reads back as has the same wire form. So it is with the
wire forms of literals: reading turns arrays and objects of literals into literals, which are
written as they were. Objects are written with distinct keys, whatever the keys of the members are,
and in this order they are read and written again.

## Key results

- `Term.settled_of_toWire_datum`: the wire form of a literal is settled
- `Term.exists_toWire`: a term whose literals have finite numbers has a wire form
-/

namespace DocQuery

open Sequence (exists_of_bind_eq_ok)

namespace Term

/-! ## Literals -/

theorem toWire_literal (d : Datum) : (literal d).toWire = d.toWire := by
  rw [literal, toWire, if_pos rfl]

/-- `toWireItems` writes the items of an array as literals are written. -/
theorem toWireItems_eq (items : List Datum) :
    Datum.toWireItems items = toWireArgs (items.map literal) := by
  induction items with
  | nil => rfl
  | cons d rest ih => rw [List.map_cons, Datum.toWireItems, toWireArgs, ih, toWire_literal]

/-- `toWireMembers` writes the members of an object as options that are literals. -/
theorem toWireMembers_eq (done : List (String × Json)) (members : List (String × Datum)) :
    Datum.toWireMembers done members =
      toWireOptions done (members.map fun m => (m.1, literal m.2)) := by
  induction members generalizing done with
  | nil => rfl
  | cons m rest ih =>
    rw [List.map_cons, Datum.toWireMembers, toWireOptions, toWire_literal]
    simp only [ih]

/-- Where `literals?` finds the datums of terms, the first one is written as its datum, and the
    others are literals, too. -/
theorem exists_of_literals? {t : Term} {rest : List Term} {ds : List Datum}
    (h : literals? (t :: rest) = some ds) :
    ∃ d ds', t.toWire = d.toWire ∧ literals? rest = some ds' ∧ ds = d :: ds' := by
  rw [literals?] at h
  split at h
  · rename_i hkind
    obtain ⟨d, hd, h⟩ := Option.bind_eq_some_iff.mp h
    obtain ⟨ds', hds', h⟩ := Option.bind_eq_some_iff.mp h
    refine ⟨d, ds', ?_, hds', (Option.some.inj h).symm⟩
    obtain ⟨kind, args, options, datum⟩ := t
    obtain rfl : datum = some d := hd
    -- Whatever else stands in a literal is not written.
    have hkind : kind = .datum := beq_iff_eq.mp hkind
    rw [toWire, if_pos hkind]
  · cases h

/-- Terms that are all literals are written as their datums are. -/
theorem toWireItems_of_literals? {ts : List Term} {ds : List Datum}
    (h : literals? ts = some ds) : Datum.toWireItems ds = toWireArgs ts := by
  induction ts generalizing ds with
  | nil =>
    obtain rfl := Option.some.inj h
    rfl
  | cons t rest ih =>
    obtain ⟨d, ds', htoWire, hrest, rfl⟩ := exists_of_literals? h
    rw [Datum.toWireItems, toWireArgs, htoWire, ih hrest]

/-- Options that are all literals are written as members of an object are. -/
theorem toWireMembers_of_literals? {os : List (String × Term)} {ds : List Datum}
    (h : literals? (os.map Prod.snd) = some ds) (done : List (String × Json)) :
    Datum.toWireMembers done ((os.map Prod.fst).zip ds) = toWireOptions done os := by
  induction os generalizing ds done with
  | nil =>
    obtain rfl := Option.some.inj h
    rfl
  | cons o rest ih =>
    obtain ⟨d, ds', htoWire, hrest, rfl⟩ := exists_of_literals? h
    rw [List.map_cons, List.zip_cons_cons, Datum.toWireMembers, toWireOptions, htoWire]
    simp only [ih hrest]

/-- The term is the `literal` of a datum. -/
def IsLiteral (t : Term) : Prop := ∃ d, t = literal d

/-- `literals?` finds the datums of literals. -/
theorem exists_literals?_eq_some {ts : List Term} (h : ∀ t ∈ ts, IsLiteral t) :
    ∃ ds, literals? ts = some ds := by
  -- Induction on the literals, each with its datum.
  induction ts with
  | nil => exact ⟨[], rfl⟩
  | cons t rest ih =>
    obtain ⟨d, rfl⟩ := h t (.head _)
    obtain ⟨ds, hds⟩ := ih fun t ht => h t (.tail _ ht)
    refine ⟨d :: ds, ?_⟩
    have hkind : (literal d).isDatum = true := rfl
    rw [literals?, if_pos hkind, hds]
    rfl

/-! ## Nodes -/

variable {kind : TermKind} {ts : List Term} {os : List (String × Term)} {js : List Json}
  {jos : List (String × Json)}

/-- `toWire` on a node without options. -/
theorem toWire_node (hkind : kind ≠ .datum) (hargs : toWireArgs ts = .ok js)
    (datum : Option Datum) :
    (mk kind ts [] datum).toWire = .ok (.array [.integer kind.id, .array js]) := by
  unfold toWire
  rw [if_neg hkind, hargs]
  rfl

/-- `toWire` on a node with options. -/
theorem toWire_node_options (hkind : kind ≠ .datum) (hargs : toWireArgs ts = .ok js)
    (hos : os ≠ []) (hoptions : toWireOptions [] os = .ok jos) (datum : Option Datum) :
    (mk kind ts os datum).toWire =
      .ok (.array [.integer kind.id, .array js, .object jos]) := by
  unfold toWire
  rw [if_neg hkind, hargs]
  -- Options are sent after the arguments where there are any.
  cases os with
  | nil => exact absurd rfl hos
  | cons o rest =>
    show (do
      let options ← toWireOptions [] (o :: rest)
      return Json.array [.integer kind.id, .array js, .object options] : Except Error Json) = _
    rw [hoptions]
    rfl

/-- A term without options is written as its kind and its arguments, also where `collapse` makes it
    a literal. -/
theorem toWire_collapse (hkind : kind ≠ .datum) (hargs : toWireArgs ts = .ok js) :
    (collapse kind ts []).toWire = .ok (.array [.integer kind.id, .array js]) := by
  rw [collapse]
  -- Only an array of literals collapses, and it is sent as the array of their data was.
  split
  · rename_i harray
    split
    · rename_i ds hds
      rw [toWire_literal, Datum.toWire, toWireItems_of_literals? hds, hargs, harray]
      rfl
    · exact toWire_node hkind hargs none
  · exact toWire_node hkind hargs none

/-! ## Settled forms -/

/-- The JSON value reads, by `ofWire`, as a term with a property, whose wire form is another JSON
    value. -/
def Rereads (holds : Term → Prop) (j j' : Json) : Prop :=
  ∃ t, ofWire j = .ok t ∧ t.toWire = .ok j' ∧ holds t

/-- The JSON value reads as a term with a property, whose wire form is the value. -/
abbrev Settled (holds : Term → Prop) (j : Json) : Prop := Rereads holds j j

variable {holds : Term → Prop}

/-- `Settled` arguments are read one by one and written one by one. -/
theorem settled_args {js : List Json} (h : ∀ j ∈ js, Settled holds j) :
    ∃ ts, ofWireArgs js = .ok ts ∧ toWireArgs ts = .ok js ∧ ∀ t ∈ ts, holds t := by
  induction js with
  | nil => exact ⟨[], rfl, rfl, List.forall_mem_nil _⟩
  | cons j js ih =>
    obtain ⟨t, hread, hwrite, ht⟩ := h j (.head _)
    obtain ⟨ts, hreads, hwrites, hts⟩ := ih fun j hj => h j (.tail _ hj)
    refine ⟨t :: ts, ?_, ?_, List.forall_mem_cons.mpr ⟨ht, hts⟩⟩
    · rw [ofWireArgs, hread, hreads]; rfl
    · rw [toWireArgs, hwrite, hwrites]; rfl

/-- Both members have the same name, and the value of the first `Rereads` as the value of the
    second. -/
abbrev RereadsMember (holds : Term → Prop) (m m' : String × Json) : Prop :=
  m.1 = m'.1 ∧ Rereads holds m.2 m'.2

/-- Members with new and distinct names are read one by one and written in their order. -/
theorem rereads_members {js js' : List (String × Json)} (done : List (String × Json))
    (h : List.Forall₂ (RereadsMember holds) js js') (hnodup : (js.map Prod.fst).Nodup)
    (hdisj : ∀ k ∈ done.map Prod.fst, k ∉ js.map Prod.fst) :
    ∃ os, ofWireMembers js = .ok os ∧ toWireOptions done os = .ok (done ++ js') ∧
      os.map Prod.fst = js.map Prod.fst ∧ ∀ o ∈ os, holds o.2 := by
  induction h generalizing done with
  | nil => exact ⟨[], rfl, by rw [List.append_nil]; rfl, rfl, List.forall_mem_nil _⟩
  | @cons m m' js js' hm _ ih =>
    obtain ⟨name, j⟩ := m
    obtain ⟨name', j'⟩ := m'
    obtain ⟨rfl, t, hread, hwrite, ht⟩ := hm
    rw [List.map_cons, List.nodup_cons] at hnodup
    have hnew : name ∉ done.map Prod.fst := fun hmem => hdisj _ hmem (List.mem_cons_self ..)
    have hlater : ∀ k ∈ done.map Prod.fst, k ∉ js.map Prod.fst :=
      fun k hk hrest => hdisj k hk (List.mem_cons_of_mem _ hrest)
    obtain ⟨os, hreads, hwrites, hnames, hos⟩ :=
      ih (done ++ [(name, j')]) hnodup.2 (Members.names_disjoint_append j' hnodup.1 hlater)
    refine ⟨(name, t) :: os, ?_, ?_, ?_, List.forall_mem_cons.mpr ⟨ht, hos⟩⟩
    · -- The name is new, so the value is written behind those before it.
      rw [ofWireMembers, hread, hreads]; rfl
    · rw [toWireOptions, hwrite]
      show toWireOptions (Members.set name j' done) os = _
      rw [Members.set_of_notMem hnew, hwrites, List.append_assoc, List.singleton_append]
    · rw [List.map_cons, hnames, List.map_cons]

/-- `Settled` members with distinct names are read one by one and written in their order. -/
theorem settled_members {js : List (String × Json)} (h : ∀ m ∈ js, Settled holds m.2)
    (hnodup : (js.map Prod.fst).Nodup) :
    ∃ os, ofWireMembers js = .ok os ∧ toWireOptions [] os = .ok js ∧
      os.map Prod.fst = js.map Prod.fst ∧ ∀ o ∈ os, holds o.2 := by
  have hself : List.Forall₂ (RereadsMember holds) js js :=
    List.forall₂_same.mpr fun m hm => ⟨rfl, h m hm⟩
  exact rereads_members [] hself hnodup fun _ hk => absurd hk List.not_mem_nil

/-- What `toWireArgs` writes are wire forms of arguments. -/
theorem forall_of_toWireArgs {written : Json → Prop}
    (hargs : ∀ t ∈ ts, ∀ j, t.toWire = .ok j → written j) (h : toWireArgs ts = .ok js) :
    ∀ j ∈ js, written j := by
  -- Induction on the terms, each of which is sent by itself.
  induction ts generalizing js with
  | nil =>
    obtain rfl := Except.ok.inj h
    exact List.forall_mem_nil _
  | cons t rest ih =>
    obtain ⟨j, hj, h⟩ := exists_of_bind_eq_ok h
    obtain ⟨js', hjs, h⟩ := exists_of_bind_eq_ok h
    obtain rfl := Except.ok.inj h
    rw [List.forall_mem_cons]
    exact ⟨hargs t (.head _) j hj, ih (fun t ht => hargs t (.tail _ ht)) hjs⟩

/-- `toWireOptions` keeps what holds of the members written before: the names are distinct, and the
    values are wire forms. -/
theorem forall_of_toWireOptions_done {written : Json → Prop} {done js : List (String × Json)}
    {options : List (String × Term)} (hnodup : (done.map Prod.fst).Nodup)
    (hdone : ∀ m ∈ done, written m.2)
    (hoptions : ∀ o ∈ options, ∀ j, o.2.toWire = .ok j → written j)
    (h : toWireOptions done options = .ok js) :
    (js.map Prod.fst).Nodup ∧ ∀ m ∈ js, written m.2 := by
  induction options generalizing done with
  | nil =>
    obtain rfl := Except.ok.inj h
    exact ⟨hnodup, hdone⟩
  | cons o rest ih =>
    obtain ⟨name, t⟩ := o
    obtain ⟨j, hj, h⟩ := exists_of_bind_eq_ok h
    -- A later option of the same name takes the place of an earlier one, so names stay distinct.
    exact ih (Members.nodup_set hnodup name j)
      (Members.forall_mem_set hdone (hoptions _ (.head _) j hj) name)
      (fun o ho => hoptions o (.tail _ ho)) h

/-- What `toWireOptions` writes has distinct names, and values that are wire forms of options. -/
theorem forall_of_toWireOptions {written : Json → Prop} {options : List (String × Term)}
    (hoptions : ∀ o ∈ options, ∀ j, o.2.toWire = .ok j → written j)
    (h : toWireOptions [] options = .ok jos) :
    (jos.map Prod.fst).Nodup ∧ ∀ m ∈ jos, written m.2 := by
  have hnone : (([] : List (String × Json)).map Prod.fst).Nodup := List.nodup_nil
  exact forall_of_toWireOptions_done hnone (List.forall_mem_nil _) hoptions h

/-- `toWireOptions` writes an empty object only for no options behind no members. -/
theorem ne_nil_of_toWireOptions {done js : List (String × Json)} {options : List (String × Term)}
    (hne : done ≠ [] ∨ options ≠ []) (h : toWireOptions done options = .ok js) : js ≠ [] := by
  induction options generalizing done with
  | nil =>
    obtain rfl := Except.ok.inj h
    exact hne.resolve_right fun h => h rfl
  | cons o rest ih =>
    obtain ⟨name, t⟩ := o
    obtain ⟨j, -, h⟩ := exists_of_bind_eq_ok h
    refine ih (.inl ?_) h
    -- Whether a name is new or not, there is a member afterwards.
    cases done with
    | nil => exact List.cons_ne_nil _ _
    | cons m rest =>
      unfold Members.set
      split <;> exact List.cons_ne_nil _ _

/-- The JSON value of a finite number is `Settled`: it reads back as a literal of that JSON
    value. -/
theorem settled_number {x : Binary64} (h : x.isFinite = true) :
    Settled IsLiteral (Datum.number x).toJson := by
  rw [Datum.toJson]
  cases hx : Datum.safeInteger? x with
  -- A number that is no safe integer is written as it is, and is no integer when it is read.
  | none =>
    refine ⟨literal (.number x), rfl, ?_, _, rfl⟩
    rw [toWire_literal, Datum.toWire, if_pos h, Datum.toJson, hx]
  | some n =>
    -- A safe integer is written without a fraction, and is the same number when it is read.
    have hsafe := Datum.natAbs_le_of_safeInteger? hx
    have hfinite : (Binary.ofInt n : Binary64).isFinite = true :=
      Binary.isFinite_of_toRat? (Binary.toRat?_ofInt hsafe)
    refine ⟨literal (.ofInt n), rfl, ?_, _, rfl⟩
    rw [toWire_literal, Datum.ofInt, Datum.toWire, if_pos hfinite, Datum.toJson,
      Datum.safeInteger?_ofInt hsafe]

/-- Literals that are `Settled` in an array are read as one literal, which is written as the array
    was. -/
theorem settled_array (h : ∀ j ∈ js, Settled IsLiteral j) :
    Settled IsLiteral (.array [.integer TermKind.makeArray.id, .array js]) := by
  obtain ⟨ts, hread, hwrite, hliterals⟩ := settled_args h
  obtain ⟨ds, hds⟩ := exists_literals?_eq_some hliterals
  have hkind : TermKind.makeArray ≠ .datum := TermKind.noConfusion
  refine ⟨collapse .makeArray ts [], ?_, toWire_collapse hkind hwrite, .array ds, ?_⟩
  · rw [ofWire_node hkind, hread]
    rfl
  · rw [collapse, if_pos rfl, hds]

/-- Literals that are `Settled` in an object are read as one literal, which is written as the object
    was. -/
theorem settled_object (h : ∀ m ∈ jos, Settled IsLiteral m.2)
    (hnodup : (jos.map Prod.fst).Nodup) : Settled IsLiteral (.object jos) := by
  obtain ⟨os, hread, hwrite, -, hos⟩ := settled_members h hnodup
  -- All values of the members are literals, so they make a literal object.
  have hliterals : ∀ t ∈ os.map Prod.snd, IsLiteral t := by
    intro t ht
    obtain ⟨o, ho, rfl⟩ := List.mem_map.mp ht
    exact hos o ho
  obtain ⟨ds, hds⟩ := exists_literals?_eq_some hliterals
  have hobject : ofMembers os = literal (.object ((os.map Prod.fst).zip ds)) := by
    rw [ofMembers, hds]
  refine ⟨ofMembers os, ?_, ?_, _, hobject⟩
  · rw [ofWire, hread]
    rfl
  · rw [hobject, toWire_literal, Datum.toWire, toWireMembers_of_literals? hds, hwrite]
    rfl

/-- The wire form of a literal is `Settled`, by way of a literal. -/
theorem settled_of_toWire_datum {d : Datum} :
    ∀ {j : Json}, d.toWire = .ok j → Settled IsLiteral j := by
  induction d using Datum.parts_induction with
  | node d ih =>
    intro j h
    cases d with
    | null | bool | string =>
      obtain rfl := Except.ok.inj h
      exact ⟨literal _, rfl, rfl, _, rfl⟩
    | number x =>
      rw [Datum.toWire] at h
      split_ifs at h with hfinite
      obtain rfl := Except.ok.inj h
      exact settled_number hfinite
    | array items =>
      -- Written as a term, with its items as arguments that are literals.
      obtain ⟨js, hjs, h⟩ := exists_of_bind_eq_ok h
      obtain rfl := Except.ok.inj h
      rw [toWireItems_eq] at hjs
      refine settled_array (forall_of_toWireArgs (fun t ht j hj => ?_) hjs)
      obtain ⟨item, hitem, rfl⟩ := List.mem_map.mp ht
      exact ih item hitem (toWire_literal item ▸ hj)
    | object members =>
      -- Written as it stands, with its members as options that are literals.
      obtain ⟨js, hjs, h⟩ := exists_of_bind_eq_ok h
      obtain rfl := Except.ok.inj h
      rw [toWireMembers_eq] at hjs
      have hmembers : ∀ o ∈ members.map fun m => (m.1, literal m.2), ∀ j, o.2.toWire = .ok j →
          Settled IsLiteral j := by
        intro o ho j hj
        obtain ⟨m, hm, rfl⟩ := List.mem_map.mp ho
        exact ih m.2 (List.mem_map_of_mem hm) (toWire_literal m.2 ▸ hj)
      obtain ⟨hnodup, hvalues⟩ := forall_of_toWireOptions hmembers hjs
      exact settled_object hvalues hnodup

/-! ## Terms -/

/-- What `toWire` writes of a term that is no literal is its kind, its arguments and, where there
    are any, its options. -/
theorem exists_of_toWire {args : List Term} {options : List (String × Term)}
    {datum : Option Datum} {j : Json} (hkind : kind ≠ .datum)
    (h : (mk kind args options datum).toWire = .ok j) :
    ∃ js, toWireArgs args = .ok js ∧
      (options = [] ∧ j = .array [.integer kind.id, .array js] ∨
        options ≠ [] ∧ ∃ jos, toWireOptions [] options = .ok jos ∧
          j = .array [.integer kind.id, .array js, .object jos]) := by
  unfold toWire at h
  rw [if_neg hkind] at h
  obtain ⟨js, hjs, h⟩ := exists_of_bind_eq_ok h
  refine ⟨js, hjs, ?_⟩
  -- The third item is there just where there are options.
  cases options with
  | nil => exact .inl ⟨rfl, (Except.ok.inj h).symm⟩
  | cons o rest =>
    obtain ⟨jos, hjos, h⟩ := exists_of_bind_eq_ok h
    exact .inr ⟨List.cons_ne_nil o rest, jos, hjos, (Except.ok.inj h).symm⟩

/-! ## Terms that have a wire form -/

/-- Arguments have wire forms together where each of them has one. -/
theorem exists_toWireArgs (h : ∀ t ∈ ts, ∃ j, t.toWire = .ok j) :
    ∃ js, toWireArgs ts = .ok js := by
  induction ts with
  | nil => exact ⟨[], rfl⟩
  | cons t rest ih =>
    obtain ⟨j, hj⟩ := h t (.head _)
    obtain ⟨js, hjs⟩ := ih fun t ht => h t (.tail _ ht)
    exact ⟨j :: js, by rw [toWireArgs, hj, hjs]; rfl⟩

/-- Options have wire forms together where each of them has one. -/
theorem exists_toWireOptions (done : List (String × Json))
    (h : ∀ o ∈ os, ∃ j, o.2.toWire = .ok j) : ∃ jos, toWireOptions done os = .ok jos := by
  induction os generalizing done with
  | nil => exact ⟨done, rfl⟩
  | cons o rest ih =>
    obtain ⟨j, hj⟩ := h o (.head _)
    obtain ⟨jos, hjos⟩ := ih (Members.set o.1 j done) fun o ho => h o (.tail _ ho)
    exact ⟨jos, by rw [toWireOptions, hj]; exact hjos⟩

/-- A datum with `Finite` numbers has a wire form. -/
theorem exists_toWire_of_finite {d : Datum} (h : d.Finite) : ∃ j, d.toWire = .ok j := by
  induction h with
  | @intro d top _ ih =>
    cases d with
    | null | bool | string => exact ⟨_, rfl⟩
    | number x =>
      have hfinite : x.isFinite = true := top
      exact ⟨_, by rw [Datum.toWire, if_pos hfinite]⟩
    -- Items are written as literals, which have wire forms by the induction.
    | array items =>
      have hitems : ∀ t ∈ items.map literal, ∃ j, t.toWire = .ok j := by
        intro t ht
        obtain ⟨item, hitem, rfl⟩ := List.mem_map.mp ht
        exact toWire_literal item ▸ ih item hitem
      obtain ⟨js, hjs⟩ := exists_toWireArgs hitems
      exact ⟨_, by rw [Datum.toWire, toWireItems_eq, hjs]; rfl⟩
    -- Members are written as options, likewise.
    | object members =>
      have hmembers : ∀ o ∈ members.map fun m => (m.1, literal m.2), ∃ j, o.2.toWire = .ok j := by
        intro o ho
        obtain ⟨m, hm, rfl⟩ := List.mem_map.mp ho
        exact toWire_literal m.2 ▸ ih m.2 (List.mem_map_of_mem hm)
      obtain ⟨js, hjs⟩ := exists_toWireOptions [] hmembers
      exact ⟨_, by rw [Datum.toWire, toWireMembers_eq, hjs]; rfl⟩

/-- A literal has a datum with `Datum.Finite` numbers. -/
def FiniteNode (t : Term) : Prop :=
  t.kind = .datum → ∃ d, t.datum = some d ∧ d.Finite

/-- The literals of a term have datums with finite numbers, at every depth: `FiniteNode` of all
    `parts`. -/
abbrev Finite : Term → Prop := Everywhere parts FiniteNode

/-- A term with `Finite` literals has a wire form. -/
theorem exists_toWire {t : Term} (h : t.Finite) : ∃ j, t.toWire = .ok j := by
  induction h with
  | @intro t top _ ih =>
    obtain ⟨kind, args, options, datum⟩ := t
    by_cases hkind : kind = .datum
    · -- A literal is written by its datum, and any other term by its parts.
      obtain ⟨d, hd, hfinite⟩ := top hkind
      obtain rfl : datum = some d := hd
      rw [toWire, if_pos hkind]
      exact exists_toWire_of_finite hfinite
    · obtain ⟨js, hjs⟩ := exists_toWireArgs fun t ht => ih t (List.mem_append_left _ ht)
      cases options with
      | nil => exact ⟨_, toWire_node hkind hjs datum⟩
      | cons o rest =>
        obtain ⟨jos, hjos⟩ := exists_toWireOptions [] fun o ho =>
          ih o.2 (List.mem_append_right _ (List.mem_map_of_mem ho))
        exact ⟨_, toWire_node_options hkind hjs (List.cons_ne_nil o rest) hjos datum⟩

/-- The term can be sent and read back: `toWire` gives a wire form, which `ofWire` reads as a term
    with that wire form. -/
def Resends (t : Term) : Prop :=
  ∃ j t', t.toWire = .ok j ∧ ofWire j = .ok t' ∧ t'.toWire = .ok j

end Term

end DocQuery
