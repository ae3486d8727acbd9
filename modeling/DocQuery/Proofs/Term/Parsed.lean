import DocQuery.Proofs.Json.Lawful
import DocQuery.Proofs.Term.Resend

/-!
# Terms that were read are canonical

The wire form of a term can be spelled in several ways, and reading brings all of them to one: only
a literal holds a datum, and an array of literals is a literal. A term that was read is therefore
its own normal form, and what is sent of it reads back as the same term.

## Key results

- `Datum.sendable_ofJson`: the datum of a lawful JSON value can be sent
- `Term.parsed_of_ofWire`: a term read from a lawful JSON value is in good form, without arrays of
  literals
- `Term.canonical_of_ofWire`: a term that was read is canonical, and sending it does not change it
-/

namespace DocQuery

open Sequence (exists_of_bind_eq_ok)

namespace Datum

/-- The datum that `ofJson` gives for a lawful JSON value has finite numbers and objects with
    distinct keys. -/
theorem sendable_ofJson {j : Json} (h : j.Lawful) : (ofJson j).Sendable := by
  induction h with
  | @intro j top _ ih =>
    cases j with
    | null | bool | string => exact .of_leaf rfl trivial
    | integer n => exact .of_leaf rfl (Json.isFinite_ofInt top.1)
    | float x => exact .of_leaf rfl top.1
    | array items =>
      rw [ofJson, ofJsonItems_eq]
      exact .intro trivial (List.forall_mem_map.mpr ih)
    | object members =>
      -- The keys stay as they are.
      have hkeys :
          (members.map fun m => (m.1, ofJson m.2)).map Prod.fst = members.map Prod.fst := by
        rw [List.map_map]
        rfl
      rw [ofJson, ofJsonMembers_eq]
      refine .intro (hkeys ▸ top.2 : List.Nodup _) (List.forall_mem_map.mpr ?_)
      exact List.forall_mem_map.mpr fun m hm => ih m.2 (List.mem_map_of_mem hm)

end Datum

namespace Term

/-! ## Terms without arrays of literals -/

/-- The node is a `WellFormedNode`, and as a `makeArray` it has an argument that is no literal. -/
structure ParsedNode (t : Term) : Prop where
  wellFormed : WellFormedNode t
  array : t.kind = .makeArray → ∃ arg ∈ t.args, arg.kind ≠ .datum

/-- A term in good form without arrays of literals, at every depth: `ParsedNode` of all `parts`. -/
abbrev Parsed : Term → Prop := Everywhere parts ParsedNode

variable {kind : TermKind} {t : Term} {ts : List Term} {os : List (String × Term)} {ds : List Datum}

/-- A literal is `Parsed` where its datum can be sent. -/
theorem parsed_literal {d : Datum} (h : d.Sendable) : (literal d).Parsed :=
  .of_leaf rfl ⟨.literal h, fun hkind => TermKind.noConfusion hkind⟩

/-- A term of the kind of literals is one with a datum, if it is `Parsed`. -/
theorem Parsed.exists_literal (h : t.Parsed) (hkind : t.kind = .datum) :
    ∃ d : Datum, d.Sendable ∧ t = literal d := by
  cases h.at_top.wellFormed with
  | literal hdatum => exact ⟨_, hdatum, rfl⟩
  | node hne => exact absurd hkind hne

/-- Where terms that were read are all literals, the datums that `literals?` finds can be sent. -/
theorem sendable_of_literals? (hts : ∀ t ∈ ts, t.Parsed) (h : literals? ts = some ds) :
    ∀ d ∈ ds, d.Sendable := by
  induction ts generalizing ds with
  | nil =>
    obtain rfl := Option.some.inj h
    exact List.forall_mem_nil _
  | cons t rest ih =>
    rw [List.forall_mem_cons] at hts
    by_cases hkind : t.kind = .datum
    · obtain ⟨d, hsendable, rfl⟩ := hts.1.exists_literal hkind
      have h : (literals? rest).bind (fun ds => some (d :: ds)) = some ds := h
      obtain ⟨ds', hds', h⟩ := Option.bind_eq_some_iff.mp h
      obtain rfl := Option.some.inj h
      rw [List.forall_mem_cons]
      exact ⟨hsendable, ih hts.2 hds'⟩
    · -- A term of another kind ends the search.
      have hnot : ¬t.isDatum = true := fun h => hkind (beq_iff_eq.mp h)
      rw [literals?, if_neg hnot] at h
      cases h

/-- `literals?` finds one datum for each term. -/
theorem length_of_literals? (h : literals? ts = some ds) : ds.length = ts.length := by
  induction ts generalizing ds with
  | nil =>
    obtain rfl := Option.some.inj h
    rfl
  | cons t rest ih =>
    obtain ⟨d, ds', -, hds', rfl⟩ := exists_of_literals? h
    rw [List.length_cons, List.length_cons, ih hds']

/-- Where `literals?` finds no datums, one of the terms is of another kind. -/
theorem exists_kind_ne_of_literals? (hts : ∀ t ∈ ts, t.Parsed) (h : literals? ts = none) :
    ∃ t ∈ ts, t.kind ≠ .datum := by
  by_contra hall
  -- Otherwise all terms were literals, and would be listed.
  have hliterals : ∀ t ∈ ts, IsLiteral t := by
    intro t ht
    have hkind : t.kind = .datum := by_contra fun hne => hall ⟨t, ht, hne⟩
    obtain ⟨d, -, rfl⟩ := (hts t ht).exists_literal hkind
    exact ⟨d, rfl⟩
  obtain ⟨ds, hds⟩ := exists_literals?_eq_some hliterals
  rw [h] at hds
  cases hds

/-- A node is `Parsed` where its arguments and options are. As an array it needs an argument that is
    no literal; `Members.ofList` takes care of options of one name. -/
theorem parsed_node (hkind : kind ≠ .datum) (harray : kind = .makeArray → ∃ t ∈ ts, t.kind ≠ .datum)
    (hts : ∀ t ∈ ts, t.Parsed) (hos : ∀ o ∈ os, o.2.Parsed) :
    (mk kind ts (Members.ofList os) none).Parsed := by
  refine .intro ⟨.node hkind (Members.nodup_ofList os), harray⟩ fun t ht => ?_
  rcases List.mem_append.mp ht with ht | ht
  · -- The node lists each option once, and none that was not there.
    exact hts t ht
  · obtain ⟨o, ho, rfl⟩ := List.mem_map.mp ((Members.values_ofList_subperm os).subset ht)
    exact hos o ho

/-- What `collapse` makes of `Parsed` arguments and options is `Parsed`: an array whose arguments
    are all literals becomes a literal. -/
theorem parsed_collapse (hkind : kind ≠ .datum) (hts : ∀ t ∈ ts, t.Parsed)
    (hos : ∀ o ∈ os, o.2.Parsed) : (collapse kind ts os).Parsed := by
  unfold collapse
  split
  · split
    · rename_i ds hds
      exact parsed_literal (.intro trivial (sendable_of_literals? hts hds))
    · rename_i hnone
      exact parsed_node hkind (fun _ => exists_kind_ne_of_literals? hts hnone) hts hos
  · -- No other kind is collapsed.
    rename_i harray
    exact parsed_node hkind (fun h => absurd h harray) hts hos

/-- What `ofMembers` makes of `Parsed` members is `Parsed`: an object whose members are all literals
    becomes a literal. -/
theorem parsed_ofMembers (hos : ∀ o ∈ os, o.2.Parsed) (hnodup : (os.map Prod.fst).Nodup) :
    (ofMembers os).Parsed := by
  unfold ofMembers
  split
  · rename_i ds hds
    have hts : ∀ t ∈ os.map Prod.snd, t.Parsed := List.forall_mem_map.mpr hos
    have hlength : (os.map Prod.fst).length = ds.length := by
      rw [List.length_map, length_of_literals? hds, List.length_map]
    -- The object of the literal has the keys and the datums of the members.
    refine parsed_literal (.intro ?_ ?_)
    · have hkeys : ((os.map Prod.fst).zip ds).map Prod.fst = os.map Prod.fst :=
        List.map_fst_zip hlength.le
      show (((os.map Prod.fst).zip ds).map Prod.fst).Nodup
      rw [hkeys]
      exact hnodup
    · have hvalues : ((os.map Prod.fst).zip ds).map Prod.snd = ds :=
        List.map_snd_zip hlength.ge
      rw [Datum.parts, hvalues]
      exact sendable_of_literals? hts hds
  · exact parsed_node TermKind.noConfusion (fun h => TermKind.noConfusion h)
      (List.forall_mem_nil _) hos

/-! ## What is read -/

/-- `ofWireArgs` gives terms with a property that each JSON value gives its term. -/
theorem forall_of_ofWireArgs {holds : Term → Prop} {js : List Json}
    (h : ∀ j ∈ js, ∀ t, ofWire j = .ok t → holds t) (hts : ofWireArgs js = .ok ts) :
    ∀ t ∈ ts, holds t := by
  -- Induction on the items, each of which is read by itself.
  induction js generalizing ts with
  | nil =>
    obtain rfl := Except.ok.inj hts
    exact List.forall_mem_nil _
  | cons j rest ih =>
    obtain ⟨hj, hrest⟩ := List.forall_mem_cons.mp h
    obtain ⟨t, ht, hts⟩ := exists_of_bind_eq_ok hts
    obtain ⟨ts', hts', hts⟩ := exists_of_bind_eq_ok hts
    obtain rfl := Except.ok.inj hts
    exact List.forall_mem_cons.mpr ⟨hj t ht, ih hrest hts'⟩

/-- `ofWireMembers` gives terms with a property that each value gives its term, under the names in
    their order. -/
theorem forall_of_ofWireMembers {holds : Term → Prop} {js : List (String × Json)}
    (h : ∀ m ∈ js, ∀ t, ofWire m.2 = .ok t → holds t) (hos : ofWireMembers js = .ok os) :
    os.map Prod.fst = js.map Prod.fst ∧ ∀ o ∈ os, holds o.2 := by
  -- Induction on the members, whose names are kept.
  induction js generalizing os with
  | nil =>
    obtain rfl := Except.ok.inj hos
    exact ⟨rfl, List.forall_mem_nil _⟩
  | cons m rest ih =>
    obtain ⟨name, j⟩ := m
    obtain ⟨hj, hrest⟩ := List.forall_mem_cons.mp h
    obtain ⟨t, ht, hos⟩ := exists_of_bind_eq_ok hos
    obtain ⟨os', hos', hos⟩ := exists_of_bind_eq_ok hos
    obtain rfl := Except.ok.inj hos
    obtain ⟨hnames, hvalues⟩ := ih hrest hos'
    exact ⟨congrArg (name :: ·) hnames, List.forall_mem_cons.mpr ⟨hj t ht, hvalues⟩⟩

/-- What follows a kind is read by `ofWireParts` as its arguments and its options, each of which may
    be absent. -/
theorem exists_of_ofWireParts {items : List Json} (h : ofWireParts kind items = .ok t) :
    ∃ args options ts os, t = collapse kind ts os ∧ ofWireArgs args = .ok ts ∧
      ofWireMembers options = .ok os ∧ (args = [] ∨ .array args ∈ items) ∧
      (options = [] ∨ .object options ∈ items) := by
  unfold ofWireParts at h
  split at h
  · exact ⟨[], [], [], [], (Except.ok.inj h).symm, rfl, rfl, .inl rfl, .inl rfl⟩
  · rename_i args
    obtain ⟨ts, hts, h⟩ := exists_of_bind_eq_ok h
    exact ⟨args, [], ts, [], (Except.ok.inj h).symm, hts, rfl, .inr (.head _), .inl rfl⟩
  · rename_i args options _
    obtain ⟨ts, hts, h⟩ := exists_of_bind_eq_ok h
    obtain ⟨os, hos, h⟩ := exists_of_bind_eq_ok h
    exact ⟨args, options, ts, os, (Except.ok.inj h).symm, hts, hos, .inr (.head _),
      .inr (.tail _ (.head _))⟩
  · -- A third item and options that are no object are errors.
    obtain ⟨ts, -, h⟩ := exists_of_bind_eq_ok h
    cases h
  · cases h

/-- A term that `ofWire` reads from a lawful JSON value is `Parsed`. So are the terms read from its
    direct parts, which the induction needs for arguments that stand in an array of their own. -/
theorem parsed_of_ofWire_parts {j : Json} (hj : j.Lawful) :
    ∀ part ∈ j :: j.parts, ∀ t, ofWire part = .ok t → t.Parsed := by
  induction hj with
  | @intro j top rest ih =>
    have hparts : ∀ part ∈ j.parts, ∀ t, ofWire part = .ok t → t.Parsed :=
      fun part hpart => ih part hpart part (.head _)
    refine List.forall_mem_cons.mpr ⟨fun t h => ?_, hparts⟩
    cases j with
    -- What is neither an array nor an object is a literal.
    | null | bool | integer | float | string =>
      obtain rfl := Except.ok.inj h
      exact parsed_literal (Datum.sendable_ofJson (.intro top rest))
    | object members =>
      -- Its values are direct parts of it.
      obtain ⟨os, hos, h⟩ := exists_of_bind_eq_ok h
      obtain rfl := Except.ok.inj h
      have hvalues : ∀ m ∈ members, ∀ t, ofWire m.2 = .ok t → t.Parsed :=
        fun m hm => hparts m.2 (List.mem_map_of_mem hm)
      obtain ⟨hnames, hos⟩ := forall_of_ofWireMembers hvalues hos
      exact parsed_ofMembers hos (hnames ▸ top.2)
    | array items =>
      cases items with
      | nil => cases h
      | cons first items =>
        obtain ⟨kind, -, h⟩ := exists_of_bind_eq_ok h
        by_cases hkind : kind = .datum
        · -- The first item is taken as it stands, and nothing else counts.
          rw [if_pos hkind] at h
          cases items with
          | nil => cases h
          | cons value others =>
            obtain rfl := Except.ok.inj h
            exact parsed_literal (Datum.sendable_ofJson (rest value (.tail _ (.head _))))
        · -- Arguments and options are parts of an array and of an object that are direct parts.
          rw [if_neg hkind] at h
          obtain ⟨args, options, ts, os, rfl, hts, hos, hargs, hoptions⟩ := exists_of_ofWireParts h
          refine parsed_collapse hkind (forall_of_ofWireArgs (fun j hj => ?_) hts)
            (forall_of_ofWireMembers (fun m hm => ?_) hos).2
          · rcases hargs with rfl | hargs
            · cases hj
            · exact ih (.array args) (.tail _ hargs) j (.tail _ hj)
          · rcases hoptions with rfl | hoptions
            · cases hm
            · exact ih (.object options) (.tail _ hoptions) m.2 (.tail _ (List.mem_map_of_mem hm))

/-- A term that `ofWire` reads from a lawful JSON value is `Parsed`. -/
theorem parsed_of_ofWire {j : Json} (hj : j.Lawful) (h : ofWire j = .ok t) : t.Parsed :=
  parsed_of_ofWire_parts hj j (.head _) t h

/-! ## What was read and is sent -/

/-- Arguments that are their own normal forms are kept by `normalArgs`. -/
theorem normalArgs_eq_self (h : ∀ t ∈ ts, t.normal = t) : normalArgs ts = ts := by
  induction ts with
  | nil => rfl
  | cons t rest ih =>
    rw [List.forall_mem_cons] at h
    rw [normalArgs, h.1, ih h.2]

/-- Options that are their own normal forms are kept by `normalOptions`. -/
theorem normalOptions_eq_self (h : ∀ o ∈ os, o.2.normal = o.2) : normalOptions os = os := by
  induction os with
  | nil => rfl
  | cons o rest ih =>
    rw [List.forall_mem_cons] at h
    rw [normalOptions, h.1, ih h.2]

/-- A `Parsed` term is its own `normal` form. -/
theorem Parsed.normal_eq (h : t.Parsed) : t.normal = t := by
  induction h with
  -- The parts are in normal form by `ih`, and no array consists of literals.
  | @intro t top _ ih =>
    obtain ⟨kind, args, options, datum⟩ := t
    have hargs : normalArgs args = args :=
      normalArgs_eq_self fun arg harg => ih arg (List.mem_append_left _ harg)
    have hoptions : normalOptions options = options :=
      normalOptions_eq_self fun o ho =>
        ih o.2 (List.mem_append_right _ (List.mem_map_of_mem ho))
    have hmixed : ¬(kind = .makeArray ∧ args.all isDatum = true) := by
      rintro ⟨hkind, hall⟩
      obtain ⟨arg, harg, hne⟩ := top.array hkind
      exact hne (beq_iff_eq.mp (List.all_eq_true.mp hall arg harg))
    rw [normal, hargs, hoptions, if_neg hmixed]

/-- The node has a `datum` just where it is of the kind of literals, and as a `makeArray` it has an
    argument that is no literal. -/
structure CanonicalNode (t : Term) : Prop where
  datum_iff : t.kind = .datum ↔ t.datum.isSome = true
  array : t.kind = .makeArray → ∃ arg ∈ t.args, arg.kind ≠ .datum

/-- Only literals hold a datum and no array consists of literals, at every depth: `CanonicalNode` of
    all `parts`. -/
abbrev Canonical : Term → Prop := Everywhere parts CanonicalNode

/-- A `ParsedNode` is a `CanonicalNode`. -/
theorem ParsedNode.canonical (h : ParsedNode t) : CanonicalNode t := by
  refine ⟨?_, h.array⟩
  cases h.wellFormed with
  | literal => exact ⟨fun _ => rfl, fun _ => rfl⟩
  | node hkind => exact ⟨fun h => absurd h hkind, fun h => absurd h Bool.false_ne_true⟩

/-- A term that `ofWire` reads from any spelling of its wire form is `Canonical`: only its literals
    hold a datum, and none of its arrays consists of literals. It can be sent, and what is sent
    reads back as the same term. -/
theorem canonical_of_ofWire {j : Json} {t : Term} (hj : j.Lawful) (h : ofWire j = .ok t) :
    t.Canonical ∧ ∃ j' t', t.toWire = .ok j' ∧ ofWire j' = .ok t' ∧ (t' == t) = true := by
  have hparsed := parsed_of_ofWire hj h
  -- A term that was read is its own normal form, and the normal form of a term in good form reads
  -- back.
  obtain ⟨j', t', hwrite, hread, hsame⟩ := readsBack (hparsed.imp fun _ => (·.wellFormed))
  rw [hparsed.normal_eq] at hsame
  exact ⟨hparsed.imp fun _ => (·.canonical), j', t', hwrite, hread, hsame⟩

/-- An object of a literal, an array with an explicit literal that is itself an array, a parameter
    and a short array. -/
def spellings : Json :=
  .object [("count", .integer 3),
    ("rows", .array [.integer 2,
      .array [.array [.integer 1, .array [.array [], .float (.zero true)]]]]),
    ("of", .array [.integer 10, .array [.integer 1]]), ("none", .array [.integer 2])]

/-- The term that `spellings` reads as. -/
def spelledOut : Term :=
  makeObject [("count", slot 3),
    ("rows", literal (.array [.array [.array [], .number (.zero true)]])),
    ("of", var 1), ("none", literal (.array []))]

/-- `canonical_of_ofWire` at `spellings`: the explicit literal is wrapped as a term when it is sent,
    and reads back. -/
theorem canonical_of_ofWire_spellings :
    (spellings.Lawful ∧ ofWire spellings = .ok spelledOut) ∧ spelledOut.Canonical ∧
      ∃ j' t', spelledOut.toWire = .ok j' ∧ ofWire j' = .ok t' ∧ (t' == spelledOut) = true := by
  have hread : ofWire spellings = .ok spelledOut := by rfl
  -- Lawfulness of numbers is that of their range, and of an array that of its items.
  have hinteger {n : Int} (hword : Json.isWord n = true) : (Json.integer n).Lawful :=
    .of_leaf rfl ⟨hword, trivial⟩
  have harray {items : List Json} (hitems : ∀ j ∈ items, j.Lawful) : (Json.array items).Lawful :=
    .intro ⟨trivial, trivial⟩ hitems
  have hone : (Json.integer 1).Lawful := hinteger (by decide)
  have htwo : (Json.integer 2).Lawful := hinteger (by decide)
  have hfinite : (Binary.zero true : Binary64).isFinite = true := by decide +kernel
  have hzero : (Json.float (.zero true)).Lawful := .of_leaf rfl ⟨hfinite, trivial⟩
  -- From the inside out: the raw rows, the literal that holds them, and the array around it.
  have hrows : (Json.array [.array [], .float (.zero true)]).Lawful :=
    harray (by simp [hzero, harray])
  have hraw : (Json.array [.integer 1, .array [.array [], .float (.zero true)]]).Lawful :=
    harray (by simp [hone, hrows])
  have hwrapped :
      (Json.array [.array [.integer 1, .array [.array [], .float (.zero true)]]]).Lawful :=
    harray (by simp [hraw])
  have hkeys : ["count", "rows", "of", "none"].Nodup := by decide
  have hlawful : spellings.Lawful := by
    -- One goal for each of the four members.
    refine .intro ⟨trivial, hkeys⟩ ?_
    simp only [spellings, Json.parts, List.map, List.forall_mem_cons]
    refine ⟨hinteger (by decide), harray ?_, harray ?_, harray ?_, List.forall_mem_nil _⟩
    · simp [htwo, hwrapped]
    · have hargs : (Json.array [.integer 1]).Lawful := harray (by simp [hone])
      simp [hargs, hinteger (n := 10) (by decide)]
    · simp [htwo]
  exact ⟨⟨hlawful, hread⟩, canonical_of_ofWire hlawful hread⟩

end Term

end DocQuery
