import DocQuery.Proofs.Datum.Wire

/-!
# The wire form of terms reads back

A term in good form has literals with a datum and nothing else, other terms without a datum, and
options with distinct names. Its wire form reads back as its normal form, in which arrays of
literals have become literals.

## Key results

- `Term.same_literal`: only a literal is the same as a literal
- `Term.readsBack_node`: a term reads back where its arguments and its options do
- `Term.ofWire_toWire`: the wire form of a term reads back as the normal form of the term
-/

namespace DocQuery.Term

/-! ## Equality, good form and normal form -/

mutual

/-- Equality of contents: options in order, numbers by value, which is `==` on terms. -/
def same : Term → Term → Bool
  | mk kind args options datum, mk kind' args' options' datum' =>
    kind == kind' && sameArgs args args' && sameOptions options options' && datum == datum'

/-- `same` on arguments, place by place. -/
def sameArgs : List Term → List Term → Bool
  | [], [] => true
  | a :: as, b :: bs => same a b && sameArgs as bs
  | _, _ => false

/-- `same` on options, place by place, with equal names. -/
def sameOptions : List (String × Term) → List (String × Term) → Bool
  | [], [] => true
  | (k, a) :: as, (l, b) :: bs => k == l && same a b && sameOptions as bs
  | _, _ => false

end

instance : BEq Term := ⟨same⟩

/-- The terms that a term is applied to directly: those to which `Everywhere` goes down. -/
def parts (t : Term) : List Term := t.args ++ t.options.map Prod.snd

/-- A `literal` holds a datum that can be sent and nothing else, any other term holds no datum and
    has options with distinct names. -/
inductive WellFormedNode : Term → Prop where
  | literal {datum : Datum} (hdatum : datum.Sendable) : WellFormedNode (literal datum)
  | node {kind : TermKind} {args : List Term} {options : List (String × Term)}
    (hkind : kind ≠ .datum) (hnodup : (options.map Prod.fst).Nodup) :
    WellFormedNode (mk kind args options none)

/-- A term that is a `WellFormedNode` at every depth. -/
abbrev WellFormed : Term → Prop := Everywhere parts WellFormedNode

/-- No `makeArray` has options, at any depth. -/
abbrev PlainArrays : Term → Prop :=
  Everywhere parts fun t => t.kind = .makeArray → t.options = []

mutual

/-- The normal form: from the leaves up, every array of literals becomes one `literal`. -/
def normal : Term → Term
  | mk kind args options datum =>
    if kind = .makeArray ∧ (normalArgs args).all isDatum then
      literal (.array ((normalArgs args).filterMap Term.datum))
    else mk kind (normalArgs args) (normalOptions options) datum

/-- The `normal` forms of arguments. -/
def normalArgs : List Term → List Term
  | [] => []
  | arg :: rest => normal arg :: normalArgs rest

/-- The `normal` forms of the values of options. -/
def normalOptions : List (String × Term) → List (String × Term)
  | [] => []
  | (name, value) :: rest => (name, normal value) :: normalOptions rest

end

@[simp] theorem normal_literal (d : Datum) : (literal d).normal = literal d := by
  simp [literal, normal, normalArgs, normalOptions]

/-- A `normal` form of the kind of literals is a literal with a datum, for a term in good form. -/
theorem exists_literal_of_isDatum {t : Term} (h : t.WellFormed) (hdatum : t.normal.isDatum = true) :
    ∃ d, t.normal = literal d := by
  cases h.at_top with
  | literal => exact ⟨_, normal_literal _⟩
  | @node kind args options hkind hnodup =>
    rw [normal] at hdatum ⊢
    split
    · -- An array of literals has become a literal, and any other node keeps its kind.
      exact ⟨_, rfl⟩
    · rename_i hother
      rw [if_neg hother] at hdatum
      exact absurd (beq_iff_eq.mp hdatum) hkind

/-! ## Terms that are the same -/

/-- Only a literal is the `same` as a literal. -/
theorem same_literal {t : Term} {d : Datum} (h : t.same (literal d) = true) :
    ∃ d', t = literal d' ∧ (d' == d) = true := by
  obtain ⟨kind, args, options, datum⟩ := t
  simp only [literal, same, Bool.and_eq_true, beq_iff_eq] at h
  obtain ⟨⟨⟨rfl, hargs⟩, hoptions⟩, hdatum⟩ := h
  -- A literal has neither arguments nor options.
  obtain rfl : args = [] := by cases args with
    | nil => rfl
    | cons => cases hargs
  obtain rfl : options = [] := by cases options with
    | nil => rfl
    | cons => cases hoptions
  cases datum with
  | none => cases hdatum
  | some d' => exact ⟨d', rfl, hdatum⟩

/-- Literals of datums that are the `same` are the same. -/
theorem same_literal_of_same {d' d : Datum} (h : d'.same d = true) :
    (literal d').same (literal d) = true := by
  have hdatum : (some d' == some d) = true := h
  simp [literal, same, sameArgs, sameOptions, hdatum]

/-- Terms that are the `same` are of one kind. -/
theorem kind_eq_of_same {t n : Term} (h : t.same n = true) : t.kind = n.kind := by
  obtain ⟨kind, args, options, datum⟩ := t
  obtain ⟨kind', args', options', datum'⟩ := n
  simp only [same, Bool.and_eq_true, beq_iff_eq] at h
  exact h.1.1.1

/-- Terms that are the `same` are all literals on both sides or on neither. -/
theorem all_isDatum_of_same {ts ns : List Term} (h : sameArgs ts ns = true) :
    ts.all isDatum = ns.all isDatum := by
  -- Induction on both lists, which have one length.
  induction ts generalizing ns with
  | nil => cases ns with
    | nil => rfl
    | cons => cases h
  | cons t ts ih => cases ns with
    | nil => cases h
    | cons n ns =>
      simp only [sameArgs, Bool.and_eq_true] at h
      rw [List.all_cons, List.all_cons, ih h.2, isDatum, isDatum, kind_eq_of_same h.1]

/-- Only literals are the `same` as literals, in a list as well. -/
theorem sameArgs_literals {ts : List Term} {ds : List Datum}
    (h : sameArgs ts (ds.map literal) = true) :
    ∃ ds', ts = ds'.map literal ∧ Datum.sameItems ds' ds = true := by
  -- Induction on the data. A term that is equal to a literal is one.
  induction ds generalizing ts with
  | nil => cases ts with
    | nil => exact ⟨[], rfl, rfl⟩
    | cons => cases h
  | cons d ds ih => cases ts with
    | nil => cases h
    | cons t ts =>
      simp only [List.map_cons, sameArgs, Bool.and_eq_true] at h
      obtain ⟨d', rfl, hd⟩ := same_literal h.1
      obtain ⟨ds', rfl, hds⟩ := ih h.2
      have hd : d'.same d = true := hd
      exact ⟨d' :: ds', rfl, by rw [Datum.sameItems, hd, hds]; rfl⟩

/-! ## Arrays of literals -/

/-- Terms in good form whose `normal` forms are of the kind of literals have literals there. -/
theorem exists_literals {ts : List Term} (h : ∀ t ∈ ts, t.WellFormed)
    (hall : (normalArgs ts).all isDatum = true) :
    ∃ ds : List Datum, normalArgs ts = ds.map literal := by
  induction ts with
  | nil => exact ⟨[], rfl⟩
  | cons t ts ih =>
    rw [normalArgs, List.all_cons, Bool.and_eq_true] at hall
    obtain ⟨d, hd⟩ := exists_literal_of_isDatum (h t (.head _)) hall.1
    obtain ⟨ds, hds⟩ := ih (fun x hx => h x (.tail _ hx)) hall.2
    exact ⟨d :: ds, by rw [normalArgs, hd, hds, List.map_cons]⟩

/-- `literals?` finds no list of datums for terms that are not all literals. -/
theorem literals?_eq_none {ts : List Term} (h : ts.all isDatum = false) : literals? ts = none := by
  induction ts with
  | nil => cases h
  -- If the front term is a literal, another one is not.
  | cons t ts ih =>
    rw [List.all_cons] at h
    rw [literals?]
    split
    · rename_i ht
      rw [ht, Bool.true_and] at h
      rw [ih h]
      cases t.datum <;> rfl
    · rfl

/-- Arguments that are the same as `normal` forms make, under `collapse`, a term that is the same as
    the normal form of the whole. -/
theorem collapse_same {kind : TermKind} {args ts : List Term} {options os : List (String × Term)}
    (hwell : ∀ arg ∈ args, arg.WellFormed) (hargs : sameArgs ts (normalArgs args) = true)
    (hoptions : sameOptions os (normalOptions options) = true)
    (hnodup : (os.map Prod.fst).Nodup) :
    (collapse kind ts os).same (normal (mk kind args options none)) = true := by
  rw [normal, collapse, Members.ofList_of_nodup hnodup]
  by_cases hkind : kind = .makeArray
  · subst hkind
    rw [if_pos rfl]
    cases hall : (normalArgs args).all isDatum with
    | true =>
      -- Both sides become one literal, of datums that are the same.
      obtain ⟨ds, hds⟩ := exists_literals hwell hall
      rw [hds] at hargs ⊢
      obtain ⟨ds', rfl, hsame⟩ := sameArgs_literals hargs
      have hdatums : (ds.map literal).filterMap Term.datum = ds := by
        rw [List.filterMap_map]
        exact List.filterMap_some
      rw [if_pos ⟨rfl, rfl⟩, Datum.literals?_map_literal, hdatums]
      exact same_literal_of_same hsame
    | false =>
      -- Terms that are the same as these are not all literals either, so both stay arrays.
      have hnone : literals? ts = none := literals?_eq_none (all_isDatum_of_same hargs ▸ hall)
      rw [hnone, if_neg (by simp)]
      simp only [same, hargs, hoptions, beq_self_eq_true, Bool.and_self]
      rfl
  · -- A node of another kind stays as it is, whatever its arguments are.
    rw [if_neg hkind, if_neg fun h => hkind h.1]
    simp only [same, hargs, hoptions, beq_self_eq_true, Bool.and_self]
    rfl

/-! ## Reading back -/

/-- The wire form of a term reads back, by `ofWire`, as the `normal` form of the term. -/
def ReadsBack (t : Term) : Prop :=
  ∃ j t', t.toWire = .ok j ∧ ofWire j = .ok t' ∧ t'.same t.normal = true

/-- The wire forms of arguments with `ReadsBack` read back one by one. -/
theorem readsBack_args {args : List Term} (h : ∀ arg ∈ args, ReadsBack arg) :
    ∃ js ts, toWireArgs args = .ok js ∧ ofWireArgs js = .ok ts ∧
      sameArgs ts (normalArgs args) = true := by
  -- In the order of the arguments: writing, reading and equality with the normal form.
  induction args with
  | nil => exact ⟨[], [], rfl, rfl, rfl⟩
  | cons arg args ih =>
    obtain ⟨j, t, hwrite, hread, hsame⟩ := h arg (.head _)
    obtain ⟨js, ts, hwrites, hreads, hsames⟩ := ih fun x hx => h x (.tail _ hx)
    refine ⟨j :: js, t :: ts, ?_, ?_, ?_⟩
    · rw [toWireArgs, hwrite, hwrites]; rfl
    · rw [ofWireArgs, hread, hreads]; rfl
    · rw [normalArgs, sameArgs, hsame, hsames]; rfl

/-- The wire forms of options with new and distinct names read back one by one. -/
theorem readsBack_options {options : List (String × Term)} (done : List (String × Json))
    (h : ∀ o ∈ options, ReadsBack o.2) (hnodup : (options.map Prod.fst).Nodup)
    (hdisj : ∀ k ∈ done.map Prod.fst, k ∉ options.map Prod.fst) :
    ∃ js os, toWireOptions done options = .ok (done ++ js) ∧ ofWireMembers js = .ok os ∧
      os.map Prod.fst = options.map Prod.fst ∧
      sameOptions os (normalOptions options) = true := by
  induction options generalizing done with
  | nil => exact ⟨[], [], by rw [List.append_nil]; rfl, rfl, rfl, rfl⟩
  | cons o options ih =>
    obtain ⟨name, value⟩ := o
    rw [List.map_cons, List.nodup_cons] at hnodup
    obtain ⟨j, t, hwrite, hread, hsame⟩ := h _ (.head _)
    have hnew : name ∉ done.map Prod.fst := fun hmem => hdisj _ hmem (List.mem_cons_self ..)
    have hlater : ∀ k ∈ done.map Prod.fst, k ∉ options.map Prod.fst :=
      fun k hk hrest => hdisj k hk (List.mem_cons_of_mem _ hrest)
    obtain ⟨js, os, hwrites, hreads, hnames, hsames⟩ :=
      ih (done ++ [(name, j)]) (fun x hx => h x (.tail _ hx)) hnodup.2
        (Members.names_disjoint_append j hnodup.1 hlater)
    refine ⟨(name, j) :: js, (name, t) :: os, ?_, ?_, ?_, ?_⟩
    · -- A new name is written behind those before it.
      rw [toWireOptions, hwrite]
      show toWireOptions (Members.set name j done) options = _
      rw [Members.set_of_notMem hnew, hwrites, List.append_assoc, List.singleton_append]
    · rw [ofWireMembers, hread, hreads]; rfl
    · rw [List.map_cons, hnames, List.map_cons]
    · simp [normalOptions, sameOptions, hsame, hsames]

/-- A literal `ReadsBack` where its datum can be sent. -/
theorem readsBack_literal {d : Datum} (h : d.Sendable) : ReadsBack (literal d) := by
  obtain ⟨j, d', hwrite, hread, hsame⟩ := Datum.ofWire_toWire_literal h
  refine ⟨j, literal d', ?_, hread, ?_⟩
  · rw [literal, toWire, if_pos rfl]
    exact hwrite
  · rw [normal_literal]
    exact same_literal_of_same hsame

/-- A term that is no literal `ReadsBack` where its arguments and its options do. -/
theorem readsBack_node {kind : TermKind} {args : List Term} {options : List (String × Term)}
    (hkind : kind ≠ .datum) (hnodup : (options.map Prod.fst).Nodup)
    (hwell : ∀ arg ∈ args, arg.WellFormed) (hargs : ∀ arg ∈ args, ReadsBack arg)
    (hoptions : ∀ o ∈ options, ReadsBack o.2) :
    ReadsBack (mk kind args options none) := by
  obtain ⟨js, ts, hwrites, hreads, hsames⟩ := readsBack_args hargs
  -- Options are written only where there are any, so the wire form has two shapes.
  cases options with
  | nil =>
    refine ⟨.array [.integer kind.id, .array js], collapse kind ts [], ?_, ?_, ?_⟩
    · rw [toWire, if_neg hkind, hwrites]; rfl
    · rw [ofWire_node hkind, hreads]; rfl
    · exact collapse_same hwell hsames rfl .nil
  | cons o options =>
    obtain ⟨jos, os, hwriteos, hreados, hnames, hsameos⟩ :=
      readsBack_options [] hoptions hnodup fun _ hk => absurd hk List.not_mem_nil
    refine ⟨.array [.integer kind.id, .array js, .object jos], collapse kind ts os, ?_, ?_, ?_⟩
    · rw [toWire, if_neg hkind, hwrites]
      show (do
        let options ← toWireOptions [] (o :: options)
        return Json.array [.integer kind.id, .array js, .object options] : Except Error Json) = _
      rw [hwriteos]; rfl
    · rw [ofWire_node_options hkind, hreads, hreados]; rfl
    · exact collapse_same hwell hsames hsameos (hnames ▸ hnodup)

/-- A term in good form `ReadsBack`. -/
theorem readsBack {t : Term} (hwell : t.WellFormed) : ReadsBack t := by
  induction hwell with
  | @intro t top rest ih =>
    cases top with
    | literal hdatum => exact readsBack_literal hdatum
    | @node kind args options hkind hnodup =>
      have hargs : ∀ arg ∈ args, arg ∈ (mk kind args options none).parts :=
        fun arg harg => List.mem_append_left _ harg
      have hoptions : ∀ o ∈ options, o.2 ∈ (mk kind args options none).parts :=
        fun o ho => List.mem_append_right _ (List.mem_map_of_mem ho)
      -- Arguments and options are parts alike, so the hypothesis covers both.
      exact readsBack_node hkind hnodup (fun arg harg => rest arg (hargs arg harg))
        (fun arg harg => ih arg (hargs arg harg)) fun o ho => ih o.2 (hoptions o ho)

/-- A term in good form whose arrays have no options can be sent, and its wire form reads back as
    the `normal` form of the term. A literal reads back as a literal with the same datum. -/
theorem ofWire_toWire {t : Term} (hwell : t.WellFormed) (hplain : t.PlainArrays) :
    ∃ j t', t.toWire = .ok j ∧ ofWire j = .ok t' ∧ (t' == t.normal) = true ∧
      ∀ d, t = literal d → ∃ d', t' = literal d' ∧ (d' == d) = true := by
  obtain ⟨j, t', hwrite, hread, hsame⟩ := readsBack hwell
  refine ⟨j, t', hwrite, hread, hsame, ?_⟩
  rintro d rfl
  rw [normal_literal] at hsame
  exact same_literal hsame

/-- A table with an option and an array of literals, one of them an array, as its argument. -/
def outdatedRows : Term :=
  mk .table [makeArray [literal (.array [.null]), literal (.number (.zero true))]]
    [("read_mode", literal (.string "outdated"))] none

/-- `ofWire_toWire` at `outdatedRows`, whose inner array comes back as one literal. -/
theorem ofWire_toWire_outdatedRows :
    (outdatedRows.WellFormed ∧ outdatedRows.PlainArrays) ∧
      ∃ j t', outdatedRows.toWire = .ok j ∧ ofWire j = .ok t' ∧ (t' == outdatedRows.normal) = true ∧
        ∀ d, outdatedRows = literal d → ∃ d', t' = literal d' ∧ (d' == d) = true := by
  have hatom {d : Datum} (hparts : d.parts = []) (hd : d.SendableNode) :
      (literal d).WellFormed := .of_leaf rfl (.literal (.of_leaf hparts hd))
  have hnull : Everywhere Datum.parts Datum.SendableNode .null := .of_leaf rfl trivial
  have hzero : (Binary.zero true : Binary64).isFinite = true := by decide +kernel
  -- Two levels of nodes above the literals: the table, then the array of rows.
  have hwell : outdatedRows.WellFormed := by
    refine .intro (.node (by decide) (by decide)) ?_
    simp only [outdatedRows, parts, args, options, List.map, List.cons_append, List.nil_append,
      List.forall_mem_cons]
    refine ⟨.intro (.node (by decide) .nil) ?_, hatom rfl trivial, by simp⟩
    simp only [makeArray, node, parts, args, options, List.map, List.append_nil,
      List.forall_mem_cons]
    exact ⟨.of_leaf rfl (.literal (.intro trivial (by simpa [Datum.parts] using hnull))),
      hatom rfl hzero, by simp⟩
  have hliteral (d : Datum) : (literal d).PlainArrays := .of_leaf rfl fun _ => rfl
  have hplain : outdatedRows.PlainArrays := by
    refine .intro (by simp [outdatedRows, kind]) ?_
    simp only [outdatedRows, parts, args, options, List.map, List.cons_append, List.nil_append,
      List.forall_mem_cons]
    refine ⟨.intro (fun _ => rfl) ?_, hliteral _, by simp⟩
    simp only [makeArray, node, parts, args, options, List.map, List.append_nil,
      List.forall_mem_cons]
    exact ⟨hliteral _, hliteral _, by simp⟩
  exact ⟨⟨hwell, hplain⟩, ofWire_toWire hwell hplain⟩

end DocQuery.Term
