import DocQuery.Proofs.Term.Resend

/-!
# What reading the wire form keeps

The wire form of any term reads back, and as a term with the wire form of the normal form. The
normal form drops the options of an array of literals, so these get lost on the way, and nothing
else does.

## Key results

- `Term.rereads_of_toWire`: the wire form of a term rereads as the wire form of its normal form
- `Term.toWire_normal`, `Term.lossless_of_toWire_normal`: both are one JSON value where no array of
  literals has options, and only there
- `Term.resends`: a term whose arrays have no options can be sent and read back
- `Term.ofWire_of_toWire`: what reading the wire form of a term keeps
-/

namespace DocQuery.Term

open Sequence (exists_of_bind_eq_ok exists_of_forall₂)

variable {kind : TermKind} {args ts : List Term} {options os : List (String × Term)}
  {datum : Option Datum} {js js' : List Json} {jos jos' : List (String × Json)}

/-- The `parts` of a term are smaller, which `Everywhere.of_forall` needs. -/
theorem sizeOf_lt_of_mem_parts (t : Term) : ∀ part ∈ t.parts, sizeOf part < sizeOf t := by
  obtain ⟨kind, args, options, datum⟩ := t
  intro part hpart
  -- A part is an argument or the value of an option.
  rcases List.mem_append.mp hpart with harg | hoption
  · have hlt : sizeOf part < sizeOf args := List.sizeOf_lt_of_mem harg
    simp
    omega
  · obtain ⟨⟨name, part⟩, ho, rfl⟩ := List.mem_map.mp hoption
    have hlt : sizeOf (name, part) < sizeOf options := List.sizeOf_lt_of_mem ho
    simp at hlt ⊢
    omega

/-! ## Nodes and arrays of literals -/

/-- The node is a `makeArray` whose arguments are all literals. -/
abbrev IsLiteralArray (kind : TermKind) (args : List Term) : Prop :=
  kind = .makeArray ∧ args.all isDatum = true

/-- Literals that have a wire form have a datum each, and `literals?` finds them. -/
theorem literals?_of_toWireArgs (hall : ts.all isDatum = true) (h : toWireArgs ts = .ok js) :
    literals? ts = some (ts.filterMap Term.datum) := by
  induction ts generalizing js with
  | nil => rfl
  | cons t rest ih =>
    rw [List.all_cons, Bool.and_eq_true] at hall
    obtain ⟨j, hj, h⟩ := exists_of_bind_eq_ok h
    obtain ⟨js', hjs, -⟩ := exists_of_bind_eq_ok h
    obtain ⟨kind, args, options, datum⟩ := t
    have hkind : kind = .datum := beq_iff_eq.mp hall.1
    cases datum with
    | none =>
      -- A literal without a datum is not written.
      rw [toWire, if_pos hkind] at hj
      cases hj
    | some d =>
      rw [literals?, if_pos hall.1, ih hall.2 hjs]
      rfl

/-- The literal that an array of literals becomes is written as the array without its options. -/
theorem toWire_literalArray (hall : ts.all isDatum = true) (h : toWireArgs ts = .ok js) :
    (literal (.array (ts.filterMap Term.datum))).toWire =
      .ok (.array [.integer TermKind.makeArray.id, .array js]) := by
  have hitems := toWireItems_of_literals? (literals?_of_toWireArgs hall h)
  rw [toWire_literal, Datum.toWire, hitems, h]
  rfl

/-- `collapse` makes a literal of an array of literals, and drops the options. -/
theorem collapse_of_literalArray (hliteral : IsLiteralArray kind ts) (h : toWireArgs ts = .ok js) :
    collapse kind ts os = literal (.array (ts.filterMap Term.datum)) := by
  rw [collapse, if_pos hliteral.1, literals?_of_toWireArgs hliteral.2 h]

/-- `collapse` keeps a node that is no array of literals. -/
theorem collapse_of_not_literalArray (hmixed : ¬IsLiteralArray kind ts)
    (hnodup : (os.map Prod.fst).Nodup) : collapse kind ts os = mk kind ts os none := by
  rw [collapse, Members.ofList_of_nodup hnodup]
  by_cases hkind : kind = .makeArray
  · have hall : ts.all isDatum = false := by
      rw [Bool.eq_false_iff]
      exact fun hall => hmixed ⟨hkind, hall⟩
    -- One argument is no literal, so there is no list of datums.
    rw [if_pos hkind, literals?_eq_none hall]
  · rw [if_neg hkind]

/-- The `normal` form of an array whose arguments become literals is a literal. -/
theorem normal_of_literalArray (hliteral : IsLiteralArray kind (normalArgs args)) :
    (mk kind args options datum).normal =
      literal (.array ((normalArgs args).filterMap Term.datum)) := by
  rw [normal, if_pos hliteral]

/-- The `normal` form of any other node is the node with the normal forms of its parts. -/
theorem normal_of_not_literalArray (hmixed : ¬IsLiteralArray kind (normalArgs args)) :
    (mk kind args options datum).normal =
      mk kind (normalArgs args) (normalOptions options) datum := by
  rw [normal, if_neg hmixed]

/-- There are as many `normalOptions` as options. -/
theorem normalOptions_ne_nil (h : options ≠ []) : normalOptions options ≠ [] := by
  cases options with
  | nil => exact absurd rfl h
  | cons o rest => exact List.cons_ne_nil _ _

/-! ## Reading what was written -/

/-- What is written of the term `Rereads` as what is written of its `normal` form, by way of a
    literal just where the normal form is one. -/
def RereadsAsNormal (t : Term) : Prop :=
  ∀ j, t.toWire = .ok j → ∃ j', t.normal.toWire = .ok j' ∧
    Rereads (fun t' => t'.isDatum = t.normal.isDatum) j j'

/-- Arguments with `RereadsAsNormal` are read one by one, and are literals where their normal forms
    are. -/
theorem rereads_args (h : ∀ arg ∈ args, RereadsAsNormal arg) (hjs : toWireArgs args = .ok js) :
    ∃ ts js', ofWireArgs js = .ok ts ∧ toWireArgs ts = .ok js' ∧
      toWireArgs (normalArgs args) = .ok js' ∧
      ts.all isDatum = (normalArgs args).all isDatum := by
  -- Induction on the arguments, each of which reads back as its normal form by `h`.
  induction args generalizing js with
  | nil =>
    obtain rfl := Except.ok.inj hjs
    exact ⟨[], [], rfl, rfl, rfl, rfl⟩
  | cons arg rest ih =>
    rw [List.forall_mem_cons] at h
    obtain ⟨j, hj, hjs⟩ := exists_of_bind_eq_ok hjs
    obtain ⟨js₁, hjs₁, hjs⟩ := exists_of_bind_eq_ok hjs
    obtain rfl := Except.ok.inj hjs
    obtain ⟨j', hnormal, t, hread, hwrite, hkind⟩ := h.1 j hj
    obtain ⟨ts, js', hreads, hwrites, hnormals, hkinds⟩ := ih h.2 hjs₁
    -- In turn: reading, writing it again, writing the normal form, and where all are literals.
    refine ⟨t :: ts, j' :: js', ?_, ?_, ?_, ?_⟩
    · rw [ofWireArgs, hread, hreads]; rfl
    · rw [toWireArgs, hwrite, hwrites]; rfl
    · rw [normalArgs, toWireArgs, hnormal, hnormals]; rfl
    · rw [normalArgs, List.all_cons, List.all_cons, hkind, hkinds]

/-- Options with `RereadsAsNormal` are read one by one. Members that were written before stand for
    what they reread as. A later option of the same name takes the place of one of them on both
    sides. -/
theorem rereads_options {done done' : List (String × Json)}
    (h : ∀ o ∈ options, RereadsAsNormal o.2)
    (hdone : List.Forall₂ (RereadsMember fun _ => True) done done')
    (hjos : toWireOptions done options = .ok jos) :
    ∃ jos', toWireOptions done' (normalOptions options) = .ok jos' ∧
      List.Forall₂ (RereadsMember fun _ => True) jos jos' := by
  -- Induction on the options. A later one may take the place of an earlier one of its name.
  induction options generalizing done done' with
  | nil =>
    obtain rfl := Except.ok.inj hjos
    exact ⟨done', rfl, hdone⟩
  | cons o rest ih =>
    obtain ⟨name, value⟩ := o
    rw [List.forall_mem_cons] at h
    obtain ⟨j, hj, hjos⟩ := exists_of_bind_eq_ok hjos
    obtain ⟨j', hnormal, t, hread, hwrite, -⟩ := h.1 j hj
    have hmember : Rereads (fun _ => True) j j' := ⟨t, hread, hwrite, trivial⟩
    obtain ⟨jos', hjos', hrelated⟩ := ih h.2 (Members.forall₂_set hdone hmember name) hjos
    refine ⟨jos', ?_, hrelated⟩
    rw [normalOptions, toWireOptions, hnormal]
    exact hjos'

/-- A literal is `RereadsAsNormal`: it is its own normal form. -/
theorem rereads_literal (args : List Term) (options : List (String × Term))
    (datum : Option Datum) : RereadsAsNormal (mk .datum args options datum) := by
  intro j hj
  -- A literal is no array, so its normal form is itself.
  have hmixed : ¬IsLiteralArray .datum (normalArgs args) := fun h => TermKind.noConfusion h.1
  rw [normal_of_not_literalArray hmixed]
  unfold toWire at hj ⊢
  rw [if_pos rfl] at hj ⊢
  cases datum with
  | none => cases hj
  | some d =>
    obtain ⟨t, hread, hwrite, d', rfl⟩ := settled_of_toWire_datum hj
    exact ⟨j, hj, literal d', hread, hwrite, rfl⟩

/-- The wire form of a node is read as arguments and options that are written as their normal forms
    are. -/
theorem exists_of_toWire_node {j : Json} (hkind : kind ≠ .datum)
    (hargs : ∀ arg ∈ args, RereadsAsNormal arg) (hoptions : ∀ o ∈ options, RereadsAsNormal o.2)
    (hj : (mk kind args options datum).toWire = .ok j) :
    ∃ ts os js' j', ofWire j = .ok (collapse kind ts os) ∧ (os.map Prod.fst).Nodup ∧
      toWireArgs ts = .ok js' ∧ toWireArgs (normalArgs args) = .ok js' ∧
      ts.all isDatum = (normalArgs args).all isDatum ∧ (mk kind ts os none).toWire = .ok j' ∧
      (mk kind (normalArgs args) (normalOptions options) datum).toWire = .ok j' := by
  obtain ⟨js, hjs, hshape⟩ := exists_of_toWire hkind hj
  obtain ⟨ts, js', hreads, hwrites, hnormals, hkinds⟩ := rereads_args hargs hjs
  -- Without options the wire form has no object at its end.
  rcases hshape with ⟨rfl, rfl⟩ | ⟨hne, jos, hjos, rfl⟩
  · refine ⟨ts, [], js', _, ?_, .nil, hwrites, hnormals, hkinds, toWire_node hkind hwrites none,
      toWire_node hkind hnormals datum⟩
    rw [ofWire_node hkind, hreads]
    rfl
  · obtain ⟨jos', hjos', hrelated⟩ := rereads_options hoptions .nil hjos
    -- Reading asks for distinct names, and options are written with such names.
    have htrue : ∀ o ∈ options, ∀ j, o.2.toWire = .ok j → True := fun _ _ _ _ => trivial
    have hnodup : (jos.map Prod.fst).Nodup := (forall_of_toWireOptions htrue hjos).1
    obtain ⟨os, hreados, hwriteos, hnames, -⟩ :=
      rereads_members [] hrelated hnodup fun _ hk => absurd hk List.not_mem_nil
    -- Options are written as a list that is not empty, and so they come back.
    have hos : os ≠ [] := by
      rintro rfl
      exact ne_nil_of_toWireOptions (.inr hne) hjos (List.map_eq_nil_iff.mp hnames.symm)
    refine ⟨ts, os, js', _, ?_, hnames ▸ hnodup, hwrites, hnormals, hkinds,
      toWire_node_options hkind hwrites hos hwriteos none,
      toWire_node_options hkind hnormals (normalOptions_ne_nil hne) hjos' datum⟩
    rw [ofWire_node_options hkind, hreads, hreados]
    rfl

/-- A node is `RereadsAsNormal` where its arguments and its options are. -/
theorem rereads_node (hkind : kind ≠ .datum) (hargs : ∀ arg ∈ args, RereadsAsNormal arg)
    (hoptions : ∀ o ∈ options, RereadsAsNormal o.2) :
    RereadsAsNormal (mk kind args options datum) := by
  intro j hj
  obtain ⟨ts, os, js', j', hread, hnodup, hwrites, hnormals, hkinds, hwrite, hnormal⟩ :=
    exists_of_toWire_node hkind hargs hoptions hj
  by_cases hliteral : IsLiteralArray kind (normalArgs args)
  · -- Both become one literal, and the options of both are gone.
    have hts : IsLiteralArray kind ts := ⟨hliteral.1, hkinds ▸ hliteral.2⟩
    rw [collapse_of_literalArray hts hwrites] at hread
    rw [normal_of_literalArray hliteral]
    exact ⟨_, toWire_literalArray hliteral.2 hnormals, _, hread,
      toWire_literalArray hts.2 hwrites, rfl⟩
  · -- Neither becomes a literal, so the node is read with its options.
    have hts : ¬IsLiteralArray kind ts := fun h => hliteral ⟨h.1, hkinds ▸ h.2⟩
    rw [collapse_of_not_literalArray hts hnodup] at hread
    rw [normal_of_not_literalArray hliteral]
    exact ⟨j', hnormal, _, hread, hwrite, rfl⟩

/-- The wire form of a term rereads as the wire form of its `normal` form. -/
theorem rereads_of_toWire (t : Term) : RereadsAsNormal t := by
  -- On the term, by its parts.
  have hall := Everywhere.of_forall sizeOf_lt_of_mem_parts (fun _ => trivial) t
  induction hall with
  | @intro t _ _ ih =>
    obtain ⟨kind, args, options, datum⟩ := t
    by_cases hkind : kind = .datum
    · subst hkind
      exact rereads_literal args options datum
    · exact rereads_node hkind (fun arg harg => ih arg (List.mem_append_left _ harg))
        fun o ho => ih o.2 (List.mem_append_right _ (List.mem_map_of_mem ho))

/-! ## What gets lost -/

/-- A node that is an `IsLiteralArray` in its normal form has no options. -/
def LosslessNode (t : Term) : Prop :=
  IsLiteralArray t.kind (normalArgs t.args) → t.options = []

/-- No array of literals has options, at any depth: `LosslessNode` of all `parts`. -/
abbrev Lossless : Term → Prop := Everywhere parts LosslessNode

/-- A literal is applied to nothing, and the options have distinct names. -/
structure TidyNode (t : Term) : Prop where
  literal : t.kind = .datum → t.parts = []
  names : (t.options.map Prod.fst).Nodup

/-- Literals are applied to nothing and options have distinct names, at every depth: `TidyNode` of
    all `parts`. -/
abbrev Tidy : Term → Prop := Everywhere parts TidyNode

/-- Arguments that are written as their normal forms are written together as these. -/
theorem toWireArgs_normal
    (h : ∀ arg ∈ args, ∀ j, arg.toWire = .ok j → arg.normal.toWire = .ok j)
    (hjs : toWireArgs args = .ok js) : toWireArgs (normalArgs args) = .ok js := by
  -- Induction on the arguments, with what is sent for each of them.
  induction args generalizing js with
  | nil => exact hjs
  | cons arg rest ih =>
    rw [List.forall_mem_cons] at h
    obtain ⟨j, hj, hjs⟩ := exists_of_bind_eq_ok hjs
    obtain ⟨js', hjs', hjs⟩ := exists_of_bind_eq_ok hjs
    obtain rfl := Except.ok.inj hjs
    rw [normalArgs, toWireArgs, h.1 j hj, ih h.2 hjs']
    rfl

/-- Options that are written as their normal forms are written together as these. -/
theorem toWireOptions_normal {done : List (String × Json)}
    (h : ∀ o ∈ options, ∀ j, o.2.toWire = .ok j → o.2.normal.toWire = .ok j)
    (hjos : toWireOptions done options = .ok jos) :
    toWireOptions done (normalOptions options) = .ok jos := by
  induction options generalizing done with
  | nil => exact hjos
  | cons o rest ih =>
    rw [List.forall_mem_cons] at h
    obtain ⟨j, hj, hjos⟩ := exists_of_bind_eq_ok hjos
    have hrest := ih h.2 hjos
    rw [normalOptions, toWireOptions, h.1 j hj]
    exact hrest

/-- A `Lossless` term has the wire form of its `normal` form. -/
theorem toWire_normal {t : Term} (h : t.Lossless) :
    ∀ {j : Json}, t.toWire = .ok j → t.normal.toWire = .ok j := by
  induction h with
  | @intro t top _ ih =>
    intro j hj
    obtain ⟨kind, args, options, datum⟩ := t
    by_cases hkind : kind = .datum
    · subst hkind
      have hmixed : ¬IsLiteralArray .datum (normalArgs args) := fun h => TermKind.noConfusion h.1
      -- A literal is written by its datum alone.
      rw [normal_of_not_literalArray hmixed]
      unfold toWire at hj ⊢
      exact hj
    · obtain ⟨js, hjs, hshape⟩ := exists_of_toWire hkind hj
      have hargs := toWireArgs_normal
        (fun arg harg j hj => ih arg (List.mem_append_left _ harg) hj) hjs
      by_cases hliteral : IsLiteralArray kind (normalArgs args)
      · -- The normal form is a literal, which has the short wire form as well.
        have hnone : options = [] := top hliteral
        obtain ⟨-, rfl⟩ := hshape.resolve_right fun h => h.1 hnone
        rw [normal_of_literalArray hliteral, toWire_literalArray hliteral.2 hargs, hliteral.1]
      · rw [normal_of_not_literalArray hliteral]
        -- Both have options, or neither has.
        rcases hshape with ⟨rfl, rfl⟩ | ⟨hne, jos, hjos, rfl⟩
        · exact toWire_node hkind hargs datum
        · have hoptions := toWireOptions_normal (fun o ho j hj =>
            ih o.2 (List.mem_append_right _ (List.mem_map_of_mem ho)) hj) hjos
          exact toWire_node_options hkind hargs (normalOptions_ne_nil hne) hoptions datum

/-- A term whose literals have finite numbers and whose arrays have no options `Resends`: it can be
    sent and read back. -/
theorem resends {t : Term} (hfinite : t.Finite) (hplain : t.PlainArrays) : t.Resends := by
  obtain ⟨j, hj⟩ := exists_toWire hfinite
  obtain ⟨j', hnormal, t', hread, hwrite, -⟩ := rereads_of_toWire t j hj
  -- No array has options that could get lost.
  have hlossless : t.Lossless := hplain.imp fun _ hnone harray => hnone harray.1
  obtain rfl := Except.ok.inj (hnormal.symm.trans (toWire_normal hlossless hj))
  exact ⟨j', t', hj, hread, hwrite⟩

/-- Arguments that are written together as their normal forms are written one by one as these. -/
theorem exists_of_toWireArgs_normal (hjs : toWireArgs args = .ok js)
    (hnormal : toWireArgs (normalArgs args) = .ok js) :
    ∀ arg ∈ args, ∃ j, arg.toWire = .ok j ∧ arg.normal.toWire = .ok j := by
  induction args generalizing js with
  | nil => exact List.forall_mem_nil _
  | cons arg rest ih =>
    obtain ⟨j, hj, hjs⟩ := exists_of_bind_eq_ok hjs
    obtain ⟨js₁, hjs₁, hjs⟩ := exists_of_bind_eq_ok hjs
    -- Both lists are sent as the same items, one by one.
    obtain rfl := Except.ok.inj hjs
    obtain ⟨j', hj', hnormal⟩ := exists_of_bind_eq_ok hnormal
    obtain ⟨js₂, hjs₂, hnormal⟩ := exists_of_bind_eq_ok hnormal
    obtain ⟨rfl, rfl⟩ := List.cons.inj (Except.ok.inj hnormal)
    rw [List.forall_mem_cons]
    exact ⟨⟨_, hj, hj'⟩, ih hjs₁ hjs₂⟩

/-- `toWireOptions` writes options with new and distinct names in their order behind what was
    written before. -/
theorem exists_of_toWireOptions {done : List (String × Json)}
    (hnodup : (options.map Prod.fst).Nodup)
    (hdisj : ∀ k ∈ done.map Prod.fst, k ∉ options.map Prod.fst)
    (hjos : toWireOptions done options = .ok jos) :
    ∃ written, jos = done ++ written ∧
      List.Forall₂ (fun o m => o.1 = m.1 ∧ o.2.toWire = .ok m.2) options written := by
  induction options generalizing done with
  | nil =>
    obtain rfl := Except.ok.inj hjos
    exact ⟨[], (List.append_nil _).symm, .nil⟩
  | cons o rest ih =>
    obtain ⟨name, value⟩ := o
    rw [List.map_cons, List.nodup_cons] at hnodup
    obtain ⟨j, hj, hjos⟩ := exists_of_bind_eq_ok hjos
    -- A new name is added at the end.
    have hnew : name ∉ done.map Prod.fst := fun hmem => hdisj _ hmem (List.mem_cons_self ..)
    have hlater : ∀ k ∈ done.map Prod.fst, k ∉ rest.map Prod.fst :=
      fun k hk hrest => hdisj k hk (List.mem_cons_of_mem _ hrest)
    have hjos : toWireOptions (Members.set name j done) rest = .ok jos := hjos
    rw [Members.set_of_notMem hnew] at hjos
    obtain ⟨written, rfl, hwritten⟩ :=
      ih hnodup.2 (Members.names_disjoint_append j hnodup.1 hlater) hjos
    exact ⟨(name, j) :: written, List.append_assoc .., .cons ⟨rfl, hj⟩ hwritten⟩

/-- `normalOptions` is `normal` of each value. -/
theorem normalOptions_eq_map (options : List (String × Term)) :
    normalOptions options = options.map fun o => (o.1, o.2.normal) := by
  induction options with
  | nil => rfl
  | cons o rest ih => rw [normalOptions, ih, List.map_cons]

/-- Options that are written together as their normal forms are written one by one as these. -/
theorem exists_of_toWireOptions_normal (hnodup : (options.map Prod.fst).Nodup)
    (hjos : toWireOptions [] options = .ok jos)
    (hnormal : toWireOptions [] (normalOptions options) = .ok jos) :
    ∀ o ∈ options, ∃ j, o.2.toWire = .ok j ∧ o.2.normal.toWire = .ok j := by
  have hdisj : ∀ names : List String, ∀ k ∈ ([] : List (String × Json)).map Prod.fst, k ∉ names :=
    fun _ _ hk => absurd hk List.not_mem_nil
  have hnames : ((normalOptions options).map Prod.fst).Nodup := by
    rw [normalOptions_eq_map, List.map_map]
    exact hnodup
  obtain ⟨_, rfl, hwritten⟩ := exists_of_toWireOptions hnodup (hdisj _) hjos
  obtain ⟨_, rfl, hwritten'⟩ := exists_of_toWireOptions hnames (hdisj _) hnormal
  -- Both lists have the names in one order, so the values stand at the same places.
  rw [normalOptions_eq_map, List.forall₂_map_left_iff] at hwritten'
  have hboth : List.Forall₂ (fun m (o : String × Term) => o.2.toWire = .ok m.2 ∧
      o.2.normal.toWire = .ok m.2) jos options :=
    .flip (.mp (fun _ _ ho ho' => ⟨ho.2, ho'.2⟩) hwritten hwritten')
  intro o ho
  obtain ⟨m, -, hm⟩ := exists_of_forall₂ hboth o ho
  exact ⟨m.2, hm⟩

/-- Where a node and its normal form have one wire form, so have its parts, and the node is a
    `LosslessNode`. -/
theorem losslessNode_of_toWire_normal {j : Json} (hkind : kind ≠ .datum)
    (hnodup : (options.map Prod.fst).Nodup) (hj : (mk kind args options datum).toWire = .ok j)
    (hnormal : (mk kind args options datum).normal.toWire = .ok j) :
    LosslessNode (mk kind args options datum) ∧
      (∀ arg ∈ args, ∃ j, arg.toWire = .ok j ∧ arg.normal.toWire = .ok j) ∧
      ∀ o ∈ options, ∃ j, o.2.toWire = .ok j ∧ o.2.normal.toWire = .ok j := by
  obtain ⟨js, hjs, hshape⟩ := exists_of_toWire hkind hj
  by_cases hliteral : IsLiteralArray kind (normalArgs args)
  · obtain ⟨ts, js', -, -, hnormals, -⟩ := rereads_args (fun arg _ => rereads_of_toWire arg) hjs
    rw [normal_of_literalArray hliteral, toWire_literalArray hliteral.2 hnormals] at hnormal
    -- The literal is written without options, so there were none.
    rcases hshape with ⟨rfl, rfl⟩ | ⟨-, jos, -, rfl⟩
    · obtain rfl : js' = js := by simpa [hliteral.1] using hnormal
      exact ⟨fun _ => rfl, exists_of_toWireArgs_normal hjs hnormals, List.forall_mem_nil _⟩
    · simp at hnormal
  · rw [normal_of_not_literalArray hliteral] at hnormal
    obtain ⟨js', hnormals, hshape'⟩ := exists_of_toWire hkind hnormal
    rcases hshape with ⟨rfl, rfl⟩ | ⟨hne, jos, hjos, rfl⟩
    · -- Without options the wire forms end after the arguments.
      rcases hshape' with ⟨-, hsame⟩ | ⟨hne', -⟩
      · obtain rfl : js = js' := by simpa using hsame
        exact ⟨fun _ => rfl, exists_of_toWireArgs_normal hjs hnormals, List.forall_mem_nil _⟩
      · exact absurd rfl hne'
    · -- With options both have an object at their end.
      rcases hshape' with ⟨hnil, -⟩ | ⟨-, jos', hjos', hsame⟩
      · exact absurd hnil (normalOptions_ne_nil hne)
      · obtain ⟨rfl, rfl⟩ : js = js' ∧ jos = jos' := by simpa using hsame
        exact ⟨fun h => absurd h hliteral, exists_of_toWireArgs_normal hjs hnormals,
          exists_of_toWireOptions_normal hnodup hjos hjos'⟩

/-- A `Tidy` term with the wire form of its `normal` form is `Lossless`. -/
theorem lossless_of_toWire_normal {t : Term} (htidy : t.Tidy) :
    ∀ {j : Json}, t.toWire = .ok j → t.normal.toWire = .ok j → t.Lossless := by
  induction htidy with
  | @intro t top _ ih =>
    intro j hj hnormal
    obtain ⟨kind, args, options, datum⟩ := t
    by_cases hkind : kind = .datum
    · -- A tidy literal has no parts.
      exact .of_leaf (top.literal hkind) fun h => TermKind.noConfusion (hkind.symm.trans h.1)
    obtain ⟨hnode, hargs, hoptions⟩ := losslessNode_of_toWire_normal hkind top.names hj hnormal
    refine .intro hnode fun part hpart => ?_
    rcases List.mem_append.mp hpart with harg | hoption
    · obtain ⟨j, hj, hnormal⟩ := hargs part harg
      exact ih part hpart hj hnormal
    · obtain ⟨o, ho, rfl⟩ := List.mem_map.mp hoption
      obtain ⟨j, hj, hnormal⟩ := hoptions o ho
      exact ih o.2 hpart hj hnormal

/-- The wire form of a term reads back, by `ofWire`, as a term with the wire form of the `normal`
    form. A `Tidy` term comes back with the wire form that it was read from just where it is
    `Lossless`. -/
theorem ofWire_of_toWire {t : Term} {j : Json} (h : t.toWire = .ok j) :
    ∃ t' j', ofWire j = .ok t' ∧ t'.toWire = .ok j' ∧ t.normal.toWire = .ok j' ∧
      (t.Lossless → j' = j) ∧ (t.Tidy → j' = j → t.Lossless) := by
  obtain ⟨j', hnormal, t', hread, hwrite, -⟩ := rereads_of_toWire t j h
  refine ⟨t', j', hread, hwrite, hnormal, fun hlossless => ?_, ?_⟩
  · rw [toWire_normal hlossless h] at hnormal
    exact (Except.ok.inj hnormal).symm
  · rintro htidy rfl
    exact lossless_of_toWire_normal htidy h hnormal

/-- An array of a literal with the option `"x"`. -/
def labelledArray : Term := (makeArray [literal (.ofInt 1)]).withOption "x" (literal (.ofInt 1))

/-- The wire form of `labelledArray`, with its option. -/
def labelledArrayWire : Json :=
  .array [.integer 2, .array [.integer 1], .object [("x", .integer 1)]]

/-- `toWire` writes `labelledArray` with its option. -/
theorem toWire_labelledArray : labelledArray.toWire = .ok labelledArrayWire := by
  -- The number is sent as an integer, both as the argument and as the option.
  have hone : (literal (.ofInt 1)).toWire = .ok (.integer 1) := by
    rw [toWire_literal, Datum.ofInt, Datum.toWire, if_pos (by decide +kernel), Datum.toJson,
      Datum.safeInteger?_ofInt (by decide)]
  have hargs : toWireArgs [literal (.ofInt 1)] = .ok [.integer 1] := by
    rw [toWireArgs, hone]
    rfl
  have hoptions : toWireOptions [] [("x", literal (.ofInt 1))] = .ok [("x", .integer 1)] := by
    rw [toWireOptions, hone]
    rfl
  exact toWire_node_options TermKind.noConfusion hargs (List.cons_ne_nil _ _) hoptions none

/-- `ofWire_of_toWire` at `labelledArray`, which loses its option. -/
theorem ofWire_of_toWire_labelledArray :
    labelledArray.toWire = .ok labelledArrayWire ∧
      ∃ t' j', ofWire labelledArrayWire = .ok t' ∧ t'.toWire = .ok j' ∧
        labelledArray.normal.toWire = .ok j' ∧ (labelledArray.Lossless → j' = labelledArrayWire) ∧
        (labelledArray.Tidy → j' = labelledArrayWire → labelledArray.Lossless) :=
  ⟨toWire_labelledArray, ofWire_of_toWire toWire_labelledArray⟩

/-- Not every wire form reads back as a term with the same wire form: that of `labelledArray` does
    not. -/
theorem not_ofWire_of_toWire_keeps :
    ¬∀ (t : Term) (j : Json), t.toWire = .ok j →
      ∃ t', ofWire j = .ok t' ∧ t'.toWire = .ok j := by
  intro hall
  obtain ⟨t', hread, hwrite⟩ := hall labelledArray labelledArrayWire toWire_labelledArray
  have hcollapsed : ofWire labelledArrayWire = .ok (literal (.array [.ofInt 1])) := by rfl
  obtain rfl := Except.ok.inj (hread.symm.trans hcollapsed)
  -- What was read is written without an option.
  rw [toWire_literal, Datum.toWire] at hwrite
  obtain ⟨items, -, h⟩ := exists_of_bind_eq_ok hwrite
  have hshape := Except.ok.inj h
  simp [labelledArrayWire] at hshape

end DocQuery.Term
