import DocQuery.Json.Reader
import DocQuery.Proofs.Everywhere
import DocQuery.Proofs.Members
import DocQuery.Proofs.Number.Bounds

/-!
# Lawful JSON values

A JSON value as documents hold it has whole numbers of 64 bits, other numbers that are finite, and
objects with distinct keys. The reader only makes such numbers, token by token, and merging the keys
that come up again makes the keys distinct.

## Key results

- `Json.isFinite_ofInt`: a whole number of a document is finite as a floating point number
- `Json.lawful_of_read?`: what a text reads as is lawful once its keys are merged
-/

namespace DocQuery.Json

/-- The values that an array or object holds directly: those to which `Everywhere` goes down. -/
def parts : Json → List Json
  | array items => items
  | object members => members.map Prod.snd
  | _ => []

/-- An `integer` has 64 bits, and a `float` is finite. -/
def NumeralNode : Json → Prop
  | integer n => isWord n = true
  | float x => x.isFinite = true
  | _ => True

/-- The keys of an `object` are distinct. -/
def KeysNode : Json → Prop
  | object members => (members.map Prod.fst).Nodup
  | _ => True

/-- A JSON value with numbers that a text can stand for, at every depth: `NumeralNode` of all
    `parts`. -/
abbrev Numeral : Json → Prop := Everywhere parts NumeralNode

/-- A JSON value as documents hold it, at every depth: `NumeralNode` and `KeysNode` of all
    `parts`. -/
abbrev Lawful : Json → Prop := Everywhere parts fun j => NumeralNode j ∧ KeysNode j

/-- A whole number with `isWord` is finite as a floating point number. -/
theorem isFinite_ofInt {n : Int} (h : isWord n = true) :
    (Binary.ofInt n : Binary64).isFinite = true := by
  obtain ⟨hleast, hgreatest⟩ := Bool.and_eq_true_iff.mp h
  -- The bounds of a word are the least `i64` and the greatest `u64`.
  have hleast : -9223372036854775808 ≤ n := of_decide_eq_true hleast
  have hgreatest : n ≤ 18446744073709551615 := of_decide_eq_true hgreatest
  exact (Binary.bounded_word (by omega)).isFinite

/-! ## Tokens -/

/-- The number of a token, if it is an `atom`, is one that a text can stand for. -/
def Token.Numeral : Token → Prop
  | .atom value => value.Numeral
  | _ => True

namespace Token

/-- What `number?` gives is a word or is checked to be finite. -/
theorem numeral_of_number? {negative : Bool} {whole : List Char} {fraction : Option (List Char)}
    {exp : Option Int} {j : Json} (h : number? negative whole fraction exp = some j) :
    j.Numeral := by
  unfold number? at h
  dsimp only at h
  generalize (if negative then -(Decimal.digitsValue whole : Int)
    else Decimal.digitsValue whole) = value at h
  split_ifs at h with hrounded hfinite hword hfinite
  · -- A mark of a fraction or exponent makes it a finite float, then a word, and what is too long
    -- for a word is a finite float again.
    exact Option.some.inj h ▸ .of_leaf rfl hfinite
  · exact Option.some.inj h ▸ .of_leaf rfl (Bool.and_eq_true_iff.mp hword).1
  · exact Option.some.inj h ▸ .of_leaf rfl hfinite

/-- `unsigned?` gives the number of `number?`, or the token of an error. -/
theorem numeral_of_unsigned? {negative : Bool} {cs rest : List Char} {token : Token}
    (h : unsigned? negative cs = some (token, rest)) : token.Numeral := by
  unfold unsigned? at h
  obtain ⟨⟨whole, afterWhole⟩, -, h⟩ := Option.bind_eq_some_iff.mp h
  obtain ⟨⟨fraction, afterFraction⟩, -, h⟩ := Option.bind_eq_some_iff.mp h
  obtain ⟨⟨exp, afterExponent⟩, -, h⟩ := Option.bind_eq_some_iff.mp h
  dsimp only at h
  -- The three parts are there; only the number that they make up counts.
  split at h
  · rename_i j hj
    obtain ⟨rfl, -⟩ := Prod.mk.inj (Option.some.inj h)
    exact numeral_of_number? hj
  · obtain ⟨rfl, -⟩ := Prod.mk.inj (Option.some.inj h)
    trivial

/-- `quoted?` gives a string or the token of an error, and neither holds a number. -/
theorem numeral_of_quoted? {cs rest : List Char} {token : Token}
    (h : quoted? cs = some (token, rest)) : token.Numeral := by
  unfold quoted? at h
  split at h
  · obtain ⟨rfl, -⟩ := Prod.mk.inj (Option.some.inj h)
    trivial
  · obtain ⟨after, -, h⟩ := Option.map_eq_some_iff.mp h
    obtain ⟨rfl, -⟩ := Prod.mk.inj h
    trivial

/-- Every token of `next?` has a number that a text can stand for. -/
theorem numeral_of_next? {cs rest : List Char} {token : Token}
    (h : next? cs = some (token, rest)) : token.Numeral := by
  unfold next? at h
  split at h
  -- A quote starts a string, and a sign or a digit a number. The names of constants hold no
  -- numbers.
  case h_7 => exact numeral_of_quoted? h
  case h_11 | h_12 => exact numeral_of_unsigned? h
  case h_8 | h_9 | h_10 =>
    obtain ⟨rfl, -⟩ := Prod.mk.inj (Option.some.inj h)
    exact .of_leaf rfl trivial
  all_goals
    obtain ⟨rfl, -⟩ := Prod.mk.inj (Option.some.inj h)
    trivial

/-- Every token of `scan` was in front of the rest of the text, so `numeral_of_next?` holds of each.
    The induction is on the budget, as the recursion of `scan` is. -/
theorem numeral_of_scan {budget : Nat} {cs : List Char} {tokens : List Token}
    (h : scan budget cs = some tokens) : ∀ token ∈ tokens, token.Numeral := by
  induction budget generalizing cs tokens with
  | zero =>
    unfold scan at h
    split at h
    · exact Option.some.inj h ▸ List.forall_mem_nil _
    · cases h
    · -- A step takes from the budget, and there is none.
      rename_i hbudget _
      cases hbudget
  | succ budget ih =>
    unfold scan at h
    split at h
    · exact Option.some.inj h ▸ List.forall_mem_nil _
    · cases h
    · rename_i hbudget _
      obtain rfl := Nat.succ.inj hbudget
      obtain ⟨⟨token, rest⟩, htoken, h⟩ := Option.bind_eq_some_iff.mp h
      obtain ⟨later, hlater, h⟩ := Option.bind_eq_some_iff.mp h
      obtain rfl := Option.some.inj h
      exact List.forall_mem_cons.mpr ⟨numeral_of_next? htoken, ih hlater⟩

end Token

/-! ## Runs of the reader -/

/-- The values of an unfinished array or object are `Json.Numeral`. -/
def Frame.Numeral : Frame → Prop
  | .array before => ∀ j ∈ before, j.Numeral
  | .object before _ => ∀ m ∈ before, m.2.Numeral

/-- With one more member, an unfinished object keeps `Frame.Numeral`. -/
theorem Frame.Numeral.cons_member {before : List (String × Json)} {key : String} {value : Json}
    (h : (Frame.object before key).Numeral) (hvalue : value.Numeral) :
    ∀ m ∈ (key, value) :: before, m.2.Numeral :=
  List.forall_mem_cons.mpr ⟨hvalue, h⟩

/-- The members and the value that were read last are `Json.Numeral`. -/
def Phase.Numeral : Phase → Prop
  | .key before => ∀ m ∈ before, m.2.Numeral
  | .colon before _ => ∀ m ∈ before, m.2.Numeral
  | .after complete => complete.Numeral
  | _ => True

theorem numeral_array {items : List Json} (h : ∀ j ∈ items, j.Numeral) :
    (array items).Numeral := .intro trivial h

theorem numeral_object {members : List (String × Json)} (h : ∀ m ∈ members, m.2.Numeral) :
    (object members).Numeral := .intro trivial (List.forall_mem_map.mpr h)

namespace ReadState

/-- What was read so far holds numbers that a text can stand for: in the unfinished arrays and
    objects and in the value that was read last. -/
structure Numeral (s : ReadState) : Prop where
  stack : ∀ frame ∈ s.stack, frame.Numeral
  phase : s.phase.Numeral

variable {limit : Nat} {stack : List Frame} {token : Token} {s s' : ReadState}

/-- `beginValue` opens an array or object, or takes the value of a token, and so keeps `Numeral`. -/
theorem numeral_of_beginValue (hstack : ∀ frame ∈ stack, frame.Numeral) (htoken : token.Numeral)
    (h : beginValue limit stack token = some s) : s.Numeral := by
  unfold beginValue at h
  split at h
  case h_1 | h_2 =>
    -- Where arrays and objects are nested too deep, nothing is opened.
    split_ifs at h
    obtain rfl := Option.some.inj h
    exact ⟨hstack, trivial⟩
  case h_3 =>
    obtain rfl := Option.some.inj h
    exact ⟨hstack, Everywhere.of_leaf rfl trivial⟩
  case h_4 =>
    obtain rfl := Option.some.inj h
    exact ⟨hstack, htoken⟩
  case h_5 => cases h

/-- `afterValue` puts a value into the array or object around it, or ends that, and so keeps
    `Numeral`. -/
theorem numeral_of_afterValue {value : Json} (hvalue : value.Numeral)
    (hstack : ∀ frame ∈ stack, frame.Numeral) (h : afterValue value stack token = some s) :
    s.Numeral := by
  unfold afterValue at h
  split at h
  case h_5 => cases h
  all_goals
    -- In each of the four cases there is an array or object around the value.
    obtain rfl := Option.some.inj h
    obtain ⟨hbefore, hstack⟩ := List.forall_mem_cons.mp hstack
  case h_1 =>
    refine ⟨List.forall_mem_cons.mpr ⟨?_, hstack⟩, trivial⟩
    exact List.forall_mem_cons.mpr ⟨hvalue, hbefore⟩
  -- The array ends; its items were kept in reverse order.
  case h_2 =>
    refine ⟨hstack, numeral_array fun j hj => ?_⟩
    exact List.forall_mem_cons.mpr ⟨hvalue, hbefore⟩ j (List.mem_reverse.mp hj)
  case h_3 => exact ⟨hstack, hbefore.cons_member hvalue⟩
  -- The object ends likewise.
  case h_4 =>
    refine ⟨hstack, numeral_object fun m hm => ?_⟩
    exact hbefore.cons_member hvalue m (List.mem_reverse.mp hm)

/-- One `step` keeps `Numeral`. -/
theorem numeral_step (hs : s.Numeral) (htoken : token.Numeral) (h : s.step limit token = some s') :
    s'.Numeral := by
  obtain ⟨stack, phase⟩ := s
  obtain ⟨hstack, hphase⟩ := hs
  have hopened : ∀ frame ∈ .array [] :: stack, frame.Numeral :=
    List.forall_mem_cons.mpr ⟨List.forall_mem_nil _, hstack⟩
  -- An array that was just opened has no items yet, so a value in it has the empty frame around it.
  unfold step at h
  dsimp only at h
  split at h
  case h_1 => exact numeral_of_beginValue hstack htoken h
  case h_3 => exact numeral_of_beginValue hopened htoken h
  case h_8 => exact numeral_of_afterValue hphase hstack h
  case h_9 => cases h
  all_goals obtain rfl := Option.some.inj h
  case h_2 => exact ⟨hstack, numeral_array (List.forall_mem_nil _)⟩
  case h_4 => exact ⟨hstack, numeral_object (List.forall_mem_nil _)⟩
  case h_5 => exact ⟨hstack, List.forall_mem_nil _⟩
  case h_6 => exact ⟨hstack, hphase⟩
  case h_7 => exact ⟨List.forall_mem_cons.mpr ⟨hphase, hstack⟩, trivial⟩

/-- The run over all tokens keeps `Numeral`, by `numeral_step`. -/
theorem numeral_run {tokens : List Token} (hs : s.Numeral) (htokens : ∀ t ∈ tokens, t.Numeral)
    (h : tokens.foldlM (step limit) s = some s') : s'.Numeral := by
  induction tokens generalizing s with
  | nil => exact Option.some.inj h ▸ hs
  | cons token rest ih =>
    obtain ⟨htoken, hrest⟩ := List.forall_mem_cons.mp htokens
    rw [List.foldlM_cons] at h
    obtain ⟨next, hnext, h⟩ := Option.bind_eq_some_iff.mp h
    exact ih (numeral_step hs htoken hnext) hrest h

end ReadState

/-- A value that `read?` gives is `Numeral`: the start is, and every token and step keeps it. -/
theorem numeral_of_read? {text : String} {j : Json} (h : read? text = some j) : j.Numeral := by
  obtain ⟨tokens, htokens, h⟩ := Option.bind_eq_some_iff.mp h
  obtain ⟨final, hfinal, h⟩ := Option.bind_eq_some_iff.mp h
  have hstart : ReadState.start.Numeral := ⟨List.forall_mem_nil _, trivial⟩
  have hs := ReadState.numeral_run hstart (Token.numeral_of_scan htokens) hfinal
  unfold ReadState.result? at h
  -- Only the state behind a whole value gives a result.
  split at h
  · exact Option.some.inj h ▸ hs.phase
  · cases h

/-! ## Distinct keys -/

/-- `mergeItems` is `mergeKeys` of each item. -/
theorem mergeItems_eq (items : List Json) : mergeItems items = items.map mergeKeys := by
  induction items with
  | nil => rfl
  | cons j rest ih => rw [mergeItems, ih, List.map_cons]

/-- `mergeMembers` keeps that the keys are distinct and the values lawful, of the members merged
    before. -/
theorem mergeMembers_lawful {members done : List (String × Json)}
    (h : ∀ m ∈ members, m.2.mergeKeys.Lawful) (hnodup : (done.map Prod.fst).Nodup)
    (hdone : ∀ m ∈ done, m.2.Lawful) :
    ((mergeMembers done members).map Prod.fst).Nodup ∧
      ∀ m ∈ mergeMembers done members, m.2.Lawful := by
  induction members generalizing done with
  | nil => exact ⟨hnodup, hdone⟩
  | cons m rest ih =>
    obtain ⟨key, value⟩ := m
    obtain ⟨hvalue, hrest⟩ := List.forall_mem_cons.mp h
    rw [mergeMembers]
    -- `Members.set` overwrites a member under the key or adds one, so the keys stay distinct.
    exact ih hrest (Members.nodup_set hnodup key _) (Members.forall_mem_set hdone hvalue key)

/-- Values with `Numeral` are `Lawful` after `mergeKeys`. -/
theorem lawful_mergeKeys {j : Json} (h : j.Numeral) : j.mergeKeys.Lawful := by
  induction h with
  | @intro j top _ ih =>
    cases j with
    -- Leaves are kept by `mergeKeys`.
    | null | bool | string | integer | float => exact .of_leaf rfl ⟨top, trivial⟩
    | array items =>
      rw [mergeKeys, mergeItems_eq]
      exact .intro ⟨trivial, trivial⟩ (List.forall_mem_map.mpr ih)
    | object members =>
      -- Merging starts with no members, of which both hold.
      have hnone : (([] : List (String × Json)).map Prod.fst).Nodup := .nil
      obtain ⟨hnodup, hvalues⟩ := mergeMembers_lawful
        (fun m hm => ih m.2 (List.mem_map_of_mem hm)) hnone (List.forall_mem_nil _)
      rw [mergeKeys]
      exact .intro ⟨trivial, hnodup⟩ (List.forall_mem_map.mpr hvalues)

/-- What `read?` gives is `Lawful` after `mergeKeys`. -/
theorem lawful_of_read? {text : String} {j : Json} (h : read? text = some j) :
    j.mergeKeys.Lawful :=
  lawful_mergeKeys (numeral_of_read? h)

end DocQuery.Json
