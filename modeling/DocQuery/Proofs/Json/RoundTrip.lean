import DocQuery.Json.Reader
import DocQuery.Proofs.Json.Escape
import DocQuery.Proofs.Json.Lawful
import DocQuery.Proofs.Json.Spelling

/-!
# Written JSON values read back

The text of a value is the texts of its tokens one behind the other, so that scanning gives these
tokens back. The reader takes the tokens of a value and has the value, whatever arrays and objects
are open around it, as long as none is nested too deep.

## Key results

- `Token.spells_write`: the text of a value spells its tokens
- `ReadState.run_tokens`: the reader takes the tokens of a value for the value
- `Json.read?_write`: the text of a value reads back as the value
-/

namespace DocQuery.Json

mutual

/-- How deep arrays and objects are nested, where `[]` has the depth 1. -/
def depth : Json → Nat
  | array items => depthItems items + 1
  | object members => depthMembers members + 1
  | _ => 0

/-- The greatest `depth` of the items. -/
def depthItems : List Json → Nat
  | [] => 0
  | item :: rest => max (depth item) (depthItems rest)

/-- The greatest `depth` of the values of the members. -/
def depthMembers : List (String × Json) → Nat
  | [] => 0
  | (_, value) :: rest => max (depth value) (depthMembers rest)

end

mutual

/-- The tokens that `write` makes the text of the value from. -/
def tokens : Json → List Token
  | string value => [.string value]
  | array items => .openArray :: (tokensItems items ++ [.closeArray])
  | object members => .openObject :: (tokensMembers members ++ [.closeObject])
  | value => [.atom value]

/-- The tokens of the items, with a `comma` between each two. -/
def tokensItems : List Json → List Token
  | [] => []
  | [item] => tokens item
  | item :: rest => tokens item ++ .comma :: tokensItems rest

/-- The tokens of the members, with a `colon` behind each key and a `comma` between each two. -/
def tokensMembers : List (String × Json) → List Token
  | [] => []
  | [(key, value)] => .string key :: .colon :: tokens value
  | (key, value) :: rest => .string key :: .colon :: (tokens value ++ .comma :: tokensMembers rest)

end

/-! ## Scanning -/

namespace Token

/-- The characters are the texts of the tokens, one behind the other, each read by `next?`. -/
inductive Spells : List Char → List Token → Prop where
  | nil : Spells [] []
  | cons {cs rest : List Char} {token : Token} {tokens : List Token} (hne : cs ≠ [])
    (hnext : next? (cs ++ rest) = some (token, rest)) (hrest : Spells rest tokens) :
    Spells (cs ++ rest) (token :: tokens)

variable {cs rest : List Char} {token : Token} {ts : List Token}

/-- A token is at least one character, so that the budget of `scan`, the length of the text, is
    enough. -/
theorem Spells.length_le (h : Spells cs ts) : ts.length ≤ cs.length := by
  induction h with
  | nil => exact le_refl 0
  | cons hne _ _ ih =>
    have := List.length_pos_iff.mpr hne
    simp only [List.length_cons, List.length_append]
    omega

/-- No token starts with a blank: `next?` knows none of them. -/
theorem isBlank_eq_false_of_next? {c : Char} (h : next? (c :: cs) = some (token, rest)) :
    isBlank c = false := by
  by_contra hblank
  have hnone : next? (c :: cs) = none := by
    simp only [isBlank, Bool.not_eq_false, Bool.or_eq_true, beq_iff_eq] at hblank
    rcases hblank with ((rfl | rfl) | rfl) | rfl <;> rfl
  rw [hnone] at h
  cases h

/-- `scan` gives the tokens that the characters spell, as no blanks stand between them. -/
theorem Spells.scan_eq (h : Spells cs ts) {budget : Nat} (hbudget : ts.length ≤ budget) :
    scan budget cs = some ts := by
  induction h generalizing budget with
  | nil => cases budget <;> rfl
  | @cons piece rest token tokens hne hnext _ ih =>
    cases budget with
    -- There is a token, so the budget is not used up.
    | zero => cases hbudget
    | succ budget =>
      obtain ⟨c, piece, rfl⟩ := List.exists_cons_of_ne_nil hne
      -- The text starts with a token, so no blanks are dropped.
      have hblank := isBlank_eq_false_of_next? hnext
      have hdrop : (c :: piece ++ rest).dropWhile isBlank = c :: piece ++ rest := by
        rw [List.cons_append, List.dropWhile_cons_of_neg (by simp [hblank])]
      rw [List.cons_append] at hnext hdrop ⊢
      have hlater := ih (Nat.le_of_succ_le_succ hbudget)
      unfold scan
      rw [hdrop]
      simp only [hnext, hlater, Option.bind_eq_bind, Option.bind_some]
      rfl

/-- A token that `Reads` in front of what follows a value. -/
theorem Spells.of_reads (htoken : Reads cs token) (hends : EndsValue rest) (h : Spells rest ts) :
    Spells (cs ++ rest) (token :: ts) :=
  .cons htoken.1 (htoken.2 rest hends) h

/-- A token that is a single character, in front of any text. -/
theorem Spells.of_char (c : Char) (token : Token) (hnext : next? (c :: rest) = some (token, rest))
    (h : Spells rest ts) : Spells (c :: rest) (token :: ts) :=
  .cons (List.cons_ne_nil c []) hnext h

/-! ## Texts of values -/

theorem reads_null : Reads "null".toList (.atom .null) :=
  ⟨List.cons_ne_nil _ _, fun _ _ => rfl⟩

theorem reads_bool (value : Bool) :
    Reads (if value then "true" else "false").toList (.atom (.bool value)) := by
  cases value
  · exact ⟨List.cons_ne_nil _ _, fun _ _ => rfl⟩
  · exact ⟨List.cons_ne_nil _ _, fun _ _ => rfl⟩

/-- The text of a string in front of any text; `next?_writeString` needs nothing of it. -/
theorem Spells.of_string (value : String) (h : Spells rest ts) :
    Spells ((writeString value).toList ++ rest) (.string value :: ts) := by
  refine .cons ?_ (next?_writeString value rest) h
  simp [writeString]

/-- The text of the value spells its `tokens` in front of what follows a value. -/
def Spelled (j : Json) : Prop :=
  ∀ rest ts, EndsValue rest → Spells rest ts → Spells (j.write.toList ++ rest) (j.tokens ++ ts)

/-- A comma and the end of an array or object follow a value. -/
theorem endsValue_cons {c : Char} (h : c = ',' ∨ c = ']' ∨ c = '\x7d') (rest : List Char) :
    EndsValue (c :: rest) := by
  rintro d hd
  obtain rfl := Option.some.inj hd
  exact h

/-- The texts of the items spell `tokensItems`, where each item is `Spelled`. -/
theorem spells_writeItems {items : List Json} (hitems : ∀ j ∈ items, Spelled j)
    (hends : EndsValue rest) (h : Spells rest ts) :
    Spells ((writeItems items).toList ++ rest) (tokensItems items ++ ts) := by
  induction items with
  | nil => exact h
  | cons j items ih =>
    obtain ⟨hj, hitems⟩ := List.forall_mem_cons.mp hitems
    cases items with
    -- The last item stands in front of what follows the array.
    | nil => exact hj rest ts hends h
    | cons next items =>
      -- Behind any other item stands a comma, which ends a number.
      have hcomma := Spells.of_char ',' .comma rfl (ih hitems)
      have hvalue := hj _ _ (endsValue_cons (Or.inl rfl) _) hcomma
      simpa [writeItems, tokensItems] using hvalue

/-- The texts of the members spell `tokensMembers`, where each value is `Spelled`. -/
theorem spells_writeMembers {members : List (String × Json)} (hmembers : ∀ m ∈ members, Spelled m.2)
    (hends : EndsValue rest) (h : Spells rest ts) :
    Spells ((writeMembers members).toList ++ rest) (tokensMembers members ++ ts) := by
  induction members with
  | nil => exact h
  | cons m members ih =>
    obtain ⟨key, j⟩ := m
    obtain ⟨hj, hmembers⟩ := List.forall_mem_cons.mp hmembers
    cases members with
    | nil =>
      -- The last value stands in front of what follows the object.
      have hvalue := hj rest ts hends h
      have hcolon := Spells.of_char ':' .colon rfl hvalue
      simpa [writeMembers, tokensMembers] using Spells.of_string key hcolon
    | cons next members =>
      -- Behind any other value stands a comma.
      have hcomma := Spells.of_char ',' .comma rfl (ih hmembers)
      have hvalue := hj _ _ (endsValue_cons (Or.inl rfl) _) hcomma
      have hcolon := Spells.of_char ':' .colon rfl hvalue
      simpa [writeMembers, tokensMembers] using Spells.of_string key hcolon

/-- The text of a value with `Numeral` spells its tokens. -/
theorem spells_write {j : Json} (h : j.Numeral) : Spelled j := by
  induction h with
  | @intro j top _ ih =>
    intro rest ts hends hrest
    -- From behind: each token is put in front of what is spelled already.
    cases j with
    | null => exact .of_reads reads_null hends hrest
    | bool value => exact .of_reads (reads_bool value) hends hrest
    | integer n => exact .of_reads (reads_integer top) hends hrest
    | float x => exact .of_reads (reads_float top) hends hrest
    | string value => exact .of_string value hrest
    | array items =>
      have hall : ∀ j ∈ items, Spelled j := ih
      have hclose := Spells.of_char ']' .closeArray rfl hrest
      have hitems := spells_writeItems hall (endsValue_cons (Or.inr (Or.inl rfl)) _) hclose
      have hopen := Spells.of_char '[' .openArray rfl hitems
      simpa [write, tokens] using hopen
    | object members =>
      have hall : ∀ m ∈ members, Spelled m.2 := fun m hm => ih m.2 (List.mem_map_of_mem hm)
      have hclose := Spells.of_char '\x7d' .closeObject rfl hrest
      have hmembers := spells_writeMembers hall (endsValue_cons (Or.inr (Or.inr rfl)) _) hclose
      have hopen := Spells.of_char '\x7b' .openObject rfl hmembers
      simpa [write, tokens] using hopen

end Token

/-! ## Reading -/

/-- The `tokens` of a value do not start with the one that ends an array. -/
theorem tokens_head (j : Json) : ∃ token ts, j.tokens = token :: ts ∧ token ≠ Token.closeArray := by
  cases j <;> exact ⟨_, _, rfl, Token.noConfusion⟩

/-- The tokens of items with more of them behind: a `comma` stands between. -/
theorem tokensItems_cons (j : Json) {items : List Json} (h : items ≠ []) :
    tokensItems (j :: items) = tokens j ++ .comma :: tokensItems items := by
  cases items with
  | nil => exact absurd rfl h
  | cons next items => rfl

/-- The tokens of members with more of them behind. -/
theorem tokensMembers_cons (key : String) (j : Json) {members : List (String × Json)}
    (h : members ≠ []) : tokensMembers ((key, j) :: members) =
      .string key :: .colon :: (tokens j ++ .comma :: tokensMembers members) := by
  cases members with
  | nil => exact absurd rfl h
  | cons next members => rfl

/-- The tokens of items do not start with the one that ends an array, as those of the first item do
    not. -/
theorem tokensItems_head {items : List Json} (h : items ≠ []) :
    ∃ token ts, tokensItems items = token :: ts ∧ token ≠ Token.closeArray := by
  cases items with
  | nil => exact absurd rfl h
  | cons j items =>
    obtain ⟨token, ts, htokens, hne⟩ := tokens_head j
    -- What follows the first item does not change the first token.
    cases items with
    | nil => exact ⟨token, ts, htokens, hne⟩
    | cons next items =>
      refine ⟨token, ts ++ .comma :: tokensItems (next :: items), ?_, hne⟩
      rw [tokensItems_cons j (List.cons_ne_nil _ _), htokens, List.cons_append]

/-- The tokens of the members of an object start with the `string` of a key. -/
theorem tokensMembers_head {members : List (String × Json)} (h : members ≠ []) :
    ∃ key ts, tokensMembers members = .string key :: ts := by
  cases members with
  | nil => exact absurd rfl h
  | cons m members => cases members <;> exact ⟨_, _, rfl⟩

namespace ReadState

variable {limit : Nat} {s s' : ReadState} {token : Token}

/-- A run over `token :: ts` takes the first token first. -/
theorem run_cons (h : step limit s token = some s') (ts : List Token) :
    (token :: ts).foldlM (step limit) s = ts.foldlM (step limit) s' := by
  rw [List.foldlM_cons, h]
  rfl

/-- A key and its `colon` open the place of a value. -/
theorem run_key (stack : List Frame) (before : List (String × Json)) (key : String)
    (ts : List Token) :
    (.string key :: .colon :: ts).foldlM (step limit) ⟨stack, .key before⟩ =
      ts.foldlM (step limit) ⟨.object before key :: stack, .value⟩ :=
  (run_cons rfl _).trans (run_cons rfl _)

mutual

/-- The reader takes the `tokens` of a value for the value, where it may be nested as deep. The
    induction is on the value, for any arrays and objects around it. -/
theorem run_tokens (j : Json) (stack : List Frame) (h : stack.length + j.depth ≤ limit)
    (ts : List Token) :
    (j.tokens ++ ts).foldlM (step limit) ⟨stack, .value⟩ =
      ts.foldlM (step limit) ⟨stack, .after j⟩ := by
  cases j with
  | null | bool | integer | float | string => exact run_cons rfl ts
  | array items =>
    rw [depth] at h
    have hopen : step limit ⟨stack, .value⟩ .openArray = some ⟨stack, .firstItem⟩ :=
      if_pos (show stack.length < limit by omega)
    rw [tokens, List.cons_append, run_cons hopen, List.append_assoc]
    by_cases hitems : items = []
    · -- Behind the bracket that opens it the array ends.
      rw [hitems]
      exact run_cons rfl ts
    · obtain ⟨token, rest, htokens, hne⟩ := tokensItems_head hitems
      have hrun := run_tokensItems items hitems [] stack (by omega) ts
      -- The first item is read like every other one.
      have hfirst : step limit ⟨stack, .firstItem⟩ token =
          step limit ⟨.array [] :: stack, .value⟩ token := by
        cases token <;> first | rfl | exact absurd rfl hne
      rw [htokens] at hrun ⊢
      rw [List.cons_append, List.foldlM_cons, hfirst]
      exact hrun
  | object members =>
    rw [depth] at h
    have hopen : step limit ⟨stack, .value⟩ .openObject = some ⟨stack, .firstKey⟩ :=
      if_pos (show stack.length < limit by omega)
    rw [tokens, List.cons_append, run_cons hopen, List.append_assoc]
    by_cases hmembers : members = []
    · -- Behind the brace that opens it the object ends.
      rw [hmembers]
      exact run_cons rfl ts
    · -- A first key is taken like every other one.
      obtain ⟨key, rest, htokens⟩ := tokensMembers_head hmembers
      have hrun := run_tokensMembers members hmembers [] stack (by omega) ts
      rw [htokens] at hrun ⊢
      exact hrun

/-- The reader takes the items of an array behind those `before` them, which it keeps in reverse
    order. -/
theorem run_tokensItems (items : List Json) (hne : items ≠ []) (before : List Json)
    (stack : List Frame) (h : stack.length + 1 + depthItems items ≤ limit) (ts : List Token) :
    (tokensItems items ++ ([Token.closeArray] ++ ts)).foldlM (step limit)
        ⟨.array before :: stack, .value⟩ =
      ts.foldlM (step limit) ⟨stack, .after (.array (before.reverse ++ items))⟩ := by
  cases items with
  | nil => exact absurd rfl hne
  | cons j items =>
    rw [depthItems] at h
    have hj := run_tokens j (.array before :: stack) (by rw [List.length_cons]; omega)
    cases items with
    | nil =>
      -- The last item is followed by the end of the array.
      rw [tokensItems, hj]
      refine (run_cons rfl ts).trans ?_
      rw [List.reverse_cons]
    | cons next items =>
      -- Another item follows, and this one is now among those before.
      rw [tokensItems_cons j (List.cons_ne_nil _ _), List.append_assoc, hj, List.cons_append]
      refine (run_cons rfl _).trans ?_
      rw [run_tokensItems (next :: items) (List.cons_ne_nil _ _) (j :: before) stack (by omega) ts,
        List.reverse_cons, List.append_assoc, List.singleton_append]

/-- The reader takes the members of an object behind those `before` them. -/
theorem run_tokensMembers (members : List (String × Json)) (hne : members ≠ [])
    (before : List (String × Json)) (stack : List Frame)
    (h : stack.length + 1 + depthMembers members ≤ limit) (ts : List Token) :
    (tokensMembers members ++ ([Token.closeObject] ++ ts)).foldlM (step limit) ⟨stack, .key before⟩ =
      ts.foldlM (step limit) ⟨stack, .after (.object (before.reverse ++ members))⟩ := by
  cases members with
  | nil => exact absurd rfl hne
  | cons m members =>
    obtain ⟨key, j⟩ := m
    rw [depthMembers] at h
    have hj := run_tokens j (.object before key :: stack) (by rw [List.length_cons]; omega)
    cases members with
    | nil =>
      -- The last value is followed by the end of the object.
      rw [tokensMembers, List.cons_append, List.cons_append, run_key, hj]
      refine (run_cons rfl ts).trans ?_
      rw [List.reverse_cons]
    | cons next members =>
      -- Another member follows, and this one is now among those before.
      have hnext := List.cons_ne_nil next members
      rw [tokensMembers_cons key j hnext, List.cons_append, List.cons_append, run_key,
        List.append_assoc, hj, List.cons_append]
      refine (run_cons rfl _).trans ?_
      rw [run_tokensMembers (next :: members) hnext ((key, j) :: before) stack (by omega) ts,
        List.reverse_cons, List.append_assoc, List.singleton_append]

end

end ReadState

/-- `read?` gives the value back from `write`, where numbers have texts and nothing is nested deeper
    than `maxDepth`. -/
theorem read?_write {j : Json} (h : j.Numeral) (hdepth : j.depth ≤ maxDepth) :
    read? j.write = some j := by
  have hends : EndsValue [] := fun _ hc => by cases hc
  have hspells := Token.spells_write h [] [] hends .nil
  rw [List.append_nil, List.append_nil] at hspells
  -- The length of the text is the budget of the scan.
  have hscan : Token.ofText? j.write = some j.tokens :=
    hspells.scan_eq (hspells.length_le.trans_eq String.length_toList)
  -- At the start no array and no object is open.
  have hroom : ([] : List Frame).length + j.depth ≤ maxDepth := by simpa using hdepth
  have hrun := ReadState.run_tokens j [] hroom []
  rw [List.append_nil] at hrun
  simp only [read?, hscan, Option.bind_eq_bind, Option.bind_some, ReadState.start, hrun]
  rfl

end DocQuery.Json
