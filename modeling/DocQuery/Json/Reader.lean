import DocQuery.Json.Token

/-!
# Reading JSON texts

A stack of unfinished arrays and objects takes the tokens of a text one by one. Arrays and objects
may be nested at most `maxDepth` deep. A reader may pass some values over; these only have to have
the form of values, however deep they are nested.
-/

namespace DocQuery.Json

/-- How deep arrays and objects may be nested. -/
def maxDepth : Nat := 127

/-- An array or object under construction: what is complete so far, the last first, and for an
object the key of the value that is being read. -/
inductive Frame where
  | array (before : List Json)
  | object (before : List (String × Json)) (key : String)

/-- What the text may go on with. -/
inductive Phase where
  /-- A value. -/
  | value
  /-- A value or the end of the array that was just opened. -/
  | firstItem
  /-- A key or the end of the object that was just opened. -/
  | firstKey
  /-- A key, after the members read so far. -/
  | key (before : List (String × Json))
  /-- The colon after a key. -/
  | colon (before : List (String × Json)) (key : String)
  /-- A comma or the end of what surrounds the value just completed. -/
  | after (value : Json)

structure ReadState where
  stack : List Frame
  phase : Phase

namespace ReadState

def start : ReadState := ⟨[], .value⟩

/-- Takes the first token of a value. -/
def beginValue (limit : Nat) (stack : List Frame) : Token → Option ReadState
  | .openArray => if stack.length < limit then some ⟨stack, .firstItem⟩ else none
  | .openObject => if stack.length < limit then some ⟨stack, .firstKey⟩ else none
  | .string value => some ⟨stack, .after (.string value)⟩
  | .atom value => some ⟨stack, .after value⟩
  | _ => none

/-- Takes the token after a complete value. -/
def afterValue (value : Json) : List Frame → Token → Option ReadState
  | .array before :: stack, .comma => some ⟨.array (value :: before) :: stack, .value⟩
  | .array before :: stack, .closeArray =>
    some ⟨stack, .after (.array (value :: before).reverse)⟩
  | .object before key :: stack, .comma => some ⟨stack, .key ((key, value) :: before)⟩
  | .object before key :: stack, .closeObject =>
    some ⟨stack, .after (.object ((key, value) :: before).reverse)⟩
  | _, _ => none

/-- Takes a token, where `limit` says how deep arrays and objects may be nested. -/
def step (limit : Nat) (s : ReadState) (token : Token) : Option ReadState :=
  match s.phase, token with
  | .value, token => beginValue limit s.stack token
  | .firstItem, .closeArray => some ⟨s.stack, .after (.array [])⟩
  | .firstItem, token => beginValue limit (.array [] :: s.stack) token
  | .firstKey, .closeObject => some ⟨s.stack, .after (.object [])⟩
  | .firstKey, .string key => some ⟨s.stack, .colon [] key⟩
  | .key before, .string key => some ⟨s.stack, .colon before key⟩
  | .colon before key, .colon => some ⟨.object before key :: s.stack, .value⟩
  | .after value, token => afterValue value s.stack token
  | _, _ => none

/-- The value, once nothing is left open. -/
def result? : ReadState → Option Json
  | ⟨[], .after value⟩ => some value
  | _ => none

end ReadState

/-- The value of a text. Keys that come up again are all kept. -/
def read? (text : String) : Option Json := do
  let tokens ← Token.ofText? text
  let final ← tokens.foldlM (ReadState.step maxDepth) ReadState.start
  final.result?

/-! ## Passing values over -/

/-- A token of the same form that has a value. -/
def Token.form : Token → Token
  | brokenString => .string ""
  | hugeNumber => .atom .null
  | token => token

/-- What is read so far, and how far the value has come that is being passed over, if any. -/
structure PassState where
  outer : ReadState
  passed : Option ReadState

namespace PassState

def start : PassState := ⟨.start, none⟩

/-- Takes a token of a value that is passed over. Null stands for that value. -/
def pass (limit : Nat) (outer passed : ReadState) (token : Token) : Option PassState :=
  (passed.step limit token.form).map fun passed =>
    if passed.result?.isSome then ⟨{ outer with phase := .after .null }, none⟩
    else ⟨outer, some passed⟩

/-- Takes a token. A member is passed over where `isPassed` says so of the frames around it. -/
def step (isPassed : List Frame → Bool) (limit : Nat) (s : PassState) (token : Token) :
    Option PassState :=
  match s.passed, s.outer.phase with
  | some passed, _ => pass limit s.outer passed token
  | none, .value =>
    if isPassed s.outer.stack then pass limit s.outer .start token
    else (s.outer.step maxDepth token).map fun outer => ⟨outer, none⟩
  | none, _ => (s.outer.step maxDepth token).map fun outer => ⟨outer, none⟩

end PassState

/-- The value of a text, with null in the place of every value that is passed over. -/
def readPassing? (isPassed : List Frame → Bool) (text : String) : Option Json := do
  let tokens ← Token.ofText? text
  -- No value is nested deeper than the text has tokens.
  let final ← tokens.foldlM (PassState.step isPassed tokens.length) PassState.start
  final.outer.result?

end DocQuery.Json
