import DocQuery.Toml.Atom

/-!
# Reading TOML documents

A text is read line by line, except that strings between triple quotes and arrays may go on over
several lines. Arrays and tables in braces are nested less than `maxDepth` deep, and a key has fewer
parts than that. Every line changes the document as it says, or there is no document.
-/

namespace DocQuery.Toml

/-- Arrays and tables in braces are nested less deep than this. -/
def maxDepth : Nat := 80

/-- A step that reads something in front of the text, where it is there. -/
abbrev Scan := StateT (List Char) Option

namespace Scan

/-- The longest run of characters of a class. -/
def takeWhile (p : Char → Bool) : Scan (List Char) := do
  let (front, rest) := (← get).span p
  set rest
  return front

/-- The next character, which stays. -/
def peek? : Scan (Option Char) := return (← get).head?

def skip (count : Nat) : Scan Unit := modify (List.drop count)

/-- Reads the given character. -/
def expect (c : Char) : Scan Unit := do
  if (← peek?) = some c then skip 1 else failure

/-- Reads the given character where it is there. -/
def accepts (c : Char) : Scan Bool := do
  if (← peek?) = some c then do
    skip 1
    return true
  else return false

/-- Reads what stands in front of a text by a function on the text. -/
def ofFunction {α : Type} (read : List Char → Option (α × List Char)) : Scan α := read

end Scan

open Scan (takeWhile peek? skip expect accepts ofFunction)

/-! ## Blanks and comments -/

def isBlank (c : Char) : Bool := c == ' ' || c == '\t'

/-- The control characters that stand nowhere by themselves. -/
def isForbidden (c : Char) : Bool := (c.toNat < 0x20 && c != '\t') || c == '\x7f'

def blanks : Scan Unit := discard (takeWhile isBlank)

/-- A line end in front of a text. -/
def dropLineEnd? : List Char → Option (List Char)
  | '\n' :: rest => some rest
  | '\r' :: '\n' :: rest => some rest
  | _ => none

/-- Reads a line end where one is there. -/
def acceptsLineEnd : Scan Bool := do
  match dropLineEnd? (← get) with
  | some rest =>
    set rest
    return true
  | none => return false

/-- Blanks and then a comment, if any. -/
def comment : Scan Unit := do
  blanks
  if (← peek?) = some '#' then discard (takeWhile fun c => !isForbidden c)

/-- Blanks, line ends and comments. -/
def gaps : (budget : Nat) → Scan Unit
  | 0 => return
  | budget + 1 => do
    comment
    if ← acceptsLineEnd then gaps budget

/-- The end of a line or of the text, after blanks and a comment. -/
def endOfLine : Scan Unit := do
  comment
  if (← get).isEmpty then return
  else if ← acceptsLineEnd then return
  else failure

/-! ## Strings -/

/-- The character of a hexadecimal number, which must be no surrogate. -/
def scalar? (digits : List Char) : Option Char := do
  let values ← digits.mapM Json.Token.hexValue?
  let n := values.foldl (fun n digit => 16 * n + digit) 0
  if n.isValidChar then some (Char.ofNat n) else none

/-- The character of an escape, after its backslash. -/
def escape? : List Char → Option (Char × List Char)
  | 'u' :: rest =>
    if rest.length < 4 then none else (scalar? (rest.take 4)).map fun c => (c, rest.drop 4)
  | 'U' :: rest =>
    if rest.length < 8 then none else (scalar? (rest.take 8)).map fun c => (c, rest.drop 8)
  | '/' :: _ => none
  | c :: rest => (Json.Token.escaped? c).map fun c => (c, rest)
  | [] => none

/-- The rest of a string on one line, up to its closing quote. -/
def lineString (quote : Char) (escapes : Bool) : (budget : Nat) → Scan (List Char)
  | 0 => failure
  | budget + 1 => do
    match ← get with
    | [] => failure
    | c :: rest =>
      set rest
      if c = quote then return []
      else if escapes && c = '\\' then do
        let c ← ofFunction escape?
        return c :: (← lineString quote escapes budget)
      else if isForbidden c then failure
      else return c :: (← lineString quote escapes budget)

/-- What follows a backslash at the end of a line: the blanks and line ends up to the next other
character. -/
def continuation? (cs : List Char) : Option (List Char) := do
  let rest ← dropLineEnd? (cs.dropWhile isBlank)
  let rec go : Nat → List Char → List Char
    | 0, cs => cs
    | budget + 1, cs =>
      let cs := cs.dropWhile isBlank
      match dropLineEnd? cs with
      | some rest => go budget rest
      | none => cs
  return go rest.length rest

/-- The rest of a string over several lines, up to three quotes. One or two quotes in front of those
belong to the string. A line end counts as one character however it is written. -/
def blockString (quote : Char) (escapes : Bool) : (budget : Nat) → Scan (List Char)
  | 0 => failure
  | budget + 1 => do
    match ← get with
    | [] => failure
    | c :: rest =>
      if c = quote ∧ rest.take 2 = [quote, quote] then do
        set (rest.drop 2)
        let more ← takeWhile (· == quote)
        if 2 < more.length then failure else return more
      else
        match dropLineEnd? (c :: rest) with
        | some rest => do
          set rest
          return '\n' :: (← blockString quote escapes budget)
        | none =>
          if escapes && c = '\\' then
            match continuation? rest with
            | some rest => do
              set rest
              blockString quote escapes budget
            | none => do
              set rest
              let c ← ofFunction escape?
              return c :: (← blockString quote escapes budget)
          else if isForbidden c then failure
          else do
            set rest
            return c :: (← blockString quote escapes budget)

/-- A string after its first quote. Three quotes open a string over several lines, which does not
hold the line end right after them. -/
def stringAfter (quote : Char) (escapes : Bool) : Scan String := do
  let cs ← get
  if cs.take 2 = [quote, quote] then do
    skip 2
    discard acceptsLineEnd
    return String.ofList (← blockString quote escapes (cs.length + 1))
  else return String.ofList (← lineString quote escapes (cs.length + 1))

/-! ## Keys and values -/

def isBareChar (c : Char) : Bool := c.isAlphanum || c == '_' || c == '-'

/-- One part of a key. -/
def keyPart : Scan String := do
  let cs ← get
  match cs with
  | '"' :: rest => do
    set rest
    return String.ofList (← lineString '"' true cs.length)
  | '\'' :: rest => do
    set rest
    return String.ofList (← lineString '\'' false cs.length)
  | _ => do
    let front ← takeWhile isBareChar
    if front = [] then failure else return String.ofList front

/-- The parts of a key after the first one. -/
def keyRest : (budget : Nat) → Scan (List String)
  | 0 => failure
  | budget + 1 => do
    blanks
    if ← accepts '.' then do
      blanks
      let part ← keyPart
      return part :: (← keyRest budget)
    else return []

/-- A key: what stands in front of its last dot, and its last part. -/
def key : Scan (List String × String) := do
  let first ← keyPart
  let parts := first :: (← keyRest maxDepth)
  if maxDepth ≤ parts.length then failure
  else return (parts.dropLast, parts.getLastD first)

/-- A key, its sign of equality and its value. -/
def keyValue (value : Scan Toml) : Scan ((List String × String) × Toml) := do
  let k ← key
  blanks
  expect '='
  blanks
  return (k, ← value)

/-- The items of an array after its opening bracket. -/
def items (value : Scan Toml) : (budget : Nat) → Scan (List Toml)
  | 0 => failure
  | budget + 1 => do
    let length := (← get).length
    gaps (length + 1)
    if ← accepts ']' then return []
    else do
      let item ← value
      gaps (length + 1)
      if ← accepts ',' then return item :: (← items value budget)
      else do
        expect ']'
        return [item]

/-- The members of a table in braces after its first one. -/
def members (value : Scan Toml) (t : Table) : (budget : Nat) → Scan Table
  | 0 => failure
  | budget + 1 => do
    let ((path, name), v) ← keyValue value
    let t ← StateT.lift (define name v path t)
    blanks
    if ← accepts ',' then do
      blanks
      members value t budget
    else do
      expect '\x7d'
      return t

/-- A value. -/
def value : (depth : Nat) → Scan Toml
  | 0 => failure
  | depth + 1 => do
    let length := (← get).length
    match ← peek? with
    | some '"' => do
      skip 1
      return .string (← stringAfter '"' true)
    | some '\'' => do
      skip 1
      return .string (← stringAfter '\'' false)
    | some '[' =>
      if depth = 0 then failure
      else do
        skip 1
        return .array (← items (value depth) (length + 1))
    | some '\x7b' =>
      if depth = 0 then failure
      else do
        skip 1
        blanks
        if ← accepts '\x7d' then return .table .braces []
        else return .table .braces (← members (value depth) [] (length + 1))
    | _ => ofFunction spanAtom?

/-! ## Lines -/

/-- A document in the making: its root table, and the path of the header that the lines are under. -/
structure Draft where
  root : Table
  header : List String

/-- Opens the table of a header. -/
def header (draft : Draft) : Scan Draft := do
  let again ← accepts '['
  blanks
  let (path, name) ← key
  blanks
  expect ']'
  if again then expect ']'
  let change := if again then openNext name else openTable name
  let root ← StateT.lift (within change path draft.root)
  return ⟨root, path ++ [name]⟩

/-- A line that is not blank. -/
def line (draft : Draft) : Scan Draft := do
  if ← accepts '[' then header draft
  else do
    let ((path, name), v) ← keyValue (value maxDepth)
    let root ← StateT.lift (within (define name v path) draft.header draft.root)
    return { draft with root }

/-- All lines. -/
def lines (draft : Draft) : (budget : Nat) → Scan Draft
  | 0 => failure
  | budget + 1 => do
    let length := (← get).length
    gaps (length + 1)
    if (← get).isEmpty then return draft
    else do
      let draft ← line draft
      endOfLine
      lines draft budget

/-- The document of a text. A byte order mark in front does not count. -/
def read? (text : String) : Option Table := do
  let cs := match text.toList with
    | '\ufeff' :: rest => rest
    | cs => cs
  let (draft, _) ← (lines ⟨[], []⟩ (cs.length + 1)).run cs
  return draft.root

end DocQuery.Toml
