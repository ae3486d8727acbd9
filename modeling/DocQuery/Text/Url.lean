import DocQuery.Text.Host

/-!
# Uniform resource locators

A locator is kept as its normal text: scheme and host in lower case, no default port, no dot
segments in the path, a path of at least `/` for the schemes of the web, and percent signs in place
of characters that may not stand for themselves. Reading a text gives the normal text, or nothing
where the text is no absolute locator.
-/

namespace DocQuery

structure Url where
  text : String
deriving DecidableEq

namespace Url

/-- The schemes of the web with their default ports; files have none. -/
def defaultPort? : String → Option (Option Nat)
  | "http" => some (some 80)
  | "https" => some (some 443)
  | "ws" => some (some 80)
  | "wss" => some (some 443)
  | "ftp" => some (some 21)
  | "file" => some none
  | _ => none

/-- Characters outside the visible ones are never left as they are. -/
def isControl (c : Char) : Bool := c.toNat < 0x20 || 0x7e < c.toNat

def isFragmentUnsafe (c : Char) : Bool :=
  isControl c || c == ' ' || c == '"' || c == '<' || c == '>' || c == '\x60'

def isQueryUnsafe (special : Bool) (c : Char) : Bool :=
  isControl c || c == ' ' || c == '"' || c == '#' || c == '<' || c == '>' ||
    (special && c == '\'')

def isPathUnsafe (c : Char) : Bool :=
  isFragmentUnsafe c || c == '#' || c == '?' || c == '\x7b' || c == '\x7d'

def isUserUnsafe (c : Char) : Bool :=
  isPathUnsafe c || c == '/' || c == ':' || c == ';' || c == '=' || c == '@' || c == '[' ||
    c == '\\' || c == ']' || c == '^' || c == '|'

/-- A byte as a percent sign and two digits. -/
def percentByte (b : UInt8) : List Char :=
  let digit (n : Nat) : Char := (Nat.digitChar n).toUpper
  ['%', digit (b.toNat / 16), digit (b.toNat % 16)]

/-- Writes the unsafe characters of a text byte by byte. -/
def percentEncode (isUnsafe : Char → Bool) (cs : List Char) : String :=
  String.ofList (cs.flatMap fun c =>
    if isUnsafe c then (String.singleton c).toUTF8.toList.flatMap percentByte else [c])

/-- Tabs and line breaks, which do not count inside a text. -/
def isBreak (c : Char) : Bool := c == '\t' || c == '\n' || c == '\r'

def withoutBreaks (cs : List Char) : List Char := cs.filter fun c => !isBreak c

/-- The scheme of a text and what follows its colon. -/
def splitScheme? (cs : List Char) : Option (String × List Char) :=
  let (scheme, rest) := cs.span (· ≠ ':')
  let scheme := withoutBreaks scheme
  let isAllowed (c : Char) : Bool := c.isAlphanum || c == '+' || c == '-' || c == '.'
  match rest with
  | _ :: rest =>
    if scheme.head?.any Char.isAlpha ∧ scheme.all isAllowed then
      some (String.ofList (scheme.map Char.toLower), rest)
    else none
  | [] => none

/-- What follows the last occurrence of a character, and what precedes it where there is one. -/
def splitLast (sep : Char) (cs : List Char) : Option (List Char) × List Char :=
  let (after, before) := cs.reverse.span (· ≠ sep)
  match before with
  | [] => (none, cs)
  | _ :: before => (some before.reverse, after.reverse)

/-- User and password in front of a host. -/
def credentials (cs : List Char) : String :=
  let (user, password) := cs.span (· ≠ ':')
  let password := percentEncode isUserUnsafe (password.drop 1)
  let user := percentEncode isUserUnsafe user
  if password ≠ "" then user ++ ":" ++ password ++ "@"
  else if user ≠ "" then user ++ "@"
  else ""

/-- The text of a port, empty for the default one. -/
def port? (default : Option Nat) (digits : List Char) : Option String := do
  if digits = [] then return ""
  let n ← Host.number? 10 digits
  if 65535 < n then none
  else if some n = default then return ""
  else return ":" ++ toString n

/-- The host of a scheme that is not one of the web: any text without forbidden characters. -/
def opaqueHost? (cs : List Char) : Option String :=
  if cs.head? = some '[' then Host.bracketed? cs
  else if cs.any Host.isForbidden then none
  else some (percentEncode isControl cs)

/-- Host and port; a colon inside brackets does not start a port. -/
def splitPort (cs : List Char) : List Char × List Char :=
  if cs.head? = some '[' then
    let (inside, rest) := cs.span (· ≠ ']')
    (inside ++ rest.take 1, rest.drop 1)
  else cs.span (· ≠ ':')

/-- The normal text of user, password, host and port, and what follows the port. Only a backslash
may follow, with which the path begins. -/
def authority? (web : Bool) (default : Option Nat) (cs : List Char) :
    Option (String × List Char) := do
  -- The last of several at signs is the one that counts.
  let (login, hostPort) := splitLast '@' cs
  let login := (login.map credentials).getD ""
  let (host, port) := splitPort hostPort
  let hostText ← if web then Host.ofName? host else opaqueHost? host
  -- An empty host has neither login nor port.
  if host = [] ∧ (login ≠ "" ∨ port ≠ []) then none
  else
    let (digits, rest) := (port.drop 1).span (· ≠ '\\')
    match port with
    | [] => return (login ++ hostText, [])
    | ':' :: _ => return (login ++ hostText ++ (← port? default digits), rest)
    | _ => none

/-- One dot, also where it is written with a percent sign. -/
def isDot (segment : String) : Bool :=
  let s := segment.toLower
  s == "." || s == "%2e"

def isDoubleDot (segment : String) : Bool :=
  let s := segment.toLower
  s == ".." || s == ".%2e" || s == "%2e." || s == "%2e%2e"

/-- The letter of a drive that a segment begins with, and what follows the colon or bar after it. -/
def spanDrive? (segment : String) : Option (Char × List Char) :=
  match segment.toList with
  | letter :: mark :: rest =>
    if letter.isAlpha && (mark == ':' || mark == '|') then some (letter, rest) else none
  | _ => none

/-- A letter with a colon or a bar. -/
def isDrive (segment : String) : Bool := (spanDrive? segment).any fun (_, rest) => rest.isEmpty

/-- Two dots do not take back a drive, whether or not the path is one of a file. -/
def isKept (segment : String) : Bool :=
  (spanDrive? segment).any fun (_, rest) => rest.isEmpty || rest.head? == some '\\'

/-- The segments of a path while it is read, the last first. -/
structure Path where
  segments : List String := []
  /-- Whether the path of a file begins with a drive, which leaves no place for a host. -/
  hasDrive : Bool := false

/-- Takes the last segment back. -/
def Path.parent (path : Path) : Path :=
  match path.segments with
  | [] => path
  | last :: rest => if isKept last then path else { path with segments := rest }

/-- The normal text of a segment by itself. -/
def segmentText (segment : List Char) : String :=
  percentEncode isPathUnsafe (withoutBreaks segment)

/-- Whether a break follows right after the colon of a drive. -/
def breaksAfterDrive (segment : List Char) : Bool :=
  match (segment.dropWhile isBreak).tail.dropWhile isBreak with
  | ':' :: c :: _ => isBreak c
  | _ => false

/-- The first segment of the path of a file. A drive gets a colon. What follows its colon belongs to
the same segment, and the drive is none, unless there is a break between them. -/
def Path.ofFirst (segment : List Char) : Path :=
  let text := segmentText segment
  match spanDrive? text with
  | some (letter, []) => ⟨[String.ofList [letter, ':']], true⟩
  | some (letter, rest) =>
    if breaksAfterDrive segment then ⟨[String.ofList rest, String.ofList [letter, ':']], false⟩
    else ⟨[text], false⟩
  | none => ⟨[text], false⟩

/-- Adds a segment, resolving dots. -/
def Path.add (file : Bool) (path : Path) (segment : List Char) : Path :=
  let text := segmentText segment
  if isDoubleDot text then path.parent
  else if isDot text then path
  else if file && path.segments.isEmpty then Path.ofFirst segment
  else { path with segments := text :: path.segments }

/-- The path of a text, whose first segment it begins with. Dots at the end leave an empty
segment. -/
def Path.read (web file : Bool) (cs : List Char) : Path :=
  let cs := if web then cs.map fun c => if c = '\\' then '/' else c else cs
  let segments := Host.splitAt '/' cs
  let path := segments.foldl (Path.add file) {}
  let last := segmentText (segments.getLastD [])
  if isDot last || isDoubleDot last then { path with segments := "" :: path.segments } else path

/-- The normal text of segments. -/
def segmentsText (segments : List String) : String := String.join (segments.map ("/" ++ ·))

def Path.text (path : Path) : String := segmentsText path.segments.reverse

/-- The path of a file begins with one slash only. -/
def Path.fileText (path : Path) : String :=
  match path.segments.reverse.dropWhile (·.isEmpty) with
  | [] => "/"
  | segments => segmentsText segments

/-- Path, query and fragment of a text, the last two with their marks. -/
def splitTail (cs : List Char) : List Char × List Char × List Char :=
  let (front, fragment) := cs.span (· ≠ '#')
  let (path, query) := front.span (· ≠ '?')
  (path, query, fragment)

def queryText (web : Bool) (query : List Char) : String :=
  match query with
  | [] => ""
  | _ :: query => "?" ++ percentEncode (isQueryUnsafe web) query

def fragmentText (fragment : List Char) : String :=
  match fragment with
  | [] => ""
  | _ :: fragment => "#" ++ percentEncode isFragmentUnsafe fragment

def isSlash (web : Bool) (c : Char) : Bool := c == '/' || (web && c == '\\')

/-- What follows two slashes after the scheme of a file: a host, which may be empty or the local
one, and a path. -/
def fileHostText? (cs : List Char) : Option String :=
  let (host, path) := cs.span fun c => !isSlash true c
  let host := withoutBreaks host
  let withoutHost (path : List Char) : String := "//" ++ (Path.read true true path).fileText
  -- A drive in place of a host begins the path.
  if isDrive (String.ofList host) then some (withoutHost cs)
  else if host = [] then some (withoutHost path)
  else (Host.ofName? host).map fun text =>
    if text = "localhost" then withoutHost path
    else
      let path := Path.read true true (path.drop 1)
      "//" ++ (if path.hasDrive then "" else text) ++ path.fileText

/-- What follows a slash in front of a text. -/
def afterSlash? (cs : List Char) : Option (List Char) :=
  match cs.dropWhile isBreak with
  | c :: rest => if isSlash true c then some rest else none
  | [] => none

/-- What follows the scheme of a file. -/
def fileText? (cs : List Char) : Option String :=
  let withoutHost (path : List Char) : String := "//" ++ (Path.read true true path).fileText
  match afterSlash? cs with
  | none => some (withoutHost cs)
  | some path =>
    match afterSlash? path with
    | none => some (withoutHost path)
    | some rest => fileHostText? rest

/-- What follows the scheme of the web: any number of slashes, an authority and a path. -/
def webText? (default : Option Nat) (path : List Char) : Option String :=
  let (authority, path) := (path.dropWhile (isSlash true)).span fun c => !isSlash true c
  (authority? true default authority).map fun (text, _) =>
    "//" ++ text ++ (Path.read true false (path.drop 1)).text

/-- What follows two slashes after any other scheme; `isLast` says that neither query nor fragment
follows. -/
def otherHostText? (isLast : Bool) (cs : List Char) : Option String := do
  let (authority, path) := cs.span (· ≠ '/')
  -- An at sign alone stands only at the end.
  if authority = ['@'] ∧ ¬(path = [] ∧ isLast) then none
  else
    let (text, rest) ← authority? false none authority
    match rest ++ path with
    | [] => return "//" ++ text
    | '/' :: path | path => return "//" ++ text ++ (Path.read false false path).text

/-- What follows any other scheme. -/
def otherText? (isLast : Bool) (path : List Char) : Option String :=
  match path with
  | '/' :: '/' :: rest => otherHostText? isLast rest
  | '/' :: rest =>
    let text := (Path.read false false rest).text
    -- Two slashes in front would read back as an authority.
    some (if text.startsWith "//" then "/." ++ text else text)
  | path => some (percentEncode isControl path)

/-- Blanks and control characters around a text do not count. -/
def trim (cs : List Char) : List Char :=
  let outside (c : Char) : Bool := c.toNat ≤ 0x20
  ((cs.dropWhile outside).reverse.dropWhile outside).reverse

def ofText? (text : String) : Option Url := do
  let (scheme, rest) ← splitScheme? (trim text.toList)
  let (path, query, fragment) := splitTail rest
  let kind := defaultPort? scheme
  let hierarchy ←
    match kind with
    | none => otherText? (query.isEmpty && fragment.isEmpty) (withoutBreaks path)
    -- Breaks in the path of a file tell a drive from other segments.
    | some none => fileText? path
    | some default => webText? default (withoutBreaks path)
  let query := queryText kind.isSome (withoutBreaks query)
  return ⟨scheme ++ ":" ++ hierarchy ++ query ++ fragmentText (withoutBreaks fragment)⟩

end Url

end DocQuery
