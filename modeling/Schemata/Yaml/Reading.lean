import Schemata.Yaml

/-!
# Reading characters of a document

The state of reading a document: the characters that are left, where they begin, and the anchors
tag handles seen so far. The functions here move over blanks, comments and line ends.
-/

namespace Schemata.Yaml

/-- What is left of a document, its place, and what was named in it. `indent` is the number of
spaces that the line begins with, `offset` the number of characters read, `before` the last of them,
and `tabbed` tells that the blanks just read hold a tab. -/
structure Reading where
  rest : List Char
  line : Nat
  column : Nat
  indent : Nat
  offset : Nat
  before : Char
  tabbed : Bool
  handles : List (String × String)
  anchors : List (String × Yaml)
  dangling : Option String

/-- The place at which a text is no YAML document. -/
structure Malformed where
  line : Nat
  column : Nat
deriving DecidableEq, Repr

/-- Steps of reading. -/
abbrev ReadM := StateT Reading (Except Malformed)

namespace Reading

/-- The beginning of a text. -/
def start (text : List Char) : Reading where
  rest := text
  line := 0
  column := 0
  indent := 0
  offset := 0
  before := '\n'
  tabbed := false
  handles := [("!!", "tag:yaml.org,2002:")]
  anchors := []
  dangling := none

/-- Read one character. -/
def next (r : Reading) : Reading :=
  match r.rest with
  | [] => r
  | c :: cs =>
    if c = '\n' then
      { r with
        rest := cs
        line := r.line + 1
        column := 0
        indent := 0
        offset := r.offset + 1
        before := c
        tabbed := false }
    else
      { r with
        rest := cs
        column := r.column + 1
        indent := if c = ' ' && r.indent = r.column then r.indent + 1 else r.indent
        offset := r.offset + 1
        before := c
        tabbed := c = '\t' || (c = ' ' && r.tabbed) }

/-- Read a number of characters. -/
def advance : Nat → Reading → Reading
  | 0, r => r
  | n + 1, r => advance n r.next

end Reading

/-- Whether a character separates tokens inside a line. -/
def isBlank (c : Char) : Bool := c = ' ' || c = '\t'

/-- Whether a line or the text ends here. -/
def atBreak : List Char → Bool
  | [] => true
  | c :: _ => c = '\n'

/-- Whether a token ends here. -/
def atGap : List Char → Bool
  | [] => true
  | c :: _ => isBlank c || c = '\n'

/-- Whether a character is an indicator inside flow collections. -/
def isFlowMark (c : Char) : Bool := c = ',' || c = '[' || c = ']' || c = '{' || c = '}'

/-- Whether three dashes or three dots stand here alone. -/
def atMarker : List Char → Bool
  | '-' :: '-' :: '-' :: cs => atGap cs
  | '.' :: '.' :: '.' :: cs => atGap cs
  | _ => false

/-- Give up at the present place. -/
def malformed {α : Type} : ReadM α := do
  let r ← get
  throw ⟨r.line + 1, r.column + 1⟩

/-- The characters that are left. -/
def ahead : ReadM (List Char) := do
  pure (← get).rest

/-- Read a number of characters. -/
def skip (n : Nat) : ReadM Unit := modify (Reading.advance n)

/-- Skip blanks inside a line. -/
def skipBlanks : ReadM Unit := do
  skip ((← ahead).takeWhile isBlank).length

/-- Skip blanks and a comment up to the end of the line. A comment needs a blank before it. -/
def skipComment : ReadM Unit := do
  skipBlanks
  let r ← get
  if r.rest.head? = some '#' then
    if isBlank r.before || r.before = '\n' then
      skip (r.rest.takeWhile (· ≠ '\n')).length
    else malformed

/-- Skip to the end of the line, where nothing but a comment may stand. -/
def endLine : ReadM Unit := do
  skipComment
  if !atBreak (← ahead) then malformed

/-- Skip blanks, comments and line ends up to a token, and tell whether it is on a new line. -/
def skipLines : Nat → Bool → ReadM Bool
  | 0, fresh => pure fresh
  | fuel + 1, fresh => do
    skipComment
    match ← ahead with
    | '\n' :: _ =>
      skip 1
      skipLines fuel true
    | _ => pure fresh

/-- Skip to the next token of block structure; true if it is on a new line. -/
def skipToToken : ReadM Bool := do
  skipLines ((← ahead).length + 1) false

/-- Whether block structure ends here: at the end of the text or at a document marker. -/
def atEnd : ReadM Bool := do
  let r ← get
  pure (r.rest.isEmpty || (r.column = 0 && atMarker r.rest))

/-- Skip to the next token inside a flow collection. Its lines are indented by at least `least`
spaces; only the bracket that closes an outermost collection may stand one to the left. -/
def skipFlow (least depth : Nat) : Nat → ReadM Unit
  | 0 => pure ()
  | fuel + 1 => do
    skipComment
    match ← ahead with
    | '\n' :: cs =>
      skip 1
      let indent := (cs.takeWhile (· = ' ')).length
      let body := cs.dropWhile isBlank
      let closes := body.head? = some ']' || body.head? = some '}'
      if !atBreak body && body.head? ≠ some '#' then
        if indent < least && !(indent + 1 = least && depth = 1 && closes) then malformed
        if indent = 0 && atMarker cs then malformed
      skipFlow least depth fuel
    | _ => pure ()

/-- Skip to the next token inside a flow collection. -/
def skipFlowSpace (least depth : Nat) : ReadM Unit := do
  skipFlow least depth ((← ahead).length + 1)

end Schemata.Yaml
