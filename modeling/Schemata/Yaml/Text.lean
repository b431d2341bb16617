import Schemata.Number.Numeral
import Schemata.Yaml.Reading

/-!
# Texts in a document

Plain scalars, scalars in single and double quotation marks, and block scalars. A scalar that goes
on for several lines is folded: a line end becomes a space, and further empty lines become line
ends. The lines are indented by at least `least` spaces.
-/

namespace Schemata.Yaml

/-- Empty lines at the beginning of a text, and the text behind them. A line with a tab is empty
only if at least `least` spaces stand before the tab. -/
def emptyLines (least : Nat) : Nat → List Char → Nat × List Char
  | 0, cs => (0, cs)
  | fuel + 1, cs =>
    let afterSpaces := cs.dropWhile (· = ' ')
    match afterSpaces.dropWhile isBlank with
    | '\n' :: rest =>
      if afterSpaces.head? = some '\n' || least ≤ (cs.takeWhile (· = ' ')).length then
        let (n, after) := emptyLines least fuel rest
        (n + 1, after)
      else (0, cs)
    | _ => (0, cs)

/-- Whether a scalar may go on with a line. -/
def continues (least : Nat) (cs : List Char) : Bool :=
  least ≤ (cs.takeWhile (· = ' ')).length && !(least = 0 && atMarker cs)

/-- What stands between the lines of a folded text with `n` empty lines between them. -/
def fold (n : Nat) : List Char :=
  if n = 0 then [' '] else List.replicate n '\n'

/-- Length of a plain scalar within its line, without blanks at the end, and whether it can go on
in the next line. `done` characters were read, the last `pending` of them blanks. -/
def plainLength (flow : Bool) : Nat → Nat → List Char → Nat × Bool
  | done, _, [] => (done, true)
  | done, pending, c :: cs =>
    if c = '\n' then (done, true)
    else if c = ':' && (atGap cs || (flow && cs.head?.any isFlowMark)) then (done, false)
    else if isBlank c then
      if cs.head? = some '#' then (done, false) else plainLength flow done (pending + 1) cs
    else if flow && isFlowMark c then (done, false)
    else plainLength flow (done + pending + 1) 0 cs

/-- Read a plain scalar. -/
def plainLines (flow : Bool) (least : Nat) : Nat → ReadM (List Char)
  | 0 => pure []
  | fuel + 1 => do
    let cs ← ahead
    let (length, unfinished) := plainLength flow 0 0 cs
    let segment := cs.take length
    skip length
    let after := (cs.drop length).dropWhile isBlank
    match unfinished, after with
    | true, '\n' :: rest =>
      let (empty, line) := emptyLines least (rest.length + 1) rest
      let body := line.dropWhile isBlank
      let (more, _) := plainLength flow 0 0 body
      if body.isEmpty || body.head? = some '#' || more = 0 || !continues least line then
        pure segment
      else
        skip ((cs.drop length).length - body.length)
        pure (segment ++ fold empty ++ (← plainLines flow least fuel))
    | _, _ => pure segment

/-- Read a plain scalar. -/
def plain (flow : Bool) (least : Nat) : ReadM String := do
  pure (String.ofList (← plainLines flow least ((← ahead).length + 1)))

/-- A text without blanks at its end. -/
def trimEnd (cs : List Char) : List Char :=
  (cs.reverse.dropWhile isBlank).reverse

/-- Move to the next line of a scalar in quotation marks that is not empty, giving the number of
empty lines before it. -/
def quotedBreak (least : Nat) : ReadM Nat := do
  skip 1
  let cs ← ahead
  let (empty, line) := emptyLines least (cs.length + 1) cs
  if !line.isEmpty && !continues least line then malformed
  skip (cs.length - (line.dropWhile isBlank).length)
  pure empty

/-- Read the rest of a scalar in single quotation marks; `done` is what was read of it. -/
def singleQuoted (least : Nat) : Nat → List Char → ReadM (List Char)
  | 0, _ => malformed
  | fuel + 1, done => do
    match ← ahead with
    | [] => malformed
    | '\'' :: '\'' :: _ =>
      skip 2
      singleQuoted least fuel (done ++ ['\''])
    | '\'' :: _ =>
      skip 1
      pure done
    | '\n' :: _ =>
      let empty ← quotedBreak least
      singleQuoted least fuel (trimEnd done ++ fold empty)
    | c :: _ =>
      skip 1
      singleQuoted least fuel (done ++ [c])

/-- The character of a one-letter escape. -/
def shortEscape? (c : Char) : Option Char :=
  match c with
  | '0' => some (Char.ofNat 0)
  | 'a' => some (Char.ofNat 7)
  | 'b' => some (Char.ofNat 8)
  | 'e' => some (Char.ofNat 27)
  | 'f' => some (Char.ofNat 12)
  | 'n' => some '\n'
  | 'r' => some '\r'
  | 't' | '\t' => some '\t'
  | 'v' => some (Char.ofNat 11)
  | 'N' => some (Char.ofNat 0x85)
  | '_' => some (Char.ofNat 0xA0)
  | 'L' => some (Char.ofNat 0x2028)
  | 'P' => some (Char.ofNat 0x2029)
  | ' ' | '"' | '/' | '\\' => some c
  | _ => none

/-- Number of digits after the letter of a numeric escape. -/
def escapeDigits? (c : Char) : Option Nat :=
  match c with
  | 'x' => some 2
  | 'u' => some 4
  | 'U' => some 8
  | _ => none

/-- The character of a code, or of two codes that form a pair; anything else is replaced. -/
def ofCodes (code : Nat) (following : Option Nat) : Char × Bool :=
  match following with
  | some low =>
    if 0xD800 ≤ code && code < 0xDC00 && 0xDC00 ≤ low && low < 0xE000 then
      (Char.ofNat (0x10000 + (code - 0xD800) * 0x400 + (low - 0xDC00)), true)
    else if 0xD800 ≤ code && code < 0xE000 then (Char.ofNat 0xFFFD, false)
    else (Char.ofNat code, false)
  | none =>
    if 0xD800 ≤ code && code < 0xE000 then (Char.ofNat 0xFFFD, false)
    else (Char.ofNat code, false)

/-- The code of a four-digit escape at the beginning of a text. -/
def followingCode? : List Char → Option Nat
  | '\\' :: 'u' :: cs => if 4 ≤ cs.length then Number.natural? 16 (cs.take 4) else none
  | _ => none

/-- Read an escape behind its backslash. -/
def escape : ReadM (List Char) := do
  match ← ahead with
  | [] => malformed
  | c :: cs =>
    match shortEscape? c, escapeDigits? c with
    | some d, _ =>
      skip 1
      pure [d]
    | none, some n =>
      match Number.natural? 16 (cs.take n) with
      | some code =>
        if cs.length < n || 0x10FFFF < code then malformed
        let (d, pair) := ofCodes code (followingCode? (cs.drop n))
        skip (n + 1 + if pair then 6 else 0)
        pure [d]
      | none => malformed
    | none, none => malformed

/-- Read the rest of a scalar in double quotation marks; `done` is what was read of it, of which
`kept` characters are not blanks before a line end. -/
def doubleQuoted (least : Nat) : Nat → Nat → List Char → ReadM (List Char)
  | 0, _, _ => malformed
  | fuel + 1, kept, done => do
    match ← ahead with
    | [] => malformed
    | '"' :: _ =>
      skip 1
      pure done
    | '\\' :: '\n' :: _ =>
      skip 1
      let empty ← quotedBreak least
      let text := if empty = 0 then done else done ++ fold (empty - 1)
      doubleQuoted least fuel text.length text
    | '\\' :: _ =>
      skip 1
      let text := done ++ (← escape)
      doubleQuoted least fuel text.length text
    | '\n' :: _ =>
      let empty ← quotedBreak least
      let text := done.take kept ++ trimEnd (done.drop kept) ++ fold empty
      doubleQuoted least fuel text.length text
    | c :: _ =>
      skip 1
      doubleQuoted least fuel kept (done ++ [c])

/-- How the end of a block scalar is treated: one line end, none, or all of them. -/
inductive Chomp where
  | clip
  | strip
  | keep
deriving DecidableEq, Repr

/-- Header of a block scalar. -/
structure BlockHeader where
  folded : Bool
  indent : Nat
  chomp : Chomp

/-- Read the indicators behind the first one of a block scalar. -/
def blockIndicators : Nat → BlockHeader → ReadM BlockHeader
  | 0, h => pure h
  | fuel + 1, h => do
    match ← ahead with
    | '+' :: _ =>
      if h.chomp ≠ .clip then malformed
      skip 1
      blockIndicators fuel { h with chomp := .keep }
    | '-' :: _ =>
      if h.chomp ≠ .clip then malformed
      skip 1
      blockIndicators fuel { h with chomp := .strip }
    | c :: _ =>
      if '1' ≤ c && c ≤ '9' then
        if h.indent ≠ 0 then malformed
        skip 1
        blockIndicators fuel { h with indent := c.toNat - 48 }
      else pure h
    | [] => pure h

/-- A line of a block scalar: its indentation and what follows. -/
abbrev BlockLine := Nat × List Char

/-- The lines at the beginning of a text that are empty or indented by at least `least`, and the
number of their characters. -/
def blockLines (least : Nat) : Nat → List Char → List BlockLine × Nat
  | 0, _ => ([], 0)
  | _, [] => ([], 0)
  | fuel + 1, cs =>
    let indent := (cs.takeWhile (· = ' ')).length
    let body := (cs.drop indent).takeWhile (· ≠ '\n')
    let after := (cs.drop indent).dropWhile (· ≠ '\n')
    if !body.isEmpty && (indent < least || (least = 0 && atMarker cs)) then ([], 0)
    else
      match after with
      | [] => ([(indent, body)], indent + body.length)
      | _ :: rest =>
        let (lines, n) := blockLines least fuel rest
        ((indent, body) :: lines, indent + body.length + 1 + n)

/-- Text of lines in a literal block scalar. -/
def literalText (trim : Nat) (lines : List BlockLine) : List Char :=
  List.intercalate ['\n'] (lines.map fun l => List.replicate (l.1 - trim) ' ' ++ l.2)

/-- Text of lines in a folded block scalar, behind a separator; `deep` tells that the line before
is indented more than the others. -/
def foldedText (trim : Nat) : List Char → Bool → List BlockLine → List Char
  | _, _, [] => []
  | sep, deep, (indent, body) :: lines =>
    if trim < indent || body.head? = some '\t' then
      let sep := if sep = [' '] then ['\n'] else if !deep && sep = ['\n'] then ['\n', '\n'] else sep
      sep ++ List.replicate (indent - trim) ' ' ++ body ++ foldedText trim ['\n'] true lines
    else if body.isEmpty then
      if sep = ['\n'] then '\n' :: foldedText trim sep deep lines
      else foldedText trim ['\n'] deep lines
    else sep ++ body ++ foldedText trim [' '] false lines

/-- Read a block scalar behind its first indicator. -/
def blockScalar (folded : Bool) (least : Nat) : ReadM String := do
  let h ← blockIndicators 2 ⟨folded, 0, .clip⟩
  if !atGap (← ahead) then malformed
  endLine
  if (← ahead).isEmpty then return ""
  skip 1
  let cs ← ahead
  let (_, first) := emptyLines 0 (cs.length + 1) cs
  let found := (first.takeWhile (· = ' ')).length
  let trim := if h.indent ≠ 0 then h.indent + (least - 1) else max found least
  let (lines, length) := blockLines trim (cs.length + 1) cs
  let ended := lines.length > 0 && (cs.take length).getLast? = some '\n'
  let all := if ended then lines ++ [(0, [])] else lines
  let contents :=
    if all.all (·.2.isEmpty) then []
    else (all.reverse.dropWhile fun l => l.2.isEmpty && l.1 ≤ trim).reverse
  if h.indent = 0 && (contents.takeWhile (·.2.isEmpty)).any (trim < ·.1) then malformed
  skip length
  let trailing := all.drop contents.length
  if contents.isEmpty then
    return if h.chomp = .keep && !all.isEmpty then
      String.ofList (List.replicate (max 1 (all.length - 1)) '\n')
    else ""
  let leading := contents.takeWhile (·.2.isEmpty)
  let body := contents.drop leading.length
  let text := leading.flatMap (fun l => List.replicate (l.1 - trim) ' ' ++ ['\n']) ++
    (if h.folded then foldedText trim [] false body else literalText trim body)
  let tail := match h.chomp with
    | .strip => []
    | .clip => ['\n']
    | .keep =>
      let kept := trailing.flatMap fun l => '\n' :: List.replicate (l.1 - trim) ' '
      if (text ++ kept).getLast? = some '\n' then kept else kept ++ ['\n']
  return String.ofList (text ++ tail)

end Schemata.Yaml
