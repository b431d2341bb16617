import Schemata.Text.Quoted
import Schemata.Token

/-!
# Reading tokens from a text

`tokenize` reads a text character by character. Between tokens it skips blanks, tabs, line ends and
comments, which run from `--` to the end of the line; words are taken as long as they go on. The
scanner's `Mode` says what the character before it has begun.

A character that can begin nothing ends the reading with an error at its position; so does a dash
that no second dash follows.
-/

namespace Schemata

/-- Why a text has no tokens. -/
inductive LexError where
  | unpairedDash (position : Position)
  | unexpected (character : Char) (position : Position)
deriving DecidableEq, Repr

namespace LexError

def message : LexError → String
  | unpairedDash _ => "Unterminated comment marker: expected '--'"
  | unexpected c _ => "Unexpected character " ++ Text.quoteUnit c

def position : LexError → Position
  | unpairedDash p => p
  | unexpected _ p => p

end LexError

namespace Token

/-- Whether a word may begin with the character. -/
def isWordStart (c : Char) : Bool := c.isAlpha || c = '_'

/-- Whether a word may go on with the character. -/
def isWordPart (c : Char) : Bool := c.isAlphanum || c = '_'

/-- Whether the character only separates tokens. -/
def isBlank (c : Char) : Bool := c = ' ' || c = '\t' || c = '\r' || c = '\n'

/-- What the characters read last have begun. The letters of a word are kept last one first. -/
inductive Mode where
  | between
  | word (start : Position) (letters : List Char)
  | dash (start : Position)
  | comment
deriving DecidableEq, Repr

/-- A scanner in the middle of a text: its mode, the position of the next character and the tokens
read, last one first. -/
structure Scanner where
  mode : Mode
  position : Position
  tokens : List Token
deriving DecidableEq, Repr

/-- The token of a word that has ended. -/
def ofWord (start : Position) (letters : List Char) : Token :=
  let text := String.ofList letters.reverse
  ⟨.ofWord text, text, start⟩

namespace Scanner

/-- The scanner at the beginning of a text. -/
def initial : Scanner := ⟨.between, .start, []⟩

/-- Read a character that continues nothing. -/
def opening (s : Scanner) (tokens : List Token) (c : Char) : Except LexError Scanner :=
  let next := s.position.after c
  if isBlank c then .ok ⟨.between, next, tokens⟩
  else if c = '-' then .ok ⟨.dash s.position, next, tokens⟩
  else if isWordStart c then .ok ⟨.word s.position [c], next, tokens⟩
  else
    match TokenKind.ofMark? c with
    | some kind => .ok ⟨.between, next, ⟨kind, String.singleton c, s.position⟩ :: tokens⟩
    | none => .error (.unexpected c s.position)

/-- Read one character. -/
def step (s : Scanner) (c : Char) : Except LexError Scanner :=
  match s.mode with
  | .between => s.opening s.tokens c
  | .word start letters =>
    if isWordPart c then .ok ⟨.word start (c :: letters), s.position.after c, s.tokens⟩
    else s.opening (ofWord start letters :: s.tokens) c
  | .dash start =>
    if c = '-' then .ok ⟨.comment, s.position.after c, s.tokens⟩
    else .error (.unpairedDash start)
  | .comment =>
    .ok ⟨if c = '\n' then .between else .comment, s.position.after c, s.tokens⟩

/-- The tokens at the end of the text. -/
def finish (s : Scanner) : Except LexError (List Token) :=
  match s.mode with
  | .between | .comment => .ok (endOfInput s.position :: s.tokens).reverse
  | .word start letters =>
    .ok (endOfInput s.position :: ofWord start letters :: s.tokens).reverse
  | .dash start => .error (.unpairedDash start)

end Scanner

/-- The tokens of a text; the last one, and only it, is the end of the input. -/
def tokenize (source : String) : Except LexError (List Token) := do
  (← source.toList.foldlM Scanner.step Scanner.initial).finish

end Token

end Schemata
