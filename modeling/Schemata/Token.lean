import Schemata.Position

/-!
# Tokens of schema texts

A schema text consists of words and punctuation marks. Two words are keywords, a few others are
reserved and may not be used anywhere; every other word is a name.
-/

namespace Schemata

/-- What a token is. -/
inductive TokenKind where
  | name
  | module
  | attributes
  | openParen
  | closeParen
  | openBrace
  | closeBrace
  | bar
  | star
  | question
  | comma
  | equals
  | reserved
  | endOfInput
deriving DecidableEq, Repr, Inhabited

namespace TokenKind

/-- Short name of a kind; punctuation marks name themselves. -/
def label : TokenKind → String
  | name => "name"
  | module => "module"
  | attributes => "attributes"
  | openParen => "("
  | closeParen => ")"
  | openBrace => "\x7b"
  | closeBrace => "\x7d"
  | bar => "|"
  | star => "*"
  | question => "?"
  | comma => ","
  | equals => "="
  | reserved => "reserved"
  | endOfInput => "eof"

/-- Kind of a punctuation mark. -/
def ofMark? : Char → Option TokenKind
  | '(' => some openParen
  | ')' => some closeParen
  | '{' => some openBrace
  | '}' => some closeBrace
  | '|' => some bar
  | '*' => some star
  | '?' => some question
  | ',' => some comma
  | '=' => some equals
  | _ => none

/-- Words that are neither keywords nor names. -/
def reservedWords : List String :=
  ["constructor", "toString", "valueOf", "hasOwnProperty", "isPrototypeOf",
    "propertyIsEnumerable", "toLocaleString", "__proto__", "__defineGetter__",
    "__defineSetter__", "__lookupGetter__", "__lookupSetter__"]

/-- Kind of a word. -/
def ofWord (word : String) : TokenKind :=
  if word = "module" then module
  else if word = "attributes" then attributes
  else if word ∈ reservedWords then reserved
  else name

end TokenKind

/-- A word or mark with the position of its first character; the token at the end of a text is
empty. -/
structure Token where
  kind : TokenKind
  text : String
  position : Position
deriving DecidableEq, Repr, Inhabited

/-- The token at the end of a text. -/
def Token.endOfInput (position : Position) : Token := ⟨.endOfInput, "", position⟩

end Schemata
