import Schemata.Number.Rounding

/-!
# Numerals

`ofText` reads the number that a word of a command line denotes: a decimal numeral with optional
sign, point and exponent, a hexadecimal, octal or binary numeral after `0x`, `0o` or `0b`, or
`Infinity`. Blanks around the numeral do not count, nothing at all is zero, and any other word is no
number.
-/

namespace Schemata.Number

/-- Value of a digit in a base up to sixteen, in either case. -/
def digitValue? (base : Nat) (c : Char) : Option Nat :=
  let n := c.toNat
  let value :=
    if 48 ≤ n ∧ n ≤ 57 then some (n - 48)
    else if 97 ≤ n ∧ n ≤ 102 then some (n - 87)
    else if 65 ≤ n ∧ n ≤ 70 then some (n - 55)
    else none
  value.filter (· < base)

/-- Value of a sequence of digits that continues `start`, if all of them are digits of the base. -/
def digitsValue? (base : Nat) : Nat → List Char → Option Nat
  | start, [] => some start
  | start, c :: cs =>
    match digitValue? base c with
    | some d => digitsValue? base (start * base + d) cs
    | none => none

/-- Value of at least one digit of the base. -/
def natural? (base : Nat) (cs : List Char) : Option Nat :=
  if cs.isEmpty then none else digitsValue? base 0 cs

/-- Value of the part after the exponent letter: an optional sign and digits. -/
def exponent? : List Char → Option Int
  | '+' :: cs => (natural? 10 cs).map Int.ofNat
  | '-' :: cs => (natural? 10 cs).map fun n => -(n : Int)
  | cs => (natural? 10 cs).map Int.ofNat

/-- Whether a character is the exponent letter. -/
def isExponentMark (c : Char) : Bool := c = 'e' || c = 'E'

/-- Number of an unsigned decimal numeral: digits with a point among, before or after them, and an
optional exponent. -/
def decimal? (negative : Bool) (cs : List Char) : Option Number :=
  let mantissa := cs.takeWhile (!isExponentMark ·)
  let whole := mantissa.takeWhile (· ≠ '.')
  let fraction := (mantissa.dropWhile (· ≠ '.')).drop 1
  let scale := match cs.dropWhile (!isExponentMark ·) with
    | [] => some 0
    | _ :: rest => exponent? rest
  match natural? 10 (whole ++ fraction), scale with
  | some digits, some e => some (ofDecimal negative digits (e - fraction.length))
  | _, _ => none

/-- Number of a decimal numeral or infinity with an optional sign. -/
def signed? (cs : List Char) : Option Number :=
  let (negative, body) := match cs with
    | '+' :: rest => (false, rest)
    | '-' :: rest => (true, rest)
    | rest => (false, rest)
  if body = "Infinity".toList then some (infinite negative) else decimal? negative body

/-- The blanks that may stand around a numeral. -/
def isBlank (c : Char) : Bool :=
  let n := c.toNat
  (9 ≤ n && n ≤ 13) || n = 32 || n = 0xA0 || n = 0x1680 || (0x2000 ≤ n && n ≤ 0x200A) ||
    n = 0x2028 || n = 0x2029 || n = 0x202F || n = 0x205F || n = 0x3000 || n = 0xFEFF

/-- A list without the blanks at its ends. -/
def trimBlanks (cs : List Char) : List Char :=
  ((cs.dropWhile isBlank).reverse.dropWhile isBlank).reverse

/-- The number that a word denotes, `nan` for a word that is no numeral. -/
def ofText (s : String) : Number :=
  let unsigned (base : Nat) (cs : List Char) : Number :=
    match natural? base cs with
    | some n => ofRatio false n 1
    | none => nan
  match trimBlanks s.toList with
  | [] => integral 0
  | '0' :: 'x' :: cs | '0' :: 'X' :: cs => unsigned 16 cs
  | '0' :: 'o' :: cs | '0' :: 'O' :: cs => unsigned 8 cs
  | '0' :: 'b' :: cs | '0' :: 'B' :: cs => unsigned 2 cs
  | cs => (signed? cs).getD nan

end Schemata.Number
