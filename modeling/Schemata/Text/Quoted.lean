import Schemata.Text.Units

/-!
# Quoted texts

A text is written between quotation marks with the short escapes for quotation mark, backslash,
backspace, form feed, newline, carriage return and tab, and with a four-digit escape for every
other control character. All else stands for itself.
-/

namespace Schemata.Text

/-- Lower-case hexadecimal digit of a number below sixteen. -/
def hexDigit (n : Nat) : Char :=
  if n < 10 then Char.ofNat (48 + n) else Char.ofNat (87 + n)

/-- Escape of a 16-bit unit by four hexadecimal digits. -/
def unitEscape (n : Nat) : List Char :=
  ['\\', 'u', hexDigit (n / 4096 % 16), hexDigit (n / 256 % 16), hexDigit (n / 16 % 16),
    hexDigit (n % 16)]

/-- Written form of one character inside quotation marks. -/
def quoteChar (c : Char) : List Char :=
  if c = '"' then ['\\', '"']
  else if c = '\\' then ['\\', '\\']
  else if c = '\n' then ['\\', 'n']
  else if c = '\r' then ['\\', 'r']
  else if c = '\t' then ['\\', 't']
  else if c.toNat = 8 then ['\\', 'b']
  else if c.toNat = 12 then ['\\', 'f']
  else if c.toNat < 32 then unitEscape c.toNat
  else [c]

/-- A text in quotation marks. -/
def quote (s : String) : String :=
  String.ofList ('"' :: (s.toList.flatMap quoteChar ++ ['"']))

/-- The first unit of a character in quotation marks: half of a pair is written as an escape. -/
def quoteUnit (c : Char) : String :=
  if c.toNat < 0x10000 then quote (String.singleton c)
  else String.ofList ('"' :: (unitEscape (leadUnit c) ++ ['"']))

end Schemata.Text
