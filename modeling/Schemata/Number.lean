/-!
# Numbers

The numbers that fields, settings and command lines hold: the values of 64-bit binary floating
point. A number is written down by what it is, so that equality of terms is equality of numbers:

* an integer (zero included), or the other zero, `negativeZero`;
* `± significand / 2 ^ places` with an odd significand and at least one place;
* an infinity, or `nan`, which stands for no value.
-/

namespace Schemata

/-- A value of 64-bit binary floating point. -/
inductive Number where
  | nan
  | infinite (negative : Bool)
  | integral (value : Int)
  | negativeZero
  | fractional (negative : Bool) (significand places : Nat)
deriving DecidableEq, Repr, Inhabited

namespace Number

/-- The greatest integer such that it and all smaller ones are told apart from their neighbours. -/
def maxSafe : Nat := Nat.pow 2 53 - 1

/-- The integer that a number is, if it is one; both zeros are. -/
def toInt? : Number → Option Int
  | integral n => some n
  | negativeZero => some 0
  | _ => none

/-- Whether a number is an integer of magnitude at most `maxSafe`. -/
def isSafeInteger (x : Number) : Bool :=
  match x.toInt? with
  | some n => n.natAbs ≤ maxSafe
  | none => false

/-- The natural number that a number is, if it is one. -/
def toNat? (x : Number) : Option Nat :=
  match x.toInt? with
  | some (.ofNat n) => some n
  | _ => none

/-- How many of the integers 1, 2, 3, … are not greater than a number; `none` when all of them are
accepted, which is so for positive infinity and for `nan`, as nothing exceeds `nan`. -/
def levels : Number → Option Nat
  | nan => none
  | infinite negative => if negative then some 0 else none
  | integral n => some n.toNat
  | negativeZero => some 0
  | fractional negative significand places =>
    some (if negative then 0 else significand / Nat.pow 2 places)

/-- The natural numbers are numbers. -/
def ofNat (n : Nat) : Number := integral n

end Number

end Schemata
