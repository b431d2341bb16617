import Schemata.Number

/-!
# Rounding to a number

`ofRatio` gives the number nearest to a quotient, the one with an even last place where two are
equally near; a quotient that rounds to `2 ^ 1024` or more is infinite. `ofDecimal` reads a decimal
fraction that way.
-/

namespace Schemata.Number

/-- Division to the nearest integer, a half going to the even neighbour. -/
def divToEven (num den : Nat) : Nat :=
  let q := num / den
  let r := num % den
  if 2 * r < den then q
  else if den < 2 * r then q + 1
  else q + q % 2

/-- Halve a significand while it is even and has places left. -/
def reduce : Nat → Nat → Nat × Nat
  | significand, 0 => (significand, 0)
  | significand, places + 1 =>
    if significand % 2 = 0 then reduce (significand / 2) places else (significand, places + 1)

/-- Zero with a sign. -/
def zero (negative : Bool) : Number :=
  if negative then negativeZero else integral 0

/-- An integer with a sign. -/
def ofSignMagnitude (negative : Bool) (n : Nat) : Number :=
  if n = 0 then zero negative
  else integral (if negative then -(n : Int) else n)

/-- The dyadic fraction `significand / 2 ^ places`. -/
def ofDyadic (negative : Bool) (significand places : Nat) : Number :=
  match reduce significand places with
  | (n, 0) => ofSignMagnitude negative n
  | (n, k + 1) => if n = 0 then zero negative else fractional negative n (k + 1)

/-- The greatest `k` with `2 ^ k ≤ num / den`, for positive arguments. -/
def binaryOrder (num den : Nat) : Int :=
  let k : Int := (Nat.log2 num : Int) - Nat.log2 den
  let reached :=
    if 0 ≤ k then den * Nat.pow 2 k.toNat ≤ num else den ≤ num * Nat.pow 2 (-k).toNat
  if reached then k else k - 1

/-- The number nearest to `± num / den`, for a positive `den`. -/
def ofRatio (negative : Bool) (num den : Nat) : Number :=
  if num = 0 then zero negative
  else
    let exponent := max (binaryOrder num den - 52) (-1074)
    if 0 ≤ exponent then
      let unit := Nat.pow 2 exponent.toNat
      let n := divToEven num (den * unit) * unit
      if Nat.pow 2 1024 ≤ n then infinite negative else ofSignMagnitude negative n
    else
      ofDyadic negative (divToEven (num * Nat.pow 2 (-exponent).toNat) den) (-exponent).toNat

/-- The number nearest to `± digits · 10 ^ exponent`. Exponents far outside the range are settled
without forming the power. -/
def ofDecimal (negative : Bool) (digits : Nat) (exponent : Int) : Number :=
  if digits = 0 then zero negative
  else if 400 < exponent then infinite negative
  else if exponent + Nat.log2 digits + 400 < 0 then zero negative
  else if 0 ≤ exponent then ofRatio negative (digits * Nat.pow 10 exponent.toNat) 1
  else ofRatio negative digits (Nat.pow 10 (-exponent).toNat)

end Schemata.Number
