import Schemata.Number.Rounding

/-!
# Shortest text of a number

A number is written with the fewest decimal digits that read back to it; among those the nearest is
taken, and of two equally near the one with an even last digit. The point stands inside or before
the digits while the number is below `10 ^ 21` and not below `10 ^ -6`; outside this range one digit
stands before the point and an exponent with a sign follows. Both zeros are written `0`.
-/

namespace Schemata.Number

/-- The reals that round to a positive number, in units of `1 / scale`: from `low` to `high`, with
the number itself at `centre`; the ends belong to it iff `closed`. -/
structure Interval where
  low : Nat
  centre : Nat
  high : Nat
  scale : Nat
  closed : Bool

/-- The rounding interval of `significand · 2 ^ exponent`, where the significand has 53 bits or the
exponent is the least one. Below a power of two the neighbours are twice as near. -/
def interval (significand : Nat) (exponent : Int) : Interval :=
  let below := if significand = Nat.pow 2 52 ∧ -1074 < exponent then 1 else 2
  let up := Nat.pow 2 (exponent - 2).toNat
  { low := (4 * significand - below) * up
    centre := 4 * significand * up
    high := (4 * significand + 2) * up
    scale := Nat.pow 2 (2 - exponent).toNat
    closed := significand % 2 = 0 }

/-- Decimal digits of a natural number. -/
def digitCount (n : Nat) : Nat := (Nat.toDigits 10 n).length

/-- The `d` with `10 ^ (d - 1) ≤ num / den < 10 ^ d`, for positive arguments. -/
def decimalOrder (num den : Nat) : Int :=
  if den ≤ num then digitCount (num / den)
  else
    let n := digitCount (den / num)
    if num * Nat.pow 10 (n - 1) = den then 2 - (n : Int) else 1 - (n : Int)

/-- The multiple of `10 ^ (order - count)` that lies in the interval and is nearest to its centre,
as a count of that power, if there is one. -/
def gridPoint (i : Interval) (order : Int) (count : Nat) : Option Nat :=
  let shift : Int := count - order
  let up := Nat.pow 10 shift.toNat
  let unit := i.scale * Nat.pow 10 (-shift).toNat
  let centre := i.centre * up
  let floor := centre / unit
  let rest := centre % unit
  let inside (n : Nat) : Bool :=
    if i.closed then i.low * up ≤ n * unit && n * unit ≤ i.high * up
    else i.low * up < n * unit && n * unit < i.high * up
  match inside floor, inside (floor + 1) with
  | true, false => some floor
  | false, true => some (floor + 1)
  | true, true =>
    some (if 2 * rest < unit then floor else if unit < 2 * rest then floor + 1
      else floor + floor % 2)
  | false, false => none

/-- The shortest digits in the interval and the number of digits in use, tried from `count` on. -/
def shortestFrom (i : Interval) (order : Int) : Nat → Nat → Nat × Nat
  | 0, count => (i.centre / i.scale, count)
  | fuel + 1, count =>
    match gridPoint i order count with
    | some n => (n, count)
    | none => shortestFrom i order fuel (count + 1)

/-- Significand with 53 bits, or the least exponent, of `significand · 2 ^ exponent`. -/
def normalize (significand : Nat) (exponent : Int) : Nat × Int :=
  let order := (Nat.log2 significand : Int) + exponent
  let target := max (order - 52) (-1074)
  if target ≤ exponent then (significand * Nat.pow 2 (exponent - target).toNat, target)
  else (significand / Nat.pow 2 (target - exponent).toNat, target)

/-- Shortest digits `ds` of a positive number and the place `d` of the point: the number is written
`0.ds · 10 ^ d`. -/
def shortest (significand : Nat) (exponent : Int) : List Char × Int :=
  let (s, e) := normalize significand exponent
  let i := interval s e
  let order := decimalOrder i.centre i.scale
  let (n, count) := shortestFrom i order 17 1
  let digits := Nat.toDigits 10 n
  let trimmed := (digits.reverse.dropWhile (· = '0')).reverse
  (trimmed, order + ((digits.length : Int) - count))

/-- Layout of digits around the point. -/
def layout (digits : List Char) (point : Int) : List Char :=
  let count : Int := digits.length
  if count ≤ point ∧ point ≤ 21 then
    digits ++ List.replicate (point - count).toNat '0'
  else if 0 < point ∧ point ≤ 21 then
    digits.take point.toNat ++ '.' :: digits.drop point.toNat
  else if -6 < point ∧ point ≤ 0 then
    '0' :: '.' :: (List.replicate (-point).toNat '0' ++ digits)
  else
    let exponent := point - 1
    let mantissa := match digits with
      | [] => []
      | [d] => [d]
      | d :: ds => d :: '.' :: ds
    mantissa ++ 'e' :: (if exponent < 0 then '-' else '+') :: Nat.toDigits 10 exponent.natAbs

/-- Text of a positive number given by significand and exponent. -/
def positiveText (significand : Nat) (exponent : Int) : List Char :=
  let (digits, point) := shortest significand exponent
  layout digits point

/-- Shortest text of a number. Integers of at most 53 bits are their own shortest text. -/
def text : Number → String
  | nan => "NaN"
  | infinite negative => if negative then "-Infinity" else "Infinity"
  | negativeZero => "0"
  | integral n =>
    if n.natAbs ≤ maxSafe then toString n
    else
      let body := String.ofList (positiveText n.natAbs 0)
      if n < 0 then "-" ++ body else body
  | fractional negative significand places =>
    let body := String.ofList (positiveText significand (-(places : Int)))
    if negative then "-" ++ body else body

end Schemata.Number
