/-! Double-precision numbers by their fields, how they are read and how they are written. The
reading of a decimal is correctly rounded: the nearest double, a tie going to the even fraction,
and infinity from the point on where rounding would leave the range. The shortest decimal of a
double has the fewest digits that read back as the same double, and of those it is the nearest to
it. All of it is exact arithmetic on natural numbers. -/
namespace QueryStore.Number

/-- The number of fractions. -/
def Binary64.fractions : Nat := Nat.pow 2 52

theorem Binary64.fractions_pos : 0 < fractions := by decide

/-- A double: sign, biased exponent and fraction, as in the interchange format. -/
structure Binary64 where
  negative : Bool
  exponent : Fin 2048
  fraction : Fin Binary64.fractions
deriving DecidableEq, Repr

namespace Binary64

/-- Exponent and fraction read as one number; it grows with the magnitude. -/
def magnitude (x : Binary64) : Nat := x.exponent.val * fractions + x.fraction.val

/-- The interchange bits as a number. -/
def bits (x : Binary64) : Nat := (if x.negative then Nat.pow 2 63 else 0) + x.magnitude

/-- The magnitude of infinity: the greatest exponent and no fraction. -/
def infinityMagnitude : Nat := 2047 * fractions

/-- The double of a sign and a magnitude, everything too large being infinite. -/
def ofMagnitude (negative : Bool) (magnitude : Nat) : Binary64 :=
  let bounded := min magnitude infinityMagnitude
  ⟨negative, Fin.ofNat 2048 (bounded / fractions),
    ⟨bounded % fractions, Nat.mod_lt bounded fractions_pos⟩⟩

/-- Whether a double is finite: the greatest exponent is that of the infinities and of what is
not a number. -/
def isFinite (x : Binary64) : Bool := x.exponent.val ≠ 2047

/-- Whether a double is infinite. -/
def isInfinite (x : Binary64) : Bool := x.exponent.val = 2047 && x.fraction.val = 0

/-- Whether a double is a zero of either sign. -/
def isZero (x : Binary64) : Bool := x.magnitude = 0

/-- Whether a double is not a number. -/
def isNaN (x : Binary64) : Bool := x.exponent.val = 2047 && x.fraction.val ≠ 0

/-- Numeric equality: the two zeros are equal, and what is not a number equals nothing. -/
def sameValue (x y : Binary64) : Bool := (x = y && !x.isNaN) || (x.isZero && y.isZero)

/-- The integer `m` of a finite magnitude `m * 2 ^ q`. -/
def significand (x : Binary64) : Nat :=
  if x.exponent.val = 0 then x.fraction.val else fractions + x.fraction.val

/-- The exponent `q` of a finite magnitude `m * 2 ^ q`, raised by 1074 to be a natural number. -/
def scale (x : Binary64) : Nat := x.exponent.val - 1

/-- A quotient rounded to the nearest integer, a tie going to the even one. -/
def roundQuotient (numerator denominator : Nat) : Nat :=
  let quotient := numerator / denominator
  let twice := 2 * (numerator % denominator)
  if twice < denominator then quotient
  else if denominator < twice then quotient + 1
  else if quotient % 2 = 0 then quotient else quotient + 1

/-- The magnitude nearest to `numerator / denominator`. The quotient is measured in units of
`2 ^ (scale - 1074)`, with the scale chosen so that a normal number has 53 bits; a carry
out of the rounding moves on to the next exponent by itself. -/
def nearestMagnitude (numerator denominator : Nat) : Nat :=
  let top := 1074 + Nat.log2 numerator
  let scale := top - (Nat.log2 denominator + 53)
  let unitsAt (scale : Nat) : Nat × Nat :=
    (numerator * Nat.pow 2 1074, denominator * Nat.pow 2 scale)
  let scale :=
    if (unitsAt scale).1 < (unitsAt scale).2 * Nat.pow 2 53 then scale else scale + 1
  scale * fractions + roundQuotient (unitsAt scale).1 (unitsAt scale).2

/-- The double nearest to `digits * 10 ^ exponent`. A decimal past 10 ^ 310 is infinite and
one below 10 ^ -330 is zero, so the powers of ten that are formed stay small. -/
def ofDecimal (negative : Bool) (digits : Nat) (exponent : Int) : Binary64 :=
  let size : Int := exponent + (Nat.toDigits 10 digits).length
  ofMagnitude negative <|
    if digits = 0 || size < -330 then 0
    else if 310 < size then infinityMagnitude
    else if exponent < 0 then nearestMagnitude digits (Nat.pow 10 exponent.natAbs)
    else nearestMagnitude (digits * Nat.pow 10 exponent.natAbs) 1

end Binary64

/-- The texts before and after the last character that passes the test. -/
def splitAtLast (test : Char → Bool) (text : List Char) : Option (List Char × List Char) :=
  match text.reverse.dropWhile (!test ·) with
  | [] => none
  | _ :: before => some (before.reverse, (text.reverse.takeWhile (!test ·)).reverse)

/-- An exponent is marked by the letter E of either case. -/
def isExponentMark (char : Char) : Bool := char = 'e' || char = 'E'

/-- An integer is zero, with or without a sign, or digits of which the first is no zero,
with or without a sign. -/
def isInteger (text : List Char) : Bool :=
  let digits := if text.head? = some '-' then text.tail else text
  match digits with
  | [] => false
  | first :: others => digits.all Char.isDigit && (first ≠ '0' || others.isEmpty)

/-- An exponent begins with a sign or with a digit from one to eight; only digits follow. -/
def isExponent : List Char → Bool
  | [] => false
  | first :: others =>
    (first = '+' || first = '-' || ('1' ≤ first && first ≤ '8')) && others.all Char.isDigit

/-- What stands before an exponent: an integer, perhaps with a point and digits after it. -/
def isMantissa (text : List Char) : Bool :=
  match splitAtLast (· = '.') text with
  | none => isInteger text
  | some (whole, fraction) => isInteger whole && !fraction.isEmpty && fraction.all Char.isDigit

/-- A float literal: a mantissa, and after the last exponent mark an exponent. -/
def isFloat (text : List Char) : Bool :=
  match splitAtLast isExponentMark text with
  | none => isMantissa text
  | some (mantissa, exponent) => isMantissa mantissa && isExponent exponent

/-- Decimal digits as a number. -/
def natural (digits : List Char) : Nat :=
  digits.foldl (fun value digit => value * 10 + (digit.toNat - '0'.toNat)) 0

/-- Digits with an optional sign as an integer. -/
def integer : List Char → Int
  | '-' :: digits => -natural digits
  | '+' :: digits => natural digits
  | digits => natural digits

/-- The double nearest to a float literal; an exponent that is a mere sign has no value. -/
def float? (text : List Char) : Option Binary64 :=
  let (mantissa, exponent) := (splitAtLast isExponentMark text).getD (text, ['0'])
  if exponent = ['+'] || exponent = ['-'] then none
  else
    let (whole, fraction) := (splitAtLast (· = '.') mantissa).getD (mantissa, [])
    let digits := (whole ++ fraction).filter Char.isDigit
    some (.ofDecimal (text.head? = some '-') (natural digits) (integer exponent - fraction.length))

example : isInteger "-0".toList ∧ ¬ isInteger "-".toList ∧ ¬ isInteger "01".toList := by decide
example : isFloat "1.5e-3".toList ∧ ¬ isFloat "1e05".toList ∧ isFloat "1e+".toList := by decide
example : (float? "1.5".toList).map Binary64.bits = some 0x3ff8000000000000 := by decide +kernel
example : (float? "5e-324".toList).map Binary64.bits = some 1 := by decide +kernel

/-- A positive decimal in scientific form: the first digit stands before the point. -/
structure Decimal where
  digits : List Nat
  exponent : Int
deriving DecidableEq, Repr

/-- The numbers that round to a double, in units of `2 ^ -1076`: its own value and the two
ends, which belong to it when its significand is even. The gap below a power of two is
half the gap above. -/
structure RoundingInterval where
  value : Nat
  lower : Nat
  upper : Nat
  closed : Bool

/-- The rounding interval of the magnitude of a finite double. -/
def Binary64.roundingInterval (x : Binary64) : RoundingInterval :=
  let unit := Nat.pow 2 x.scale
  let below := if x.fraction.val = 0 && 1 < x.exponent.val then unit else 2 * unit
  let value := 4 * x.significand * unit
  ⟨value, value - below, value + 2 * unit, x.significand % 2 = 0⟩

/-- The exponent of the leading decimal digit of a positive quotient. -/
def decimalExponent (numerator denominator : Nat) : Int :=
  if denominator ≤ numerator then
    ((Nat.toDigits 10 (numerator / denominator)).length : Int) - 1
  else
    -((Nat.toDigits 10 ((denominator - 1) / numerator)).length : Int)

/-- The nearer of the two neighbours of the value on the grid of `10 ^ -places` that lie in
the interval, as a multiple of the grid. -/
def RoundingInterval.onGrid (interval : RoundingInterval) (places : Int) : Option Nat :=
  let up := Nat.pow 10 places.toNat
  let one := Nat.pow 2 1076 * Nat.pow 10 (-places).toNat
  let floor := interval.value * up / one
  let within (multiple : Nat) : Bool :=
    if interval.closed then
      interval.lower * up ≤ multiple * one && multiple * one ≤ interval.upper * up
    else interval.lower * up < multiple * one && multiple * one < interval.upper * up
  let fromFloor := interval.value * up - floor * one
  let fromCeiling := (floor + 1) * one - interval.value * up
  let floorFirst := fromFloor < fromCeiling || (fromFloor = fromCeiling && floor % 2 = 0)
  match within floor && 0 < floor, within (floor + 1) with
  | true, true => some (if floorFirst then floor else floor + 1)
  | true, false => some floor
  | false, true => some (floor + 1)
  | false, false => none

/-- Digits without the zeros at their end. -/
def withoutTrailingZeros (digits : List Nat) : List Nat :=
  (digits.reverse.dropWhile (· = 0)).reverse

/-- Tries grids of more and more digits; seventeen always suffice. -/
def RoundingInterval.shortest (interval : RoundingInterval) (leading : Int) : Nat → Nat → Decimal
  | count, 0 => ⟨[], leading - count⟩
  | count, remaining + 1 =>
    match interval.onGrid (count - leading) with
    | none => interval.shortest leading (count + 1) remaining
    | some multiple =>
      let digits := (Nat.toDigits 10 multiple).map fun digit => digit.toNat - '0'.toNat
      ⟨withoutTrailingZeros digits, leading + ((digits.length : Int) - 1 - count)⟩

/-- The shortest decimal of the magnitude of a finite double that is not zero. -/
def Binary64.shortest (x : Binary64) : Decimal :=
  let interval := x.roundingInterval
  interval.shortest (decimalExponent interval.value (Nat.pow 2 1076)) 0 17

end QueryStore.Number
