/-
# Numbers of double precision

A finite number of double precision is a whole number of at most 53 bits times
a power of two not below 2⁻¹⁰⁷⁴. The operations here round the exact quotient of
two whole numbers to the nearest such number, a tie to the even one, so that a
decimal text can be read in exact arithmetic and no machine arithmetic is
involved.
-/

namespace Vendoring.Decimal

/-- A power of two. -/
def pow2 (n : Nat) : Nat := Nat.pow 2 n

/-- A power of ten. -/
def pow10 (n : Nat) : Nat := Nat.pow 10 n

/-- The size of a finite number of double precision, `mantissa · 2 ^ exponent`. -/
structure Binary64 where
  /-- The digits, below 2⁵³ and not below 2⁵² unless the exponent is least. -/
  mantissa : Nat
  /-- The power of two that the digits count. -/
  exponent : Int
  deriving DecidableEq, Repr

namespace Binary64

/-- The least exponent. -/
def minExponent : Int := -1074

/-- The largest exponent. -/
def maxExponent : Int := 971

/-- Zero. -/
def zero : Binary64 := ⟨0, minExponent⟩

/-- The quotient rounded to the nearest whole number, a half to the even one. -/
def roundQuotient (num den : Nat) : Nat :=
  let q := num / den
  let twice := 2 * (num % den)
  if twice > den || (twice = den && q % 2 = 1) then q + 1 else q

/-- The quotient of two whole numbers after division by a power of two. -/
def shiftDown (num den : Nat) (exponent : Int) : Nat × Nat :=
  if exponent < 0 then (num * pow2 exponent.natAbs, den) else (num, den * pow2 exponent.toNat)

/-- The exponent at which the quotient of two positive numbers has 53 digits, or
the least exponent if that is larger. -/
def exponentOf (num den : Nat) : Int :=
  let guess : Int := (num.log2 : Int) - den.log2 - 52
  let (n, d) := shiftDown num den guess
  max minExponent (if n / d < pow2 52 then guess - 1 else guess)

/-- The number nearest to a quotient, or nothing if the quotient is too large. -/
def ofRatio? (num den : Nat) : Option Binary64 :=
  if num = 0 then some zero
  else
    let exponent := exponentOf num den
    let (n, d) := shiftDown num den exponent
    let mantissa := roundQuotient n d
    let rounded : Binary64 :=
      if mantissa = pow2 53 then ⟨pow2 52, exponent + 1⟩ else ⟨mantissa, exponent⟩
    if rounded.exponent > maxExponent then none else some rounded

/-- The number as a quotient of whole numbers. -/
def toRatio (x : Binary64) : Nat × Nat :=
  shiftDown x.mantissa 1 (-x.exponent)

/-- The product, rounded. -/
def mul? (x y : Binary64) : Option Binary64 :=
  let (a, b) := x.toRatio
  let (c, d) := y.toRatio
  ofRatio? (a * c) (b * d)

/-- The quotient by a number that is not zero, rounded. -/
def div? (x y : Binary64) : Option Binary64 :=
  let (a, b) := x.toRatio
  let (c, d) := y.toRatio
  ofRatio? (a * d) (b * c)

/-- The largest power of ten that has a number near it. -/
def maxPowerOfTen : Nat := 308

/-- The number nearest to a power of ten. -/
def powerOfTen? (n : Nat) : Option Binary64 :=
  ofRatio? (pow10 n) 1

/-- Divide by the largest power of ten, the given number of times or until
nothing is left. -/
def divLargest? : Nat → Binary64 → Option Binary64
  | 0, x => some x
  | count + 1, x =>
    if x.mantissa = 0 then some x
    else ((powerOfTen? maxPowerOfTen).bind x.div?).bind (divLargest? count)

/-- Divide by a power of ten, by at most 10³⁰⁸ at a time. -/
def divPowerOfTen? (x : Binary64) (n : Nat) : Option Binary64 :=
  let count := (n - 1) / maxPowerOfTen
  (divLargest? count x).bind fun y =>
    (powerOfTen? (n - maxPowerOfTen * count)).bind y.div?

/-- The number read from the digits of a decimal text and its power of ten.
The digits are rounded first and the power is applied after that, so a text of
more than fifteen digits may be read as a neighbour of the nearest number. -/
def ofDigits? (digits : Nat) (power : Int) : Option Binary64 :=
  (ofRatio? digits 1).bind fun x =>
    if power < 0 then x.divPowerOfTen? power.natAbs
    else if power ≤ maxPowerOfTen then (powerOfTen? power.toNat).bind x.mul?
    else if x.mantissa = 0 then some x
    else none

end Binary64

end Vendoring.Decimal
