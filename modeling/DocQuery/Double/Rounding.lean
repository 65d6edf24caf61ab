import DocQuery.Double.Basic

/-!
# Rounding a ratio to the nearest double

`ofRatio` rounds `num / den` to the nearest double, a tie to the even significand. The quotient is
scaled by a power of two until it has 53 bits (fewer below the normal range) and rounded to an
integer `m`. With `q` the scale, the magnitude is then `(q + 1074) · 2 ^ 52 + m`: a carry out of `m`
lands in the exponent, which is where it belongs.
-/

set_option autoImplicit false

namespace DocQuery
namespace Double

/-- `num / den` to the nearest integer, a tie to the even one. -/
def roundToEven (num den : Nat) : Nat :=
  let quotient := num / den
  let twice := 2 * (num % den)
  if den < twice || (twice == den && quotient % 2 == 1) then quotient + 1 else quotient

/-- `num / (den · 2 ^ q)`, as a numerator and a denominator. -/
def scaleDown (num den : Nat) (q : Int) : Nat × Nat :=
  (num * Nat.pow 2 (-q).toNat, den * Nat.pow 2 q.toNat)

/-- The scale that leaves `num / den` with 53 bits, or the least one there is. -/
def scaleOf (num den : Nat) : Int :=
  let q := max (-1074) ((Nat.log2 num : Int) - Nat.log2 den - 52)
  let (n, d) := scaleDown num den q
  if n / d < exponentBit then max (-1074) (q - 1) else q

/-- The magnitude of the double nearest to `num / den`. -/
def roundMagnitude (num den : Nat) : Nat :=
  if num = 0 then 0 else
    let q := scaleOf num den
    let (n, d) := scaleDown num den q
    min infinity ((q + 1074).toNat * exponentBit + roundToEven n d)

/-- The double nearest to `± num / den`; infinite when that is out of range. -/
def ofRatio (negative : Bool) (num den : Nat) : Double :=
  ofMagnitude negative (roundMagnitude num den)

/-- The double nearest to an integer. -/
def ofInt (n : Int) : Double := ofRatio (decide (n < 0)) n.natAbs 1

/-- The product of the sizes of two finite doubles, rounded, with the sign of the first. -/
def scaleUp (d factor : Double) : Double :=
  ofRatio d.negative (d.numerator * factor.numerator) (d.denominator * factor.denominator)

/-- The quotient of the sizes of two finite doubles, rounded, with the sign of the first. -/
def divideBy (d divisor : Double) : Double :=
  ofRatio d.negative (d.numerator * divisor.denominator) (d.denominator * divisor.numerator)

/-- The number of decimal digits of `n`, none for zero. -/
def digitCount (n : Nat) : Nat :=
  if n = 0 then 0 else (Nat.toDigits 10 n).length

/-- The double nearest to `± significand · 10 ^ exponent`.

A number with its leading digit above `10 ^ 309` is infinite and one below `10 ^ -325` is zero
whatever the other digits are, so no power of ten beyond those is ever formed. -/
def ofDecimal (negative : Bool) (significand : Nat) (exponent : Int) : Double :=
  let top := digitCount significand + exponent
  if significand = 0 ∨ top < -330 then ofMagnitude negative 0
  else if 330 < top then ofMagnitude negative infinity
  else ofRatio negative (significand * Nat.pow 10 exponent.toNat) (Nat.pow 10 (-exponent).toNat)

end Double
end DocQuery
