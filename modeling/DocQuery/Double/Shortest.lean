import DocQuery.Double.Rounding

/-!
# The fewest digits that read back

A finite double `m · 2 ^ q` owns the interval of reals that round to it: half a step on each side
(a quarter below a power of two), the ends included when `m` is even. `shortest` gives the decimal
with the fewest digits in that interval, and of those the nearest to the double.

Only the double's two neighbours on each decimal grid need testing: if any point of a grid lies in
the interval, one of these does. Seventeen digits always suffice.
-/

set_option autoImplicit false

namespace DocQuery
namespace Double

/-- A positive decimal: `digits · 10 ^ exponent`. -/
structure Digits where
  digits : Nat
  exponent : Int
deriving DecidableEq

/-- The exponent of the leading decimal digit of `num / den`. -/
def leadingExponent (num den : Nat) : Int :=
  if den ≤ num then (digitCount (num / den) : Int) - 1
  else -(digitCount ((den + num - 1) / num - 1) : Int)

/-- Whether `n · 10 ^ k` rounds to `d`, by the interval that `d` owns. -/
def owns (d : Double) (n : Nat) (k : Int) : Bool :=
  let m := d.significand
  let q := d.exponent
  -- everything in quarters of a step, times a common denominator
  let step := Nat.pow 2 q.toNat * Nat.pow 10 (-k).toNat
  let point := 4 * n * Nat.pow 10 k.toNat * Nat.pow 2 (-q).toNat
  let below := if m = exponentBit ∧ -1074 < q then 4 * m - 1 else 4 * m - 2
  let low := below * step
  let high := (4 * m + 2) * step
  if m % 2 = 0 then decide (low ≤ point ∧ point ≤ high) else decide (low < point ∧ point < high)

/-- The point of the grid of step `10 ^ k` that rounds to `d` and is nearest to it. -/
def onGrid (d : Double) (k : Int) : Option Nat :=
  let num := d.numerator * Nat.pow 10 (-k).toNat
  let den := d.denominator * Nat.pow 10 k.toNat
  let floor := num / den
  let nearest := roundToEven num den
  let other := if nearest = floor then floor + 1 else floor
  if owns d nearest k then some nearest
  else if owns d other k then some other
  else none

/-- Take trailing zeros off, at most `fuel` of them. -/
def dropZeros : Nat → Nat → Int → Digits
  | 0, n, k => ⟨n, k⟩
  | fuel + 1, n, k => if n % 10 = 0 then dropZeros fuel (n / 10) (k + 1) else ⟨n, k⟩

/-- The first of the grids with `count`, `count + 1`, … digits that has a point rounding to `d`. -/
def shortestFrom (d : Double) (leading : Int) : Nat → Nat → Digits
  | 0, count =>
    let k := leading - count + 1
    let num := d.numerator * Nat.pow 10 (-k).toNat
    let den := d.denominator * Nat.pow 10 k.toNat
    dropZeros 18 (roundToEven num den) k
  | fuel + 1, count =>
    let k := leading - count + 1
    match onGrid d k with
    | some n => dropZeros 18 n k
    | none => shortestFrom d leading fuel (count + 1)

/-- The shortest decimal that reads back as the finite nonzero `d`, without its sign. -/
def shortest (d : Double) : Digits :=
  shortestFrom d (leadingExponent d.numerator d.denominator) 16 1

/-! ## Text -/

/-- How doubles are written: positional for leading exponents in `[low, high)`, otherwise with an
exponent. -/
structure Style where
  low : Int
  high : Int

/-- Numbers from `0.00001` up to `10 ^ 16` are positional. -/
def style : Style := ⟨-5, 16⟩

def signText (negative : Bool) : String := if negative then "-" else ""

/-- The digits with a point after the first `whole` of them, and at least one digit after it. -/
def withPoint (digits : List Char) (whole : Nat) : String :=
  let padded := digits ++ List.replicate (whole + 1 - digits.length) '0'
  String.ofList (padded.take whole ++ '.' :: padded.drop whole)

/-- A positive decimal by `style`. -/
def Digits.text (n : Digits) : String :=
  let digits := Nat.toDigits 10 n.digits
  let leading := n.exponent + digits.length - 1
  if style.low ≤ leading ∧ leading < style.high then
    if 0 ≤ leading then withPoint digits (leading.toNat + 1)
    else withPoint ('0' :: List.replicate (-leading - 1).toNat '0' ++ digits) 1
  else
    let mantissa := match digits with
      | [] => ""
      | [c] => String.singleton c
      | c :: rest => String.ofList (c :: '.' :: rest)
    let sign := if leading < 0 then "e-" else "e+"
    mantissa ++ sign ++ toString leading.natAbs

/-- The text of a finite double: the fewest digits that read back, and always a point or an
exponent, so that it never looks like an integer. -/
def text (d : Double) : String :=
  signText d.negative ++ if d.isZero then "0.0" else d.shortest.text

end Double
end DocQuery
