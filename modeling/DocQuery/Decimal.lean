import DocQuery.Double.Rounding

/-!
# Decimals of 96 bits

Before an integer is compared with a double, both become decimals: a 96-bit coefficient with up to
28 decimal places. An integer converts exactly. A double keeps about 53 bits of its value and loses
what lies below the 28th place, so `1` equals `1.0000000000000002` and `0` equals `1e-30`; a double
too large for the coefficient has no decimal at all.

The conversion starts from `m · 2 ^ e = m · 10 ^ e / 5 ^ e` and works the factors of five into the
coefficient one at a time, dropping a bit or a digit where it would no longer fit.
-/

set_option autoImplicit false

namespace DocQuery

/-- The number `coefficient / 10 ^ places`. -/
structure Decimal where
  coefficient : Int
  places : Nat
deriving DecidableEq, Inhabited

namespace Decimal

def ofInt (n : Int) : Decimal := ⟨n, 0⟩

/-- The order of the numbers themselves. -/
def cmp (a b : Decimal) : Ordering :=
  compare (a.coefficient * Nat.pow 10 b.places) (b.coefficient * Nat.pow 10 a.places)

/-- A coefficient on its way to a decimal: `coefficient · 10 ^ exponent`. -/
structure Scaled where
  coefficient : Nat
  exponent : Int

/-- Coefficients have 96 bits. -/
def capacity : Nat := Nat.pow 2 96

/-- Multiply by `5 ^ n`, one factor at a time. For an even coefficient, and for one without room,
`5 · m = m / 2 · 10`. -/
def mulFive : Nat → Scaled → Scaled
  | 0, s => s
  | n + 1, ⟨m, e⟩ =>
    if m % 2 = 0 then mulFive n ⟨m / 2, e + 1⟩
    else if m * 5 < capacity then mulFive n ⟨m * 5, e⟩
    else mulFive n ⟨m / 2, e + 1⟩

/-- Divide by `5 ^ n`, one factor at a time: `m / 5 = 2 · m / 10` while there is room for it. With
too large an exponent left the number is given up. -/
def divFive : Nat → Scaled → Option Scaled
  | 0, s => some s
  | n + 1, ⟨m, e⟩ =>
    if 2 * m < capacity then divFive n ⟨m * 2, e - 1⟩
    else if (n + 1 : Int) < 2 * e then none
    else divFive n ⟨m / 5, e⟩

/-- Multiply by `10 ^ n`, unless the coefficient gets too large. -/
def raise : Nat → Nat → Option Nat
  | 0, m => some m
  | n + 1, m => if m * 10 < capacity then raise n (m * 10) else none

/-- Divide by ten, rounding a half up. -/
def shed (m : Nat) : Nat := if 5 ≤ m % 10 then m / 10 + 1 else m / 10

/-- Shed `n` digits; a coefficient that vanishes on the way is zero. -/
def trim : Nat → Scaled → Scaled
  | 0, s => s
  | n + 1, ⟨m, e⟩ => if m / 10 = 0 then ⟨0, 0⟩ else trim n ⟨shed m, e + 1⟩

/-- Shed decimal places, at most `n`, while the coefficient has more than 52 bits. -/
def shorten : Nat → Nat → Scaled
  | 0, m => ⟨m, 0⟩
  | n + 1, m => if Nat.pow 2 52 ≤ m then shorten n (shed m) else ⟨m, -(n + 1 : Int)⟩

/-- The decimal of the positive number `m · 2 ^ e`. -/
def ofScaled? (m : Nat) (e : Int) : Option Scaled := do
  let s ← if 0 ≤ e then divFive e.toNat ⟨m, e⟩ else some (mulFive (-e).toNat ⟨m, e⟩)
  if 0 < s.exponent then
    return ⟨← raise s.exponent.toNat s.coefficient, 0⟩
  let s := trim (-28 - s.exponent).toNat s
  return shorten (-s.exponent).toNat s.coefficient

/-- The decimal of a double, if it has one. -/
def ofDouble? (d : Double) : Option Decimal :=
  if d.isFinite then
    (ofScaled? d.significand d.exponent).map fun s =>
      ⟨if d.negative then -(s.coefficient : Int) else s.coefficient, (-s.exponent).toNat⟩
  else none

end Decimal
end DocQuery
