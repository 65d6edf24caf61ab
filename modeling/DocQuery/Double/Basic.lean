/-!
# Binary64 numbers by their bits

A `Double` is an IEEE 754 binary64 value, kept as its 64 bits. Nothing here computes in floating
point: the engine only compares doubles, tests them for zero and NaN, and converts them to and from
decimal text, and each of these is exact arithmetic on the significand and the exponent.

The one fact that makes comparison simple: with the sign bit taken off, the bits of a non-NaN double
grow with its size. So `rank` (those bits, negated for a negative number) orders doubles, and it
sends both zeros to `0`.
-/

set_option autoImplicit false

namespace DocQuery

/-- A binary64 number, given by its bits. -/
structure Double where
  bits : UInt64
deriving DecidableEq, Inhabited

namespace Double

/-- The weight of the sign bit, the highest of 64. -/
def signBit : Nat := 0x8000000000000000

/-- The weight of the lowest bit of the exponent; the 52 bits below it are the fraction. -/
def exponentBit : Nat := 0x10000000000000

/-- The bits below the sign bit. -/
def magnitude (d : Double) : Nat := d.bits.toNat % signBit

/-- Whether the sign bit is set. -/
def negative (d : Double) : Bool := decide (signBit ≤ d.bits.toNat)

/-- The magnitude of both infinities; a NaN's is larger. -/
def infinity : Nat := 0x7FF * exponentBit

def isNaN (d : Double) : Bool := decide (infinity < d.magnitude)

def isInfinite (d : Double) : Bool := decide (d.magnitude = infinity)

def isFinite (d : Double) : Bool := decide (d.magnitude < infinity)

def isZero (d : Double) : Bool := decide (d.magnitude = 0)

/-- Put a sign on a magnitude. -/
def ofMagnitude (negative : Bool) (magnitude : Nat) : Double :=
  ⟨UInt64.ofNat (if negative then signBit + magnitude else magnitude)⟩

def zero : Double := ofMagnitude false 0

def nan : Double := ofMagnitude false (infinity + exponentBit / 2)

/-- Two doubles that are no NaN stand in the order of their ranks. -/
def rank (d : Double) : Int :=
  if d.negative then -(d.magnitude : Int) else d.magnitude

/-- The order of doubles. A NaN is comparable with nothing, itself included. -/
def compare? (a b : Double) : Option Ordering :=
  if a.isNaN || b.isNaN then none else some (compare a.rank b.rank)

/-- Equality of doubles: the two zeros are equal, a NaN differs from itself. -/
def equal (a b : Double) : Bool :=
  a.compare? b == some .eq

/-! ## Significand and exponent

A finite double is `± significand · 2 ^ exponent`. -/

def significand (d : Double) : Nat :=
  if d.magnitude < exponentBit then d.magnitude else d.magnitude % exponentBit + exponentBit

def exponent (d : Double) : Int :=
  if d.magnitude < exponentBit then -1074 else (d.magnitude / exponentBit : Nat) - 1075

/-- The numerator of a finite double's size. -/
def numerator (d : Double) : Nat := d.significand * Nat.pow 2 d.exponent.toNat

/-- The denominator of a finite double's size, a power of two. -/
def denominator (d : Double) : Nat := Nat.pow 2 (-d.exponent).toNat

end Double

end DocQuery
