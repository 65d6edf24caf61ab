import DocQuery.Text.Numeral

/-!
# Windows of a collection

A window is `[start, stop)`, an index a single position; bounds below zero count from the end. A
collection may have been cut already: its first item then has logical position `offset`, and a
window of the whole collection is found in it by moving the bounds that count from the front.

A cut collection keeps no record of what followed it, so bounds that count from the end count from
the end of what is there.
-/

set_option autoImplicit false

namespace DocQuery
namespace Window

/-- A bound as a position among `len` items. -/
def clamp (len : Nat) (bound : Int) : Nat :=
  if bound < 0 then (len + bound).toNat else min bound.toNat len

/-- The range of positions of `[start, stop)` among `len` items. -/
def slice (len : Nat) (start stop : Int) : Nat × Nat :=
  let low := clamp len start
  (low, max low (clamp len stop))

/-- The position of an index among `len` items. -/
def element? (len : Nat) (index : Int) : Option Nat :=
  let index := if index < 0 then len + index else index
  if 0 ≤ index ∧ index < len then some index.toNat else none

/-- An offset as a signed number of 64 bits; those above the largest one wrap around. -/
def signed (offset : Nat) : Int :=
  if (offset : Int) ≤ maxInt64 then offset else (offset : Int) - 18446744073709551616

/-- A bound relative to a collection that starts at `offset`. -/
def shift (offset : Nat) (bound : Int) : Int :=
  if bound < 0 then bound else max 0 (bound - signed offset)

/-- The range of positions of the logical window `[start, stop)` among `len` items that start at
`offset`, and the position within the window of the first of them. -/
def bounds (len offset : Nat) (start stop : Int) : Nat × Nat × Nat :=
  let (low, high) := slice len (shift offset start) (shift offset stop)
  let remaining := if start < 0 then 0 else (signed offset - start).toNat
  (low, high, remaining)

/-- The position of a logical index among `len` items that start at `offset`. -/
def index? (len offset : Nat) (index : Int) : Option Nat :=
  if 0 ≤ index ∧ index < signed offset then none
  else element? len (if index < 0 then index else index - signed offset)

/-- The items at the positions `[low, high)`. -/
def cut {α : Type} (items : List α) (low high : Nat) : List α := (items.drop low).take (high - low)

end Window
end DocQuery
