/-!
# Ranges of characters

The shape of every table of characters here: closed ranges of code points in increasing order, and
runs of a mapping that moves each character of a range by the same distance.
-/

set_option autoImplicit false

namespace DocQuery.Text

/-- Whether a code point lies in one of the ranges. -/
def inRanges (ranges : Array (Nat × Nat)) (n : Nat) : Bool :=
  ranges.any fun (first, last) => first ≤ n && n ≤ last

/-- Every `step`-th character from `first` to `last`, mapped to the one as far above `target` as it
is above `first`. -/
structure Run where
  first : Nat
  last : Nat
  step : Nat
  target : Nat

namespace Run

def covers (r : Run) (n : Nat) : Bool :=
  r.first ≤ n && n ≤ r.last && (n - r.first) % r.step == 0

def image (r : Run) (n : Nat) : Nat := r.target + (n - r.first)

/-- The character a run maps to `n`, if it has one. -/
def source? (r : Run) (n : Nat) : Option Nat :=
  if r.target ≤ n && r.covers (r.first + (n - r.target)) then some (r.first + (n - r.target))
  else none

end Run

/-- The image of a code point under the first run that covers it, or itself. -/
def mapRuns (runs : Array Run) (n : Nat) : Nat :=
  match runs.find? (·.covers n) with
  | some r => r.image n
  | none => n

end DocQuery.Text
