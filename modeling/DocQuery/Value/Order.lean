import DocQuery.Value.Compare

/-!
# Sort order

Values of different types are ordered by rank, whatever the direction: numbers, then strings, then
booleans, then everything else. Within a rank strings and booleans have their own order, numbers
that of `compareNumbers`; incomparable ones count as equal.

`sortBy` is a stable insertion sort: each item in turn moves in front of those already placed that
it is strictly less than, looking from the last one. Where the order is a preorder this is the only
stable answer; where it is not (integers and doubles mixed within the precision of a decimal), the
scan from the end decides.
-/

set_option autoImplicit false

namespace DocQuery

inductive Direction where
  | asc
  | desc
deriving DecidableEq, Inhabited

namespace Direction

/-- Turn an order around when descending. -/
def apply : Direction → Ordering → Ordering
  | asc, o => o
  | desc, o => o.swap

end Direction

namespace Value

/-- The rank of a value's type. -/
def rank : Value → Nat
  | int _ | float _ => 1
  | string _ => 2
  | bool _ => 3
  | _ => 4

/-- The order of two values of one rank. -/
def compareWithin (a b : Value) : Ordering :=
  match a, b with
  | string s, string t => compareStrings s t
  | bool x, bool y => compare x.toNat y.toNat
  | _, _ => (compareNumbers a b).getD .eq

/-- The order of two sort keys. -/
def compareForSort (a b : Value) (direction : Direction) : Ordering :=
  if a.rank = b.rank then direction.apply (compareWithin a b) else compare a.rank b.rank

/-- The order of two lists of keys: that of the first keys that differ. -/
def compareKeys : List Direction → List Value → List Value → Ordering
  | d :: ds, a :: as, b :: bs => (compareForSort a b d).then (compareKeys ds as bs)
  | _, _, _ => .eq

end Value

namespace Sorting

variable {α : Type} (less : α → α → Bool)

/-- Place an item among the placed ones, which stand in reverse. -/
def place (x : α) : List α → List α
  | [] => [x]
  | y :: ys => if less x y then y :: place x ys else x :: y :: ys

/-- Stable insertion sort. -/
def sortBy (xs : List α) : List α := (xs.foldl (fun placed x => place less x placed) []).reverse

end Sorting

/-- Sort items by their keys. -/
def sortByKeys {α : Type} (directions : List Direction) (keyed : List (List Value × α)) :
    List (List Value × α) :=
  Sorting.sortBy (fun a b => Value.compareKeys directions a.1 b.1 == .lt) keyed

end DocQuery
