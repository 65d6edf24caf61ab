import DocQuery.Pattern.CharSet

/-!
# The ranges of a set of characters

A set of characters as closed ranges of code points, in increasing order and with a gap between any
two: `s.ranges` covers the code point of exactly the characters that `s` contains.
-/

set_option autoImplicit false

namespace DocQuery

/-- Closed ranges of code points. -/
abbrev CharRanges := List (Nat × Nat)

namespace CharRanges

/-- The greatest code point. -/
def last : Nat := 0x10FFFF

def covers (rs : CharRanges) (n : Nat) : Bool := rs.any fun r => r.1 ≤ n && n ≤ r.2

/-- Join ranges that overlap or touch, given in the order of their beginnings. `r` comes first. -/
def joinFrom (r : Nat × Nat) : CharRanges → CharRanges
  | [] => [r]
  | s :: rs => if s.1 ≤ r.2 + 1 then joinFrom (r.1, max r.2 s.2) rs else r :: joinFrom s rs

/-- The ranges in order, joined where they overlap or touch. -/
def join (rs : CharRanges) : CharRanges :=
  match rs.mergeSort fun r s => r.1 ≤ s.1 with
  | [] => []
  | r :: rs => joinFrom r rs

/-- What lies between ranges in order, from `n` on. -/
def gapsFrom (n : Nat) : CharRanges → CharRanges
  | [] => if n ≤ last then [(n, last)] else []
  | r :: rs => if n < r.1 then (n, r.1 - 1) :: gapsFrom (r.2 + 1) rs else gapsFrom (r.2 + 1) rs

/-- All code points but those of some ranges. -/
def compl (rs : CharRanges) : CharRanges := gapsFrom 0 rs

def union (rs ss : CharRanges) : CharRanges := join (rs ++ ss)

def inter (rs ss : CharRanges) : CharRanges := compl (union (compl rs) (compl ss))

/-- Every character that folds to another one, with that one. -/
def foldPairs : List (Nat × Nat) :=
  (List.range 26).map (fun i => ('A'.toNat + i, 'a'.toNat + i)) ++
    Text.foldRuns.toList.flatMap fun run =>
      (List.range ((run.last - run.first) / run.step + 1)).map fun i =>
        (run.first + i * run.step, run.target + i * run.step)

/-- The ranges with all variants of their characters. -/
def folded (rs : CharRanges) : CharRanges :=
  let targets := foldPairs.filterMap fun p =>
    if rs.covers p.1 || rs.covers p.2 then some p.2 else none
  join (rs ++ (foldPairs.filter (targets.contains ·.2)).flatMap fun p => [(p.1, p.1), (p.2, p.2)])

/-- White space. -/
def blank : CharRanges :=
  [(9, 13), (0x20, 0x20), (0x85, 0x85), (0xA0, 0xA0), (0x1680, 0x1680), (0x2000, 0x200A),
    (0x2028, 0x2029), (0x202F, 0x202F), (0x205F, 0x205F), (0x3000, 0x3000)]

/-- The ranges without the surrogates, which are code points but no characters. -/
def scalars (rs : CharRanges) : CharRanges :=
  rs.flatMap fun r =>
    [(r.1, min r.2 0xD7FF), (max r.1 0xE000, r.2)].filter fun r => r.1 ≤ r.2

end CharRanges

namespace CharSet

/-- The code points of a set; surrogates may be among them. -/
def codePoints : CharSet → CharRanges
  | range first last => if first ≤ last then [(first, last)] else []
  | digit => ('0'.toNat, '9'.toNat) :: Text.digitRanges.toList
  | word =>
    [('0'.toNat, '9'.toNat), ('A'.toNat, 'Z'.toNat), ('_'.toNat, '_'.toNat),
      ('a'.toNat, 'z'.toNat)] ++ Text.wordRanges.toList
  | blank => CharRanges.blank
  | none => []
  | union a b => a.codePoints.union b.codePoints
  | inter a b => a.codePoints.inter b.codePoints
  | compl a => a.codePoints.compl
  | folded a => a.codePoints.folded

/-- The ranges of a set. -/
def ranges (s : CharSet) : CharRanges := s.codePoints.scalars

end CharSet
end DocQuery
