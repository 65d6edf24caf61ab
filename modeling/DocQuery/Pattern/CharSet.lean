import DocQuery.Text.Blank
import DocQuery.Text.Case
import DocQuery.Text.WordTables

/-!
# Sets of characters

What a single character of a pattern may be. `folded` closes a set under letter case: a character is
in it when one of its variants is in the set. A negated class is folded before it is negated, so
that it leaves out all variants.
-/

set_option autoImplicit false

namespace DocQuery

/-- Whether a character is a decimal digit, in any script. -/
def Text.isDecimalDigit (c : Char) : Bool :=
  if c.toNat < 0x80 then '0'.toNat ≤ c.toNat && c.toNat ≤ '9'.toNat
  else Text.inRanges Text.digitRanges c.toNat

/-- Whether a character belongs to words. -/
def Text.isWordChar (c : Char) : Bool :=
  if c.toNat < 0x80 then
    Text.isAsciiUpper c || Text.isAsciiLower c || Text.isDecimalDigit c || c == '_'
  else Text.inRanges Text.wordRanges c.toNat

inductive CharSet where
  /-- The characters from `first` to `last`, by code point. -/
  | range (first last : Nat)
  | digit
  | word
  | blank
  | none
  | union (a b : CharSet)
  | inter (a b : CharSet)
  | compl (a : CharSet)
  | folded (a : CharSet)
deriving Inhabited

namespace CharSet

def contains : CharSet → Char → Bool
  | range first last, c => first ≤ c.toNat && c.toNat ≤ last
  | digit, c => Text.isDecimalDigit c
  | word, c => Text.isWordChar c
  | blank, c => Text.isBlank c
  | none, _ => false
  | union a b, c => a.contains c || b.contains c
  | inter a b, c => a.contains c && b.contains c
  | compl a, c => !a.contains c
  | folded a, c => (Text.variants c).any fun d => a.contains d

def single (c : Char) : CharSet := range c.toNat c.toNat

def ofRanges (ranges : List (Nat × Nat)) : CharSet :=
  ranges.foldl (fun s r => s.union (range r.1 r.2)) none

/-- Everything but a line feed. -/
def notNewline : CharSet := compl (single '\n')

def any : CharSet := compl none

/-- The named classes of ASCII characters. -/
def named? : String → Option CharSet
  | "alnum" => some (ofRanges [(0x30, 0x39), (0x41, 0x5A), (0x61, 0x7A)])
  | "alpha" => some (ofRanges [(0x41, 0x5A), (0x61, 0x7A)])
  | "ascii" => some (range 0 0x7F)
  | "blank" => some (ofRanges [(9, 9), (0x20, 0x20)])
  | "cntrl" => some (ofRanges [(0, 0x1F), (0x7F, 0x7F)])
  | "digit" => some (range 0x30 0x39)
  | "graph" => some (range 0x21 0x7E)
  | "lower" => some (range 0x61 0x7A)
  | "print" => some (range 0x20 0x7E)
  | "punct" => some (ofRanges [(0x21, 0x2F), (0x3A, 0x40), (0x5B, 0x60), (0x7B, 0x7E)])
  | "space" => some (ofRanges [(9, 13), (0x20, 0x20)])
  | "upper" => some (range 0x41 0x5A)
  | "word" => some (ofRanges [(0x30, 0x39), (0x41, 0x5A), (0x5F, 0x5F), (0x61, 0x7A)])
  | "xdigit" => some (ofRanges [(0x30, 0x39), (0x41, 0x46), (0x61, 0x66)])
  | _ => Option.none

end CharSet
end DocQuery
