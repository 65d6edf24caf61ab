import DocQuery.Pattern.CharRanges

/-!
# Ranges of characters as ranges of bytes

The UTF-8 forms of the characters in a range, as few sequences of byte ranges: each sequence stands
for all byte strings that take every byte from the range at its place. A range of characters is cut
where its forms would change their length and where a byte before the last would not run through all
its values, until the first and the last form of each piece make up the sequence.
-/

set_option autoImplicit false

namespace DocQuery

/-- The bytes from `first` to `last`. -/
structure ByteRange where
  first : Nat
  last : Nat
deriving DecidableEq, Inhabited

namespace ByteRange

/-- The bytes of a code point. -/
def encode (n : Nat) : List Nat :=
  if n < 0x80 then [n]
  else if n < 0x800 then [0xC0 + n / 64, 0x80 + n % 64]
  else if n < 0x10000 then [0xE0 + n / 4096, 0x80 + n / 64 % 64, 0x80 + n % 64]
  else [0xF0 + n / 262144, 0x80 + n / 4096 % 64, 0x80 + n / 64 % 64, 0x80 + n % 64]

/-- Where forms change their length: the last code points of one, two and three bytes. -/
def lengthCut? (a b : Nat) : Option Nat := [0x7F, 0x7FF, 0xFFFF].find? fun m => a ≤ m && m < b

/-- The last code point of a first piece that leaves whole blocks of `size` behind it, or of the
whole blocks before a last piece. -/
def blockCut? (a b size : Nat) : Option Nat :=
  if a / size = b / size then none
  else if a % size ≠ 0 then some (a - a % size + size - 1)
  else if b % size ≠ size - 1 then some (b - b % size - 1)
  else none

/-- Where the range from `a` to `b` is cut first: its first piece ends there. -/
def cut? (a b : Nat) : Option Nat :=
  match lengthCut? a b with
  | some m => some m
  | none => if b < 0x80 then none else [64, 4096, 262144].findSome? (blockCut? a b)

/-- The sequences for the characters from `a` to `b`. -/
def sequences (a b : Nat) : List (List ByteRange) :=
  match cut? a b with
  | none => [List.zipWith ByteRange.mk (encode a) (encode b)]
  | some m => if a ≤ m ∧ m < b then sequences a m ++ sequences (m + 1) b else []
termination_by b - a

end ByteRange
end DocQuery
