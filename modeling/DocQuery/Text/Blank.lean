/-!
# White space

The characters with the Unicode property White_Space: ten ranges, among them U+0085, U+00A0 and
U+3000, and not U+200B or U+FEFF. Words of a text and trimmed terms go by it. JSON text has four
blanks of its own (`Json.Reader`).
-/

set_option autoImplicit false

namespace DocQuery.Text

/-- The property White_Space. -/
def isBlank (c : Char) : Bool :=
  let n := c.toNat
  (9 ≤ n && n ≤ 13) || n == 0x20 || n == 0x85 || n == 0xA0 || n == 0x1680 ||
    (0x2000 ≤ n && n ≤ 0x200A) || n == 0x2028 || n == 0x2029 || n == 0x202F || n == 0x205F ||
    n == 0x3000

/-- Drop the blanks at both ends. -/
def trim (cs : List Char) : List Char :=
  ((cs.dropWhile isBlank).reverse.dropWhile isBlank).reverse

/-- Add a character in front of the first word, or start one. -/
def extend (c : Char) : List (List Char) → List (List Char)
  | [] => [[c]]
  | w :: ws => (c :: w) :: ws

/-- The maximal runs of characters that are no blanks, in order. `inWord` says whether the text
continues a run, so that its first characters belong to the first word of the answer. -/
def wordsFrom : Bool → List Char → List (List Char)
  | inWord, [] => if inWord then [[]] else []
  | inWord, c :: cs =>
    if isBlank c then
      if inWord then [] :: wordsFrom false cs else wordsFrom false cs
    else extend c (wordsFrom true cs)

/-- The words of a text: its maximal runs of characters that are no blanks. -/
def words (cs : List Char) : List (List Char) := wordsFrom false cs

/-- The pieces between the dots, one more than there are dots. -/
def splitDots : List Char → List (List Char)
  | [] => [[]]
  | c :: cs =>
    if c = '.' then [] :: splitDots cs
    else match splitDots cs with
      | [] => [[c]]
      | p :: ps => (c :: p) :: ps

end DocQuery.Text
