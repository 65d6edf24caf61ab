import DocQuery.Text.CaseTables

/-!
# Lower case and case folding

Full lower-casing of a text: each character by its mapping, U+0130 as two characters, and a capital
sigma as the final one at the end of a word. Folding, which only patterns use, is character by
character.
-/

set_option autoImplicit false

namespace DocQuery.Text

def isAsciiUpper (c : Char) : Bool := 'A'.toNat ≤ c.toNat && c.toNat ≤ 'Z'.toNat

def isAsciiLower (c : Char) : Bool := 'a'.toNat ≤ c.toNat && c.toNat ≤ 'z'.toNat

/-- The property Cased. -/
def isCased (c : Char) : Bool :=
  if c.toNat < 0x80 then isAsciiUpper c || isAsciiLower c else inRanges casedRanges c.toNat

/-- The property Case_Ignorable; below U+0080 these are the apostrophe, the full stop, the colon,
the circumflex and the grave accent. -/
def isCaseIgnorable (c : Char) : Bool :=
  if c.toNat < 0x80 then [0x27, 0x2E, 0x3A, 0x5E, 0x60].contains c.toNat
  else inRanges ignorableRanges c.toNat

/-- The lower case of one character outside any context. -/
def lowerChar (c : Char) : List Char :=
  if c.toNat < 0x80 then [if isAsciiUpper c then Char.ofNat (c.toNat + 32) else c]
  else if c.toNat = 0x130 then ['i', Char.ofNat 0x307]
  else [Char.ofNat (mapRuns lowerRuns c.toNat)]

/-- Whether a cased character comes next, case-ignorable ones skipped. -/
def casedNext (cs : List Char) : Bool :=
  match cs.dropWhile isCaseIgnorable with
  | [] => false
  | c :: _ => isCased c

/-- Lower case of a text; `before` holds the characters already passed, the nearest first. -/
def lowerFrom : List Char → List Char → List Char
  | _, [] => []
  | before, c :: cs =>
    let image :=
      if c.toNat = 0x3A3 then [if casedNext before && !casedNext cs then 'ς' else 'σ']
      else lowerChar c
    image ++ lowerFrom (c :: before) cs

/-- The lower case of a text. -/
def lower (cs : List Char) : List Char := lowerFrom [] cs

/-- The simple case folding of a character. -/
def fold (c : Char) : Char :=
  if c.toNat < 0x80 then if isAsciiUpper c then Char.ofNat (c.toNat + 32) else c
  else Char.ofNat (mapRuns foldRuns c.toNat)

/-- All characters that fold like `c`. -/
def variants (c : Char) : List Char :=
  let f := fold c
  let upper := if isAsciiLower f then [Char.ofNat (f.toNat - 32)] else []
  f :: upper ++ (foldRuns.toList.filterMap (·.source? f.toNat)).map Char.ofNat

end DocQuery.Text
