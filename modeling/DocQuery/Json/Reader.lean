import DocQuery.Json.Basic
import DocQuery.Text.Numeral

/-!
# Reading JSON text

Strict JSON: no leading zeros, no trailing commas, no text after the value, no control character in
a string, no escape for half of a surrogate pair, and no more than 127 values inside one another.
Fields are kept as written.

A number without fraction and exponent that fits is an integer; `-0` does not count as one. Any
other number becomes a double in two roundings: its leading digits, as many as fit 64 bits, are
rounded first, and the result is scaled by a rounded power of ten. A number too large for a double
is refused.

The readers take the characters left and give back what they leave. The loops over items are bounded
by the length of the text, which every item shortens.
-/

set_option autoImplicit false

namespace DocQuery
namespace Json
namespace Reader

/-- Blanks between tokens. -/
def isSpace (c : Char) : Bool := c == ' ' || c == '\n' || c == '\r' || c == '\t'

def skipSpace (cs : List Char) : List Char := cs.dropWhile isSpace

/-! ## Numbers -/

/-- Leading digits of a number, as many as fit 64 bits, and the power of ten they stand for. -/
structure Leading where
  significand : Nat
  exponent : Int

def maxSignificand : Nat := 0xFFFFFFFFFFFFFFFF

/-- Digits before the point. Once one does not fit, it and all after it only raise the exponent;
the flag says that this has happened. -/
def wholeDigits : Leading → Bool → List Char → Leading × Bool
  | l, full, [] => (l, full)
  | l, full, c :: cs =>
    let n := 10 * l.significand + Text.digitValue c
    if full || maxSignificand < n then wholeDigits ⟨l.significand, l.exponent + 1⟩ true cs
    else wholeDigits ⟨n, l.exponent⟩ false cs

/-- Digits after the point, until one does not fit. -/
def placeDigits : Leading → List Char → Leading
  | l, [] => l
  | l, c :: cs =>
    let n := 10 * l.significand + Text.digitValue c
    if maxSignificand < n then l else placeDigits ⟨n, l.exponent - 1⟩ cs

/-- The rounded power `10 ^ k`. -/
def powerOfTen (k : Nat) : Double := Double.ofDecimal false 1 k

/-- Scale by `10 ^ exponent`. Powers beyond `10 ^ 308` are divided out by `10 ^ 308` at a time, and
nothing is left after a few of those. -/
def scale : Nat → Double → Int → Option Double
  | 0, d, _ => some (Double.ofMagnitude d.negative 0)
  | fuel + 1, d, exponent =>
    if exponent.natAbs ≤ 308 then
      if 0 ≤ exponent then
        let scaled := d.scaleUp (powerOfTen exponent.toNat)
        if scaled.isFinite then some scaled else none
      else some (d.divideBy (powerOfTen exponent.natAbs))
    else if d.isZero then some d
    else if 0 ≤ exponent then none
    else scale fuel (d.divideBy (powerOfTen 308)) (exponent + 308)

def toDouble (negative : Bool) (l : Leading) (exponent : Int) : Option Double :=
  scale 4 (Double.ofRatio negative l.significand 1) exponent

/-- The exponent of ten, by its sign and digits. One beyond 32 bits makes the number zero or too
large. -/
def withExponent (negative : Bool) (l : Leading) (minus : Bool) (digits : List Char) :
    Option Double :=
  let n := Text.digitsValue digits
  if 0x80000000 ≤ n then
    if l.significand = 0 || minus then some (Double.ofMagnitude negative 0) else none
  else toDouble negative l (if minus then l.exponent - n else l.exponent + n)

/-- A number after its sign. -/
def number (negative : Bool) (cs : List Char) : Option (Json × List Char) := do
  let digits := cs.takeWhile Text.isDigit
  let rest := cs.dropWhile Text.isDigit
  guard (!digits.isEmpty)
  guard (digits.length == 1 || digits.head? != some '0')
  let (l, full) := wholeDigits ⟨0, 0⟩ false digits
  let (l, isInt, rest) ← match rest with
    | '.' :: cs =>
      let places := cs.takeWhile Text.isDigit
      if places.isEmpty then none
      else some (placeDigits l places, false, cs.dropWhile Text.isDigit)
    | cs => some (l, !full, cs)
  match rest with
  | c :: cs =>
    if c = 'e' ∨ c = 'E' then
      let (minus, cs) := Text.splitSign cs
      let power := cs.takeWhile Text.isDigit
      guard (!power.isEmpty)
      let d ← withExponent negative l minus power
      return (float d, cs.dropWhile Text.isDigit)
  | [] => pure ()
  if isInt then
    let n : Int := l.significand
    if !negative then return (int n, rest)
    if n ≠ 0 ∧ fitsInt64 (-n) then return (int (-n), rest)
    return (float (Double.ofRatio true l.significand 1), rest)
  let d ← toDouble negative l l.exponent
  return (float d, rest)

/-! ## Strings -/

/-- Four hexadecimal digits. -/
def hex4 : List Char → Option (Nat × List Char)
  | a :: b :: c :: d :: cs => do
    let a ← Text.hexValue? a
    let b ← Text.hexValue? b
    let c ← Text.hexValue? c
    let d ← Text.hexValue? d
    return (((a * 16 + b) * 16 + c) * 16 + d, cs)
  | _ => none

/-- What follows `\u`: one code point, written as a surrogate pair when it is above U+FFFF. -/
def unicodeEscape (cs : List Char) : Option (Char × List Char) := do
  let (n, cs) ← hex4 cs
  if 0xDC00 ≤ n ∧ n ≤ 0xDFFF then none
  else if 0xD800 ≤ n ∧ n ≤ 0xDBFF then
    match cs with
    | '\\' :: 'u' :: cs =>
      let (m, cs) ← hex4 cs
      guard (decide (0xDC00 ≤ m ∧ m ≤ 0xDFFF))
      return (Char.ofNat (0x10000 + (n - 0xD800) * 0x400 + (m - 0xDC00)), cs)
    | _ => none
  else return (Char.ofNat n, cs)

/-- What follows a backslash. -/
def escape : List Char → Option (Char × List Char)
  | '"' :: cs => some ('"', cs)
  | '\\' :: cs => some ('\\', cs)
  | '/' :: cs => some ('/', cs)
  | 'b' :: cs => some (Char.ofNat 8, cs)
  | 'f' :: cs => some (Char.ofNat 12, cs)
  | 'n' :: cs => some ('\n', cs)
  | 'r' :: cs => some ('\r', cs)
  | 't' :: cs => some ('\t', cs)
  | 'u' :: cs => unicodeEscape cs
  | _ => none

/-- The characters of a string up to its closing quote, collected in reverse. -/
def stringTail : Nat → List Char → List Char → Option (String × List Char)
  | 0, _, _ => none
  | _ + 1, _, [] => none
  | fuel + 1, seen, c :: cs =>
    if c = '"' then some (String.ofList seen.reverse, cs)
    else if c = '\\' then do
      let (c, cs) ← escape cs
      stringTail fuel (c :: seen) cs
    else if c.toNat < 0x20 then none
    else stringTail fuel (c :: seen) cs

/-- A string after its opening quote. -/
def string (cs : List Char) : Option (String × List Char) := stringTail (cs.length + 1) [] cs

/-! ## Arrays and objects -/

/-- Take a mark off, blanks before it skipped. -/
def expect (mark : Char) (cs : List Char) : Option (List Char) :=
  match skipSpace cs with
  | c :: cs => if c = mark then some cs else none
  | [] => none

section Items

variable {α : Type} (item : List Char → Option (α × List Char)) (closing : Char)

/-- Items with commas between them, up to the closing mark. -/
def moreItems : Nat → List α → List Char → Option (List α × List Char)
  | 0, _, _ => none
  | fuel + 1, seen, cs => do
    let (a, cs) ← item cs
    match skipSpace cs with
    | [] => none
    | c :: cs =>
      if c = ',' then moreItems fuel (a :: seen) cs
      else if c = closing then return ((a :: seen).reverse, cs)
      else none

/-- What follows an opening mark: nothing, or items. -/
def items (cs : List Char) : Option (List α × List Char) :=
  match expect closing cs with
  | some cs => some ([], cs)
  | none => moreItems item closing cs.length [] cs

end Items

/-- A field: its name, a colon and its value. -/
def field (value : List Char → Option (Json × List Char)) (cs : List Char) :
    Option ((String × Json) × List Char) := do
  let (name, cs) ← string (← expect '"' cs)
  let (j, cs) ← value (← expect ':' cs)
  return ((name, j), cs)

/-- A literal word. -/
def word (w : String) (j : Json) (cs : List Char) : Option (Json × List Char) :=
  if w.toList.isPrefixOf cs then some (j, cs.drop w.length) else none

/-- A value with at most `depth` arrays and objects inside one another. -/
def value : Nat → List Char → Option (Json × List Char)
  | depth, cs =>
    match skipSpace cs with
    | [] => none
    | '"' :: cs => (string cs).map fun (s, cs) => (str s, cs)
    | '-' :: cs => number true cs
    | 'n' :: cs => word "ull" null cs
    | 't' :: cs => word "rue" (bool true) cs
    | 'f' :: cs => word "alse" (bool false) cs
    | '[' :: cs =>
      match depth with
      | 0 => none
      | depth + 1 => (items (value depth) ']' cs).map fun (js, cs) => (arr js, cs)
    | c :: cs =>
      if c = Char.ofNat 0x7B then
        match depth with
        | 0 => none
        | depth + 1 =>
          (items (field (value depth)) (Char.ofNat 0x7D) cs).map fun (fs, cs) => (obj fs, cs)
      else number false (c :: cs)

end Reader

/-- Arrays and objects stand at most this many inside one another. -/
def maxDepth : Nat := 127

/-- The JSON value a text holds, its fields as written. -/
def parse? (text : String) : Option Json := do
  let (j, rest) ← Reader.value maxDepth text.toList
  guard (Reader.skipSpace rest).isEmpty
  return j

end Json
end DocQuery
