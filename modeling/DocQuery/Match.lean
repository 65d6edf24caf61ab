import DocQuery.Text.Case
import DocQuery.Value.Basic

/-!
# Full text match

A text matches a list of terms when its words can be given to the terms, every term a word of its
own that it matches. Words and terms are compared in lower case; a term that ends in `*` matches
every word it begins.

The search assigns terms one after the other and lets a term take a word that another one holds if
that one can move to some other word (an augmenting path). So an early choice never spoils a later
one, and the search fails only when no assignment exists.
-/

set_option autoImplicit false

namespace DocQuery
namespace Match

/-- A search term. -/
structure Term where
  stem : List Char
  /-- Whether the stem only has to begin the word. -/
  begins : Bool
deriving DecidableEq

namespace Term

/-- Read a term: trimmed and in lower case, a final `*` taken off. -/
def ofString (s : String) : Term :=
  let cs := Text.lower (Text.trim s.toList)
  if cs.getLast? = some '*' then ⟨cs.dropLast, true⟩ else ⟨cs, false⟩

/-- Whether a lower-case word matches. -/
def accepts (t : Term) (word : List Char) : Bool :=
  if t.begins then t.stem.isPrefixOf word else word == t.stem

end Term

/-- The words of a text in lower case. -/
def wordsOf (text : String) : List (List Char) := (Text.words text.toList).map Text.lower

/-! ## Assignments

The state of a search: for each word the term that holds it, and whether this attempt has seen it.
-/

/-- Who holds each word. -/
abbrev Owners := List (Option Nat)

/-- Which words an attempt has tried. -/
abbrev Seen := List Bool

/-- A term looks for a word, trying them from the one with number `index` on. A word that another
term holds may be taken if that term finds another one. Every nested search has seen one more word,
so `fuel` above the number of words never runs out. -/
def claim (terms : List Term) (words : List (List Char)) :
    Nat → Nat → List (List Char) → Nat → Owners → Seen → Bool × Owners × Seen
  | _, _, [], _, owners, seen => (false, owners, seen)
  | 0, _, _, _, owners, seen => (false, owners, seen)
  | fuel + 1, term, word :: rest, index, owners, seen =>
    if seen.getD index true || !((terms[term]?).any (·.accepts word)) then
      claim terms words (fuel + 1) term rest (index + 1) owners seen
    else
      let seen := seen.set index true
      match owners.getD index none with
      | none => (true, owners.set index (some term), seen)
      | some other =>
        match claim terms words fuel other words 0 owners seen with
        | (true, owners, seen) => (true, owners.set index (some term), seen)
        | (false, owners, seen) => claim terms words (fuel + 1) term rest (index + 1) owners seen
termination_by fuel _ rest => (fuel, rest.length)

/-- Give every term a word, one term after the other; the answer is whether that went well. -/
def assignAll (terms : List Term) (words : List (List Char)) : List Nat → Owners → Bool
  | [], _ => true
  | term :: rest, owners =>
    match claim terms words (words.length + 1) term words 0 owners (words.map fun _ => false) with
    | (true, owners, _) => assignAll terms words rest owners
    | (false, _, _) => false

/-- Whether a text matches. Without terms every text with a word does. -/
def matchesText (text : String) (terms : List Term) : Bool :=
  let words := wordsOf text
  if terms.isEmpty then !words.isEmpty
  else if words.length < terms.length then false
  else assignAll terms words (List.range terms.length) (words.map fun _ => none)

/-! ## Values -/

/-- The terms of a list, if all are strings. -/
def termsOf? (terms : List Value) : Option (List Term) :=
  terms.mapM fun t => t.asString?.map Term.ofString

/-- The items of an array, one of which must match; an item that is no string and is met before a
match leaves the question open. -/
def matchesAny (terms : List Term) : List Value → Value
  | [] => .bool false
  | .string text :: rest => if matchesText text terms then .bool true else matchesAny terms rest
  | _ :: _ => .null

/-- The value of `candidate match terms`: null when a term or the candidate is no string. -/
def value (candidate : Value) (terms : List Value) : Value :=
  match termsOf? terms with
  | none => .null
  | some terms =>
    match candidate with
    | .string text => .bool (matchesText text terms)
    | .array items => matchesAny terms items
    | _ => .null

end Match
end DocQuery
