import DocQuery.Pattern.CharSet

/-!
# Regular expressions

Only whether a pattern occurs in a text is ever asked, so greed makes no difference and a pattern is
read as a step between sets of places: `ends p S` holds the places that `p` leads to from those in
`S`. Sets of places are lists in the order of the text; all of them are places of one text, so two
are the same place when their positions are the same. A place carries the character before it and
the characters after it, because anchors and word edges need both.
-/

set_option autoImplicit false

namespace DocQuery

/-- Conditions on a place, which take up no character. -/
inductive Anchor where
  | textStart
  | textEnd
  | lineStart
  | lineEnd
  | wordEdge
  | noWordEdge
  | wordStart
  | wordEnd
  | noWordBefore
  | noWordAfter
deriving DecidableEq, Inhabited

inductive Pattern where
  | char (set : CharSet)
  | anchor (a : Anchor)
  | seq (ps : List Pattern)
  | alt (ps : List Pattern)
  /-- At least `least` and at most `most` times, or any greater number of times. -/
  | repeated (p : Pattern) (least : Nat) (most : Option Nat)
  /-- A group that a program could ask for afterwards. To a match it adds nothing. -/
  | group (index : Nat) (p : Pattern)
deriving Inhabited

namespace Pattern

/-- A place in a text. -/
structure Place where
  position : Nat
  before : Option Char
  after : List Char
deriving DecidableEq, Inhabited

namespace Place

/-- Whether a word character stands before, and after. -/
def wordBefore (s : Place) : Bool := s.before.any Text.isWordChar

def wordAfter (s : Place) : Bool := s.after.head?.any Text.isWordChar

def satisfies (s : Place) : Anchor → Bool
  | .textStart => s.before.isNone
  | .textEnd => s.after.isEmpty
  | .lineStart => s.before.isNone || s.before == some '\n'
  | .lineEnd => s.after.isEmpty || s.after.head? == some '\n'
  | .wordEdge => s.wordBefore != s.wordAfter
  | .noWordEdge => s.wordBefore == s.wordAfter
  | .wordStart => !s.wordBefore && s.wordAfter
  | .wordEnd => s.wordBefore && !s.wordAfter
  | .noWordBefore => !s.wordBefore
  | .noWordAfter => !s.wordAfter

/-- The place behind the next character, if that is one of a set. -/
def next? (s : Place) (set : CharSet) : Option Place :=
  match s.after with
  | [] => none
  | c :: cs => if set.contains c then some ⟨s.position + 1, some c, cs⟩ else none

end Place

/-- All places of a text from one of them on. -/
def placesFrom : Nat → Option Char → List Char → List Place
  | n, before, [] => [⟨n, before, []⟩]
  | n, before, c :: cs => ⟨n, before, c :: cs⟩ :: placesFrom (n + 1) (some c) cs

/-- All places of a text. -/
def places (text : List Char) : List Place := placesFrom 0 none text

/-! ## Sets of places -/

/-- The places of either set. -/
def merge : List Place → List Place → List Place
  | [], T => T
  | s :: S, T =>
    T.takeWhile (·.position < s.position) ++ s :: merge S (T.dropWhile (·.position ≤ s.position))

/-- The places of the first set that are not in the second. -/
def without : List Place → List Place → List Place
  | [], _ => []
  | s :: S, T =>
    match T.dropWhile (·.position < s.position) with
    | [] => s :: S
    | t :: T => if t.position = s.position then without S T else s :: without S (t :: T)

/-- The places after exactly so many steps. A step that changes nothing ends the count early. -/
def exactly (step : List Place → List Place) : Nat → List Place → List Place
  | 0, S => S
  | n + 1, S =>
    let T := step S
    if T.map (·.position) == S.map (·.position) then S else exactly step n T

/-- The places seen, and those at most so many steps from the newest of them. A round that finds
nothing new is the last. -/
def closure (step : List Place → List Place) : Nat → List Place → List Place → List Place
  | 0, seen, _ => seen
  | rounds + 1, seen, newest =>
    let fresh := without (step newest) seen
    if fresh.isEmpty then seen else closure step rounds (merge seen fresh) fresh

/-- A number of rounds that no closure exceeds: each finds a new place, and none lies before the
first of the set. -/
def enoughRounds : List Place → Nat
  | [] => 0
  | s :: _ => s.after.length + 1

/-! ## Matching -/

mutual

/-- The places a pattern leads to from those of a set. -/
def ends : Pattern → List Place → List Place
  | char set, S => S.filterMap (·.next? set)
  | anchor a, S => S.filter (·.satisfies a)
  | seq ps, S => endsSeq ps S
  | alt ps, S => endsAlt ps S
  | repeated p least most, S =>
    let T := exactly (fun S => ends p S) least S
    let rounds := match most with
      | none => enoughRounds T
      | some n => n - least
    closure (fun S => ends p S) rounds T T
  | group _ p, S => ends p S
termination_by structural p => p

/-- The places a sequence leads to. -/
def endsSeq : List Pattern → List Place → List Place
  | [], S => S
  | p :: ps, S => endsSeq ps (ends p S)
termination_by structural ps => ps

/-- The places that one of some alternatives leads to. -/
def endsAlt : List Pattern → List Place → List Place
  | [], _ => []
  | p :: ps, S => merge (ends p S) (endsAlt ps S)
termination_by structural ps => ps

end

/-- Whether a pattern occurs in a text. -/
def occursIn (p : Pattern) (text : String) : Bool := !(p.ends (places text.toList)).isEmpty

/-- The pattern that takes up nothing. -/
def empty : Pattern := seq []

end Pattern
end DocQuery
