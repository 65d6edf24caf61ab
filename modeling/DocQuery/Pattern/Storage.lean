import Std.Data.HashMap
import DocQuery.Pattern.Normal
import DocQuery.Pattern.Reader

/-!
# The storage of a pattern

A pattern is accepted when the two automata that search for it, one forward and one backward over
the bytes of a text, take no more than ten mebibytes each. They are not built here: this module
counts the states they would have and the bytes those refer to.

A state takes 32 bytes, each range of bytes that leads on from a state with several 8 more, and each
way on from a fork 4 more. A repetition with counts is as many copies. Equal states of one class are
shared as far as a table of limited size remembers them: an entry gives way to a later one with the
same hash.
-/

set_option autoImplicit false

namespace DocQuery
namespace Pattern

/-- The states of an automaton in the making, numbered from 0, and the bytes they refer to. -/
structure Tally where
  states : Nat
  heap : Nat
deriving DecidableEq, Inhabited

namespace Tally

def bytes (t : Tally) : Nat := 32 * t.states + t.heap

/-- The most bytes of an automaton. -/
def limit : Nat := 10485760

def exceeds (t : Tally) : Bool := limit < t.bytes

/-- More states, with the bytes they refer to. -/
def add (t : Tally) (states heap : Nat) : Tally := ⟨t.states + states, t.heap + heap⟩

/-- So many copies; past the limit none is added. -/
def copies (grow : Tally → Tally) : Nat → Tally → Tally
  | 0, t => t
  | n + 1, t => if t.exceeds then t else copies grow n (grow t)

/-! ## Classes -/

/-- A hash of numbers. -/
def hash (ns : List Nat) : UInt64 :=
  ns.foldl (fun h n => (h ^^^ n.toUInt64) * 1099511628211) 14695981039346656037

/-- The states of one class so far, by the hashes of what they are. -/
abbrev Shared := Std.HashMap Nat (List Nat × Nat)

/-- The number of the state that is `key`: one that a table with so many slots remembers, or a new
one that refers to so many bytes. -/
def share (slots heap : Nat) (key : List Nat) (t : Tally) (shared : Shared) :
    Nat × Tally × Shared :=
  let slot := (hash key).toNat % slots
  let fresh := (t.states, t.add 1 heap, shared.insert slot (key, t.states))
  match shared.get? slot with
  | some (known, id) => if known = key then (id, t, shared) else fresh
  | none => fresh

/-- The state that reads one of some sequences of byte ranges, in order and none longer than
`depth`, and then goes on to `target`. Sequences that begin alike share what they begin with. -/
def readAny : Nat → Nat → List (List ByteRange) → Tally → Shared → Nat × Tally × Shared
  | 0, target, _, t, shared => (target, t, shared)
  | depth + 1, target, sequences, t, shared =>
    let groups := sequences.splitBy fun p q => p.head? == q.head?
    let (key, t, shared) := groups.foldl (fun (key, t, shared) g =>
      match g with
      | (r :: rest) :: _ =>
        let (next, t, shared) :=
          if rest.isEmpty then (target, t, shared)
          else readAny depth target (g.map (·.drop 1)) t shared
        (key ++ [r.first, r.last, next], t, shared)
      | _ => (key, t, shared)) ([], t, shared)
    share 10000 (8 * groups.length) key t shared

/-- A class read forward. -/
def forwardClass (sequences : List (List ByteRange)) (t : Tally) : Tally :=
  (readAny 4 t.states sequences (t.add 1 0) ∅).2.1

/-- A class read backward: a fork to the last byte of every sequence. -/
def backwardClass (sequences : List (List ByteRange)) (t : Tally) : Tally :=
  let target := t.states + 1
  (sequences.foldl (fun (t, shared) sequence =>
    let (_, t, shared) := sequence.foldl (fun (next, t, shared) r =>
      share 1000 0 [next, r.first, r.last] t shared) (target, t, shared)
    (t.add 0 4, shared)) (t.add 2 0, (∅ : Shared))).1

/-- A class of ASCII characters is a single state and the one behind it. -/
def asciiClass (rs : CharRanges) (t : Tally) : Tally := t.add 2 (8 * rs.length)

/-! ## Choices of strings -/

/-- The strings between empty ones. -/
def splitAtEmpty : List (List Nat) → List (List (List Nat))
  | [] => [[]]
  | [] :: rest => [] :: splitAtEmpty rest
  | s :: rest =>
    match splitAtEmpty rest with
    | [] => [[s]]
    | chunk :: chunks => (s :: chunk) :: chunks

/-- What is left of the strings of a choice, in chunks: an empty string ends one of them there.
Empty strings that come first count once. -/
def chunks (strings : List (List Nat)) : List (List (List Nat)) :=
  match strings with
  | [] :: rest => [] :: splitAtEmpty (rest.dropWhile (·.isEmpty))
  | strings => splitAtEmpty strings

/-- The different first elements of strings, in the order in which they come. -/
def firsts (strings : List (List Nat)) : List Nat :=
  (strings.filterMap (·.head?)).eraseDups

/-- A fork over strings that begin alike, none longer than `depth`. -/
def forkOver : Nat → List (List Nat) → Tally → Tally
  | 0, _, t => t
  | depth + 1, strings, t =>
    let chunks := chunks strings
    let t := chunks.foldl (fun t chunk =>
      let firsts := firsts chunk
      let t := firsts.foldl (fun t b =>
        let tails := (chunk.filter (·.head? == some b)).map (·.drop 1)
        if tails.all (·.isEmpty) then t else forkOver depth tails t) t
      match firsts.length with
      | 0 => t
      | 1 => t.add 1 4
      | n => t.add 1 (8 * n + 4)) t
    t.add 1 (4 * (chunks.length - 1))

end Tally

namespace Normal

/-- The bytes of a string. -/
def string? : Normal → Option (List Nat)
  | bytes bs => some bs
  | _ => none

/-- Whether a repetition may take up nothing. -/
def mayBeEmpty (p : Normal) : Bool := !(leastLength p).any (0 < ·)

mutual

/-- Add the states of a pattern. -/
def grow (backward : Bool) : Normal → Tally → Tally
  | empty, t => t.add 1 0
  | bytes bs, t => t.add bs.length 0
  | chars rs forms, t =>
    if rs.all (·.2 < 0x80) then Tally.asciiClass rs t
    else if backward then Tally.backwardClass forms t
    else Tally.forwardClass forms t
  | anchor _, t => t.add 1 0
  | seq ps, t => if backward then growBack ps t else growAll ps t
  | alt ps, t =>
    match ps.mapM string? with
    | some strings =>
      let strings := if backward then strings.map List.reverse else strings
      let depth := strings.foldl (fun n s => max n s.length) 0
      Tally.forkOver (depth + 1) strings (t.add 1 0)
    | none => growAny backward 0 ps t
  | repeated p least most, t =>
    let copy := fun t => grow backward p t
    match least, most with
    | 0, some 1 => (copy (t.add 1 8)).add 1 0
    | 0, none => if mayBeEmpty p then (copy t).add 3 16 else copy (t.add 1 8)
    | n, none => (Tally.copies copy n t).add 1 8
    | m, some n =>
      if m = n then Tally.copies copy n t
      else
        let t := if m = 0 then t.add 1 0 else Tally.copies copy m t
        Tally.copies (fun t => copy (t.add 1 8)) (n - m) (t.add 1 0)
  | group _ p, t =>
    if backward then grow backward p t else (grow backward p (t.add 1 0)).add 1 0
termination_by structural p => p

/-- Add the parts of a sequence from the first to the last. -/
def growAll : List Normal → Tally → Tally
  | [], t => t
  | p :: ps, t => growAll ps (grow false p t)
termination_by structural ps => ps

/-- Add the parts of a sequence from the last to the first. -/
def growBack : List Normal → Tally → Tally
  | [], t => t
  | p :: ps, t => grow true p (growBack ps t)
termination_by structural ps => ps

/-- Add alternatives. The fork to them and the state behind them follow on the second. -/
def growAny (backward : Bool) : Nat → List Normal → Tally → Tally
  | _, [], t => t
  | i, p :: ps, t =>
    growAny backward (i + 1) ps ((grow backward p t).add (if i = 1 then 2 else 0) 4)
termination_by structural _ ps => ps

end

/-- What goes in front of an automaton: a loop over all bytes, or nothing if a match can only be at
the edge of the text. -/
def lead (atEdge : Bool) : Tally := if atEdge then ⟨1, 0⟩ else ⟨3, 16⟩

/-- The automaton that reads forward. Around the pattern stand the two marks of the whole match. -/
def forward (p : Normal) : Tally :=
  (grow false p ((lead (beginsWith .textStart p)).add 1 0)).add 2 0

/-- The automaton that reads backward. -/
def backward (p : Normal) : Tally := (grow true p (lead (endsWith .textEnd p))).add 1 0

end Normal

/-- Whether the automata of a pattern keep to the limit. -/
def fits (p : Pattern) : Bool :=
  let n := Normal.ofPattern p
  !n.forward.exceeds && !n.backward.exceeds

/-- The pattern a text describes, if it describes one that is not too large. -/
def compile? (text : String) (ignoreCase : Bool) : Option Pattern :=
  (parse? text ignoreCase).filter fits

end Pattern
end DocQuery
