import DocQuery.Pattern.Basic
import DocQuery.Pattern.ByteRange

/-!
# Normal forms of patterns

What an automaton is built from. Characters one after the other are one string of bytes, sequences
and choices stand in no sequence or choice of their own kind, a choice of characters is a class of
them, and what all alternatives begin with stands before the choice.
-/

set_option autoImplicit false

namespace DocQuery
namespace Pattern

inductive Normal where
  | empty
  | bytes (bs : List Nat)
  /-- A class, as ranges of characters and as the sequences of byte ranges they come to. -/
  | chars (rs : CharRanges) (forms : List (List ByteRange))
  | anchor (a : Anchor)
  | seq (ps : List Normal)
  | alt (ps : List Normal)
  | repeated (p : Normal) (least : Nat) (most : Option Nat)
  | group (index : Nat) (p : Normal)
deriving Inhabited

namespace Normal

/-! ## Equality -/

mutual

def same : Normal → Normal → Bool
  | empty, empty => true
  | bytes a, bytes b => a == b
  | chars a _, chars b _ => a == b
  | anchor a, anchor b => a == b
  | seq a, seq b => sameAll a b
  | alt a, alt b => sameAll a b
  | repeated a m n, repeated b k l => m == k && n == l && same a b
  | group i a, group j b => i == j && same a b
  | _, _ => false
termination_by structural p => p

def sameAll : List Normal → List Normal → Bool
  | [], [] => true
  | a :: as, b :: bs => same a b && sameAll as bs
  | _, _ => false
termination_by structural ps => ps

end

/-! ## Lengths and anchors -/

/-- The sum of two lengths, where no length is none. -/
def plus : Option Nat → Option Nat → Option Nat
  | some m, some n => some (m + n)
  | _, _ => none

mutual

/-- The fewest bytes a match takes up; none if nothing matches. -/
def leastLength : Normal → Option Nat
  | empty => some 0
  | bytes bs => some bs.length
  | chars rs _ => rs.head?.map fun r => (ByteRange.encode r.1).length
  | anchor _ => some 0
  | seq ps => leastOfAll ps
  | alt ps => leastOfAny ps
  | repeated p least _ => (leastLength p).map (· * least)
  | group _ p => leastLength p
termination_by structural p => p

def leastOfAll : List Normal → Option Nat
  | [] => some 0
  | p :: ps => plus (leastLength p) (leastOfAll ps)
termination_by structural ps => ps

def leastOfAny : List Normal → Option Nat
  | [] => none
  | [p] => leastLength p
  | p :: ps => match leastLength p, leastOfAny ps with
    | some m, some n => some (min m n)
    | _, _ => none
termination_by structural ps => ps

end

mutual

/-- The most bytes a match takes up; none if there is no bound or nothing matches. -/
def greatestLength : Normal → Option Nat
  | empty => some 0
  | bytes bs => some bs.length
  | chars rs _ => rs.getLast?.map fun r => (ByteRange.encode r.2).length
  | anchor _ => some 0
  | seq ps => greatestOfAll ps
  | alt ps => greatestOfAny ps
  | repeated p _ most => match greatestLength p, most with
    | some m, some n => some (m * n)
    | _, _ => none
  | group _ p => greatestLength p
termination_by structural p => p

def greatestOfAll : List Normal → Option Nat
  | [] => some 0
  | p :: ps => plus (greatestLength p) (greatestOfAll ps)
termination_by structural ps => ps

def greatestOfAny : List Normal → Option Nat
  | [] => none
  | [p] => greatestLength p
  | p :: ps => match greatestLength p, greatestOfAny ps with
    | some m, some n => some (max m n)
    | _, _ => none
termination_by structural ps => ps

end

mutual

/-- Whether every match begins at a place with an anchor. -/
def beginsWith (a : Anchor) : Normal → Bool
  | anchor b => a == b
  | seq ps => allBeginWith a ps
  | alt ps => anyBeginsWith a ps
  | repeated p least _ => least != 0 && beginsWith a p
  | group _ p => beginsWith a p
  | _ => false
termination_by structural p => p

/-- The same of a sequence: parts that take up nothing let the next one be the first. -/
def allBeginWith (a : Anchor) : List Normal → Bool
  | [] => false
  | p :: ps => beginsWith a p || (greatestLength p == some 0 && allBeginWith a ps)
termination_by structural ps => ps

/-- The same of a choice: each alternative has to. -/
def anyBeginsWith (a : Anchor) : List Normal → Bool
  | [] => true
  | p :: ps => beginsWith a p && anyBeginsWith a ps
termination_by structural ps => ps

end

mutual

/-- Whether every match ends at a place with an anchor. -/
def endsWith (a : Anchor) : Normal → Bool
  | anchor b => a == b
  | seq ps => allEndWith a ps
  | alt ps => anyEndsWith a ps
  | repeated p least _ => least != 0 && endsWith a p
  | group _ p => endsWith a p
  | _ => false
termination_by structural p => p

/-- The same of a sequence: parts behind that take up nothing do not matter. -/
def allEndWith (a : Anchor) : List Normal → Bool
  | [] => false
  | p :: ps =>
    allEndWith a ps || (ps.all (greatestLength · == some 0) && endsWith a p)
termination_by structural ps => ps

/-- The same of a choice: each alternative has to. -/
def anyEndsWith (a : Anchor) : List Normal → Bool
  | [] => true
  | p :: ps => endsWith a p && anyEndsWith a ps
termination_by structural ps => ps

end

/-! ## Building -/

/-- A class; one character alone is a string. -/
def ofRanges (rs : CharRanges) : Normal :=
  let whole := chars rs (rs.flatMap fun r => ByteRange.sequences r.1 r.2)
  match rs with
  | [(a, b)] => if a = b then bytes (ByteRange.encode a) else whole
  | _ => whole

/-- The parts of a sequence. -/
def parts : Normal → List Normal
  | empty => []
  | seq ps => ps
  | p => [p]

/-- Parts in front of others; strings that meet are joined. -/
def prepend : List Normal → List Normal → List Normal
  | [], qs => qs
  | p :: ps, qs =>
    match p, prepend ps qs with
    | bytes a, bytes b :: rest => bytes (a ++ b) :: rest
    | p, rest => p :: rest

/-- One part after the other. -/
def concat (ps : List Normal) : Normal :=
  match ps.foldr (fun p rest => prepend p.parts rest) [] with
  | [] => empty
  | [p] => p
  | ps => seq ps

/-- The code point of a string that is one character. -/
def singleChar? : Normal → Option Nat
  | bytes [a] => some a
  | bytes [a, b] => if 0xC0 ≤ a then some ((a - 0xC0) * 64 + (b - 0x80)) else none
  | bytes [a, b, c] =>
    if 0xE0 ≤ a then some ((a - 0xE0) * 4096 + (b - 0x80) * 64 + (c - 0x80)) else none
  | bytes [a, b, c, d] =>
    if 0xF0 ≤ a then
      some ((a - 0xF0) * 262144 + (b - 0x80) * 4096 + (c - 0x80) * 64 + (d - 0x80))
    else none
  | _ => none

/-- The ranges of a class. -/
def ranges? : Normal → Option CharRanges
  | chars rs _ => some rs
  | _ => none

/-- A choice of characters or of classes, as a class. -/
def oneClass? (ps : List Normal) : Option Normal :=
  match ps.mapM singleChar? with
  | some cs => some (ofRanges (CharRanges.join (cs.map fun c => (c, c))))
  | none => (ps.mapM ranges?).map fun rss => ofRanges (CharRanges.join rss.flatten)

/-- The alternatives of a choice. -/
def alternatives : Normal → List Normal
  | alt ps => ps
  | p => [p]

/-- A choice whose alternatives have no common beginning. -/
def choose (ps : List Normal) : Normal :=
  match ps.flatMap alternatives with
  | [p] => p
  | ps => (oneClass? ps).getD (alt ps)

/-- How many parts two sequences begin with alike. -/
def commonLength : List Normal → List Normal → Nat
  | p :: ps, q :: qs => if same p q then commonLength ps qs + 1 else 0
  | _, _ => 0

/-- The parts of a sequence of two or more. -/
def sequence? : Normal → Option (List Normal)
  | seq ps => some ps
  | _ => none

/-- How many parts all sequences begin with alike. -/
def commonBeginning : List (List Normal) → Nat
  | [] => 0
  | ps :: pss => pss.foldl (fun n qs => min n (commonLength ps qs)) ps.length

/-- One of some alternatives. -/
def choice (ps : List Normal) : Normal :=
  match choose ps with
  | alt ps =>
    match ps.mapM sequence? with
    | some pss =>
      match commonBeginning pss with
      | 0 => alt ps
      | n => concat ((pss.headD []).take n ++ [choose (pss.map fun ps => concat (ps.drop n))])
    | none => alt ps
  | p => p

/-- A repetition. What takes up nothing is repeated once at most, and none or one repetition is none
at all. -/
def repetition (p : Normal) (least : Nat) (most : Option Nat) : Normal :=
  let (least, most) :=
    if greatestLength p = some 0 then (min least 1, some (min (most.getD 1) 1)) else (least, most)
  match least, most with
  | 0, some 0 => empty
  | 1, some 1 => p
  | least, most => repeated p least most

mutual

/-- The normal form of a pattern. -/
def ofPattern : Pattern → Normal
  | .char set => ofRanges set.ranges
  | .anchor a => anchor a
  | .seq ps => concat (ofPatterns ps)
  | .alt ps => choice (ofPatterns ps)
  | .repeated p least most => repetition (ofPattern p) least most
  | .group index p => group index (ofPattern p)
termination_by structural p => p

def ofPatterns : List Pattern → List Normal
  | [] => []
  | p :: ps => ofPattern p :: ofPatterns ps
termination_by structural ps => ps

end

end Normal
end Pattern
end DocQuery
