import DocQuery.Text.Blank

/-!
# Dotted paths

A path is a list of segments, written with dots between them. Used as a pattern it may hold two
wildcards: `*` stands for exactly one last segment and `**` for any remainder. A pattern without a
wildcard contains no path, not even itself.
-/

set_option autoImplicit false

namespace DocQuery

structure Path where
  segments : List String
deriving DecidableEq, Inhabited

namespace Path

/-- Split a dotted text. The empty text is one empty segment. -/
def parse (s : String) : Path := ⟨(Text.splitDots s.toList).map String.ofList⟩

/-- The dotted text. -/
def text (p : Path) : String := String.intercalate "." p.segments

/-- The segments of both, one after the other. -/
def concat (p q : Path) : Path := ⟨p.segments ++ q.segments⟩

/-- Walk pattern and candidate together up to the first wildcard. Both must still have segments
after every pair that agrees. -/
def covers : List String → List String → Bool
  | [], _ => false
  | p :: ps, cs =>
    if p = "**" then true
    else if p = "*" then cs.tail.isEmpty
    else match cs with
      | [] => false
      | c :: cs => p == c && !ps.isEmpty && !cs.isEmpty && covers ps cs

/-- Whether `candidate` lies in the pattern `p`. -/
def contains (p candidate : Path) : Bool := covers p.segments candidate.segments

end Path
end DocQuery
