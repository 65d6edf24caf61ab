import DocQuery.Pattern.Basic
import DocQuery.Text.Numeral

/-!
# Reading regular expressions

Literals, classes, groups, alternatives, repetitions, anchors and word edges, and the flags `i`, `s`
and `m`. Laziness is read and means nothing here. Refused are look-around, references to groups,
escapes of letters and digits that have no meaning, a repetition of nothing, brackets that do not
match, two groups of one name, and expressions that nest too deeply.

Depth counts what has parts: a sequence or choice of two or more, a repetition, a group, and a class
in brackets with the unions, operators and classes in it.

The outer reader keeps the groups it is in on a stack instead of recursing, so each of its rounds
takes at least one character off the text, and the text's length bounds the rounds.
-/

set_option autoImplicit false

namespace DocQuery
namespace Pattern
namespace Reader

/-- What is in force at a place of a pattern. -/
structure Flags where
  ignoreCase : Bool
  dotAll : Bool
  multiLine : Bool
deriving Inhabited

/-- A class with the letter case it is read in. -/
def Flags.fold (flags : Flags) (set : CharSet) : CharSet :=
  if flags.ignoreCase then .folded set else set

/-! ## Escapes -/

def openBrace : Char := Char.ofNat 0x7B

def closeBrace : Char := Char.ofNat 0x7D

/-- Hexadecimal digits, a fixed number of them. -/
def hexDigits : Nat → Nat → List Char → Option (Nat × List Char)
  | 0, n, cs => some (n, cs)
  | _ + 1, _, [] => none
  | count + 1, n, c :: cs => do hexDigits count (n * 16 + (← Text.hexValue? c)) cs

/-- Hexadecimal digits in braces, after the opening one. -/
def hexBraced (cs : List Char) : Option (Nat × List Char) := do
  let digits := cs.takeWhile (· != closeBrace)
  let rest := cs.dropWhile (· != closeBrace)
  guard (!digits.isEmpty && !rest.isEmpty)
  let (n, _) ← hexDigits digits.length 0 digits
  return (n, rest.drop 1)

/-- A character by its number. -/
def charOfCode? (n : Nat) : Option Char := if n.isValidChar then some (Char.ofNat n) else none

/-- A character by its number in hexadecimal, `width` digits or any number of them in braces. -/
def hexEscape (width : Nat) (cs : List Char) : Option (Char × List Char) := do
  let (n, rest) ← match cs with
    | c :: cs' => if c = openBrace then hexBraced cs' else hexDigits width 0 cs
    | [] => none
  return (← charOfCode? n, rest)

/-- Characters that a backslash makes literal: all of ASCII but letters, digits and angle brackets.
-/
def isEscapable (c : Char) : Bool :=
  c.toNat < 0x80 && !Text.isAsciiUpper c && !Text.isAsciiLower c && !Text.isDigit c &&
    c != '<' && c != '>'

/-- What follows a backslash and stands for one character. -/
def escapedChar : List Char → Option (Char × List Char)
  | 'n' :: cs => some ('\n', cs)
  | 't' :: cs => some ('\t', cs)
  | 'r' :: cs => some ('\r', cs)
  | 'f' :: cs => some (Char.ofNat 12, cs)
  | 'v' :: cs => some (Char.ofNat 11, cs)
  | 'a' :: cs => some (Char.ofNat 7, cs)
  | 'x' :: cs => hexEscape 2 cs
  | 'u' :: cs => hexEscape 4 cs
  | 'U' :: cs => hexEscape 8 cs
  | c :: cs => if isEscapable c then some (c, cs) else none
  | [] => none

/-- What follows a backslash and stands for a class. -/
def escapedClass : List Char → Option (CharSet × List Char)
  | 'd' :: cs => some (.digit, cs)
  | 'D' :: cs => some (.compl .digit, cs)
  | 'w' :: cs => some (.word, cs)
  | 'W' :: cs => some (.compl .word, cs)
  | 's' :: cs => some (.blank, cs)
  | 'S' :: cs => some (.compl .blank, cs)
  | _ => none

/-- The word edges that have a name. -/
def wordEdge? : List Char → Option Anchor
  | ['s', 't', 'a', 'r', 't'] => some .wordStart
  | ['e', 'n', 'd'] => some .wordEnd
  | ['s', 't', 'a', 'r', 't', '-', 'h', 'a', 'l', 'f'] => some .noWordBefore
  | ['e', 'n', 'd', '-', 'h', 'a', 'l', 'f'] => some .noWordAfter
  | _ => none

def isEdgeNameChar (c : Char) : Bool := Text.isAsciiUpper c || Text.isAsciiLower c || c == '-'

/-- A word edge, after `\b`: one with a name in braces, or the plain one. Braces that begin with
anything but a letter or a minus sign are left for a repetition. -/
def wordEdge (cs : List Char) : Option (Anchor × List Char) :=
  match cs with
  | brace :: c :: _ =>
    if brace = openBrace ∧ isEdgeNameChar c then
      match (cs.drop 1).dropWhile isEdgeNameChar with
      | [] => none
      | d :: rest =>
        if d = closeBrace then
          (wordEdge? ((cs.drop 1).takeWhile isEdgeNameChar)).map fun a => (a, rest)
        else none
    else some (.wordEdge, cs)
  | _ => some (.wordEdge, cs)

/-- What follows a backslash and stands for an anchor. -/
def escapedAnchor : List Char → Option (Anchor × List Char)
  | 'b' :: cs => wordEdge cs
  | 'B' :: cs => some (.noWordEdge, cs)
  | 'A' :: cs => some (.textStart, cs)
  | 'z' :: cs => some (.textEnd, cs)
  | '<' :: cs => some (.wordStart, cs)
  | '>' :: cs => some (.wordEnd, cs)
  | _ => none

/-! ## Classes in brackets -/

/-- How two sets of a bracket combine. -/
inductive SetOp where
  | inter
  | minus
  | symmetric

def SetOp.apply : SetOp → CharSet → CharSet → CharSet
  | inter, a, b => a.inter b
  | minus, a, b => a.inter (.compl b)
  | symmetric, a, b => (a.union b).inter (.compl (a.inter b))

/-- An operator between the sets of a bracket. -/
def setOp? : List Char → Option (SetOp × List Char)
  | '&' :: '&' :: cs => some (.inter, cs)
  | '-' :: '-' :: cs => some (.minus, cs)
  | '~' :: '~' :: cs => some (.symmetric, cs)
  | _ => none

/-- An item of a class: a character, which may begin a range, or a set. -/
inductive Item where
  | char (c : Char)
  | set (s : CharSet)

def Item.toSet : Item → CharSet
  | char c => .single c
  | set s => s

/-- A named class, after `[:`. Like all negated classes it is folded before it is negated. -/
def namedClass (flags : Flags) (cs : List Char) : Option (CharSet × List Char) := do
  let (negated, cs) := match cs with
    | '^' :: cs => (true, cs)
    | cs => (false, cs)
  let name := cs.takeWhile (· != ':')
  match cs.dropWhile (· != ':') with
  | ':' :: ']' :: rest =>
    let s := flags.fold (← CharSet.named? (String.ofList name))
    return (if negated then s.compl else s, rest)
  | _ => none

/-- An item that is no bracket. -/
def plainItem : List Char → Option (Item × List Char)
  | '\\' :: cs =>
    match escapedClass cs with
    | some (s, cs) => some (.set s, cs)
    | none => (escapedChar cs).map fun (c, cs) => (.char c, cs)
  | c :: cs => some (.char c, cs)
  | [] => none

/-- Items of a class: all their characters, how many items they are, and how deep the deepest of
them is. -/
structure Union where
  set : CharSet
  items : Nat
  nesting : Nat

namespace Union

def empty : Union := ⟨.none, 0, 0⟩

def add (u : Union) (s : CharSet) (nesting : Nat) : Union :=
  ⟨u.set.union s, u.items + 1, max u.nesting nesting⟩

/-- How deep a union is. One item alone is no union. -/
def depth (u : Union) : Nat := if u.items ≤ 1 then u.nesting else u.nesting + 1

end Union

/-- The minus signs that may begin a class. -/
def classHead : List Char → Union → Union × List Char
  | '-' :: cs, u => classHead cs (u.add (.single '-') 0)
  | cs, u => (u, cs)

/-- The opening of a class, after its bracket: whether it is negated, and what it begins with. A
closing bracket that comes first is an item. -/
def classOpening (cs : List Char) : Bool × Union × List Char :=
  let (negated, cs) := match cs with
    | '^' :: cs => (true, cs)
    | cs => (false, cs)
  let (u, cs) := classHead cs .empty
  match u.items, cs with
  | 0, ']' :: cs => (negated, u.add (.single ']') 0, cs)
  | _, cs => (negated, u, cs)

/-- An operator waiting for its right-hand set, with its left-hand set and the depth of that. -/
abbrev Pending := Option (SetOp × CharSet × Nat)

/-- Put the items read last under the operator that waits for them. Both its sets are folded first.
-/
def Pending.close (flags : Flags) (p : Pending) (u : Union) : CharSet × Nat :=
  match p with
  | some (op, left, depth) => (op.apply (flags.fold left) (flags.fold u.set), max depth u.depth + 1)
  | none => (u.set, u.depth)

/-- The rest of a class up to its closing bracket, with the items read so far. -/
def classRest (flags : Flags) : Nat → Bool → Pending → Union → List Char →
    Option (CharSet × Nat × List Char)
  | 0, _, _, _, _ => none
  | _ + 1, _, _, _, [] => none
  | _ + 1, negated, pending, u, ']' :: cs =>
    let (whole, depth) := pending.close flags u
    let whole := flags.fold whole
    some (if negated then whole.compl else whole, depth + 1, cs)
  | fuel + 1, negated, pending, u, '[' :: cs =>
    match cs with
    | ':' :: cs' =>
      match namedClass flags cs' with
      | some (t, rest) => classRest flags fuel negated pending (u.add t 0) rest
      | none => nested fuel negated pending u cs
    | _ => nested fuel negated pending u cs
  | fuel + 1, negated, pending, u, c :: cs =>
    match setOp? (c :: cs) with
    | some (op, rest) =>
      classRest flags fuel negated (some (op, pending.close flags u)) .empty rest
    | none => do
      let (low, rest) ← plainItem (c :: cs)
      match rest with
      | '-' :: d :: rest' =>
        if d = ']' ∨ d = '-' then classRest flags fuel negated pending (u.add low.toSet 0) rest
        else
          let (high, rest) ← plainItem (d :: rest')
          match low, high with
          | .char a, .char b =>
            if a.toNat ≤ b.toNat then
              classRest flags fuel negated pending (u.add (.range a.toNat b.toNat) 0) rest
            else none
          | _, _ => none
      | _ => classRest flags fuel negated pending (u.add low.toSet 0) rest
where
  /-- A class inside a class, after its bracket. -/
  nested (fuel : Nat) (negated : Bool) (pending : Pending) (u : Union) (cs : List Char) :
      Option (CharSet × Nat × List Char) :=
    match fuel with
    | 0 => none
    | fuel + 1 => do
      let (inner, start, cs) := classOpening cs
      let (t, depth, rest) ← classRest flags fuel inner none start cs
      classRest flags fuel negated pending (u.add t depth) rest

/-- A class, after its bracket, and how deep it is. -/
def bracket (flags : Flags) (cs : List Char) : Option (CharSet × Nat × List Char) :=
  let (negated, start, cs) := classOpening cs
  classRest flags (2 * cs.length + 2) negated none start cs

/-! ## Groups and repetitions -/

/-- Set or clear a flag. Greed (`U`) and Unicode (`u`) have no effect here. -/
def setFlag (on : Bool) (flags : Flags) : Char → Option Flags
  | 'i' => some { flags with ignoreCase := on }
  | 's' => some { flags with dotAll := on }
  | 'm' => some { flags with multiLine := on }
  | 'U' => some flags
  | 'u' => some flags
  | _ => none

/-- Set flags up to a minus sign and clear those behind it. -/
def setFlags : Bool → Flags → List Char → Option Flags
  | _, flags, [] => some flags
  | _, flags, '-' :: cs => setFlags false flags cs
  | on, flags, c :: cs => do setFlags on (← setFlag on flags c) cs

/-- Flags up to the mark that ends them. None is named twice, and a minus sign is not the last. -/
def flagList (flags : Flags) (cs : List Char) : Option (Flags × Char × List Char) := do
  let isMark := fun c => c == ':' || c == ')'
  let names := cs.takeWhile (!isMark ·)
  match cs.dropWhile (!isMark ·) with
  | [] => none
  | mark :: rest =>
    guard (decide names.Nodup && names.getLast? != some '-')
    return (← setFlags true flags names, mark, rest)

/-- The name of a group, up to the closing angle bracket. -/
def groupName (cs : List Char) : Option (List Char × List Char) := do
  let name := cs.takeWhile (· != '>')
  let rest := cs.dropWhile (· != '>')
  guard (!rest.isEmpty)
  match name with
  | [] => none
  | c :: _ => guard (Text.isWordChar c && !Text.isDecimalDigit c)
  guard (name.all fun c => Text.isWordChar c || c == '.' || c == '[' || c == ']')
  return (name, rest.drop 1)

/-- What an opening parenthesis is: a group that is counted and may have a name, a group with flags
of its own, or a change of flags. -/
inductive Opening where
  | capture (name : Option (List Char))
  | plain (flags : Flags)
  | directive (flags : Flags)

/-- What follows an opening parenthesis. -/
def opening (flags : Flags) : List Char → Option (Opening × List Char)
  | '?' :: 'P' :: '<' :: cs => (groupName cs).map fun (name, cs) => (.capture (some name), cs)
  | '?' :: '<' :: cs => (groupName cs).map fun (name, cs) => (.capture (some name), cs)
  | '?' :: ')' :: _ => none
  | '?' :: cs => do
    let (inner, mark, cs) ← flagList flags cs
    return (if mark = ':' then .plain inner else .directive inner, cs)
  | cs => some (.capture none, cs)

/-- The greatest count of a repetition. -/
def greatestCount : Nat := 4294967295

/-- A decimal number with blanks around it. -/
def decimal (cs : List Char) : Option (Nat × List Char) :=
  let cs := cs.dropWhile Text.isBlank
  let digits := cs.takeWhile Text.isDigit
  let value := Text.digitsValue digits
  if digits.isEmpty || greatestCount < value then none
  else some (value, (cs.dropWhile Text.isDigit).dropWhile Text.isBlank)

/-- The bounds of a counted repetition, after its opening brace. -/
def counts (cs : List Char) : Option ((Nat × Option Nat) × List Char) := do
  let (least, cs) ← decimal cs
  match cs with
  | [] => none
  | c :: cs =>
    if c = closeBrace then return ((least, some least), cs)
    guard (c == ',')
    match cs with
    | [] => none
    | d :: rest =>
      if d = closeBrace then return ((least, none), rest)
      let (most, cs) ← decimal cs
      guard (decide (least ≤ most))
      match cs with
      | e :: cs => if e = closeBrace then return ((least, some most), cs) else none
      | [] => none

/-- A mark of laziness after a repetition. -/
def skipLazy : List Char → List Char
  | '?' :: cs => cs
  | cs => cs

/-! ## The whole pattern -/

/-- An expression of a sequence and how deep it is. A change of flags stands in a sequence too, but
cannot be repeated. -/
structure Expr where
  pattern : Pattern
  depth : Nat
  repeatable : Bool

/-- Several expressions as one, the last of them first. One expression alone stays as it is. -/
def Expr.join (combine : List Pattern → Pattern) (es : List Expr) : Expr :=
  match es with
  | [e] => e
  | es =>
    let nesting := es.foldl (fun n e => max n e.depth) 0
    ⟨combine (es.reverse.map (·.pattern)), if es.isEmpty then 0 else nesting + 1, true⟩

/-- A sequence in the making, its last expression first, and the alternatives before it. -/
structure Branches where
  alternatives : List Expr
  items : List Expr

namespace Branches

def empty : Branches := ⟨[], []⟩

def push (b : Branches) (e : Expr) : Branches := { b with items := e :: b.items }

/-- End the sequence and begin the next alternative. -/
def next (b : Branches) : Branches := ⟨Expr.join .seq b.items :: b.alternatives, []⟩

def close (b : Branches) : Expr := Expr.join .alt b.next.alternatives

/-- Repeat the last expression. -/
def repeatLast (b : Branches) (least : Nat) (most : Option Nat) : Option Branches :=
  match b.items with
  | e :: items =>
    if e.repeatable then
      some { b with items := ⟨.repeated e.pattern least most, e.depth + 1, true⟩ :: items }
    else none
  | [] => none

end Branches

/-- What a group is inside of, and its number if it is counted. -/
structure Frame where
  flags : Flags
  branches : Branches
  index : Option Nat

/-- The expression of a group that ends. -/
def Frame.close (f : Frame) (e : Expr) : Expr :=
  match f.index with
  | some n => ⟨.group n e.pattern, e.depth + 1, true⟩
  | none => ⟨e.pattern, e.depth + 1, true⟩

/-- Where the reader is: the flags in force, the groups it is in with the innermost first, the
sequence in the making, and the number of counted groups and the names given so far. -/
structure State where
  flags : Flags
  stack : List Frame
  branches : Branches
  groups : Nat
  names : List (List Char)

namespace State

def start (flags : Flags) : State := ⟨flags, [], .empty, 0, []⟩

/-- Enter a group. -/
def enter (st : State) (inner : Flags) (index : Option Nat) : State :=
  { st with
    flags := inner
    stack := ⟨st.flags, st.branches, index⟩ :: st.stack
    branches := .empty }

/-- Take what follows an opening parenthesis. -/
def takeOpening (st : State) : Opening → Option State
  | .capture none =>
    let st := { st with groups := st.groups + 1 }
    some (st.enter st.flags (some st.groups))
  | .capture (some name) => do
    guard (!st.names.contains name)
    let st := { st with groups := st.groups + 1, names := name :: st.names }
    return st.enter st.flags (some st.groups)
  | .plain inner => some (st.enter inner none)
  | .directive inner =>
    some { st with flags := inner, branches := st.branches.push ⟨.empty, 0, false⟩ }

/-- Leave a group. -/
def leave (st : State) : Option State :=
  match st.stack with
  | [] => none
  | f :: stack =>
    some { st with
      flags := f.flags
      stack := stack
      branches := f.branches.push (f.close st.branches.close) }

/-- Repeat the last expression. -/
def repeatLast (st : State) (least : Nat) (most : Option Nat) : Option State :=
  (st.branches.repeatLast least most).map fun b => { st with branches := b }

end State

def charPattern (flags : Flags) (c : Char) : Pattern := .char (flags.fold (.single c))

/-- An expression that begins with the given character, and is neither a group nor a repetition. -/
def atom (flags : Flags) : List Char → Option (Expr × List Char)
  | '.' :: cs => some (⟨.char (if flags.dotAll then .any else .notNewline), 0, true⟩, cs)
  | '^' :: cs => some (⟨.anchor (if flags.multiLine then .lineStart else .textStart), 0, true⟩, cs)
  | '$' :: cs => some (⟨.anchor (if flags.multiLine then .lineEnd else .textEnd), 0, true⟩, cs)
  | '[' :: cs => (bracket flags cs).map fun (s, depth, cs) => (⟨.char s, depth, true⟩, cs)
  | '\\' :: cs =>
    match escapedClass cs, escapedAnchor cs with
    | some (s, cs), _ => some (⟨.char s, 0, true⟩, cs)
    | _, some (a, cs) => some (⟨.anchor a, 0, true⟩, cs)
    | _, _ => (escapedChar cs).map fun (c, cs) => (⟨charPattern flags c, 0, true⟩, cs)
  | c :: cs => some (⟨charPattern flags c, 0, true⟩, cs)
  | [] => none

/-- Take an expression, an operator or a parenthesis that begins with the given character. -/
def step (st : State) (c : Char) (cs : List Char) : Option (State × List Char) :=
  if c = '|' then some ({ st with branches := st.branches.next }, cs)
  else if c = '(' then do
    let (o, cs) ← opening st.flags cs
    return (← st.takeOpening o, cs)
  else if c = ')' then st.leave.map fun st => (st, cs)
  else if c = '*' then (st.repeatLast 0 none).map fun st => (st, skipLazy cs)
  else if c = '+' then (st.repeatLast 1 none).map fun st => (st, skipLazy cs)
  else if c = '?' then (st.repeatLast 0 (some 1)).map fun st => (st, skipLazy cs)
  else if c = openBrace then do
    let ((least, most), cs) ← counts cs
    return (← st.repeatLast least most, skipLazy cs)
  else do
    let (e, cs) ← atom st.flags (c :: cs)
    return ({ st with branches := st.branches.push e }, cs)

/-- Read a pattern to its end. -/
def expression : Nat → State → List Char → Option Expr
  | _, st, [] => if st.stack.isEmpty then some st.branches.close else none
  | 0, _, _ :: _ => none
  | fuel + 1, st, c :: cs => do
    let (st, cs) ← step st c cs
    expression fuel st cs

/-- The greatest depth of an expression. -/
def greatestDepth : Nat := 250

end Reader

/-- The pattern a text describes, if it describes one. -/
def parse? (text : String) (ignoreCase : Bool) : Option Pattern := do
  let cs := text.toList
  let e ← Reader.expression cs.length (.start ⟨ignoreCase, false, false⟩) cs
  guard (decide (e.depth ≤ Reader.greatestDepth))
  return e.pattern

/-! ## Escaping -/

/-- Characters with a meaning of their own in patterns. -/
def isMeta (c : Char) : Bool :=
  ['\\', '.', '+', '*', '?', '(', ')', '|', '[', ']', Reader.openBrace, Reader.closeBrace, '^', '$',
    '#', '&', '-', '~'].contains c

/-- The pattern text that stands for a text itself. -/
def escape (cs : List Char) : List Char :=
  cs.flatMap fun c => if isMeta c then ['\\', c] else [c]

end Pattern
end DocQuery
