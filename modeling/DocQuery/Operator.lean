import DocQuery.Error
import DocQuery.Match
import DocQuery.Value.Compare

/-!
# Binary operators

The values of operators on evaluated operands. Truth has three values: `true`, `false` and null for
what cannot be decided. `and` and `or` are decided by one operand if that suffices, and take
anything but a boolean for undecided. Only membership can fail.
-/

set_option autoImplicit false

namespace DocQuery
namespace Operator

/-- A truth value, null when it is not known. -/
def truth : Option Bool → Value
  | some b => .bool b
  | none => .null

def conjunction : Value → Value → Value
  | .bool false, _ => .bool false
  | _, .bool false => .bool false
  | .bool a, .bool b => .bool (a && b)
  | _, _ => .null

def disjunction : Value → Value → Value
  | .bool true, _ => .bool true
  | _, .bool true => .bool true
  | .bool a, .bool b => .bool (a || b)
  | _, _ => .null

/-- Negation of a truth value. -/
def negation : Value → Value
  | .bool b => .bool !b
  | _ => .null

/-- Whether a path pattern contains a string or a path. -/
def inPattern (pattern : Path) : Value → Except ExecError Bool
  | .string s => .ok (pattern.contains (Path.parse s))
  | .path p => .ok (pattern.contains p)
  | v => .error (.pathCandidate v.typeName)

/-- Whether a value equals, or lies in, one of the candidates; they are tried in order. -/
def inItems (v : Value) : List Value → Except ExecError Bool
  | [] => .ok false
  | candidate :: rest => do
    if v.looseEq candidate then return true
    match candidate with
    | .path pattern => if ← inPattern pattern v then return true else inItems v rest
    | _ => inItems v rest

/-- Membership in an array or a path pattern; with null it is unknown. -/
def membership (lhs rhs : Value) : Except ExecError Value :=
  if lhs.isNull || rhs.isNull then .ok .null
  else match rhs with
    | .array candidates => (inItems lhs candidates).map .bool
    | .path pattern => (inPattern pattern lhs).map .bool
    | v => .error (.inOperand v.typeName)

/-- The terms of a `match`: those of an array, or a single one. -/
def matchTerms : Value → List Value
  | .array terms => terms
  | v => [v]

def apply (op : BinaryOp) (lhs rhs : Value) : Except ExecError Value :=
  match op with
  | .and => .ok (conjunction lhs rhs)
  | .or => .ok (disjunction lhs rhs)
  | .eq => .ok (truth (lhs.equals rhs))
  | .neq => .ok (truth ((lhs.equals rhs).map (!·)))
  | .lt => .ok (truth ((lhs.looseCompare rhs).map (·.isLT)))
  | .lte => .ok (truth ((lhs.looseCompare rhs).map (·.isLE)))
  | .gt => .ok (truth ((lhs.looseCompare rhs).map (·.isGT)))
  | .gte => .ok (truth ((lhs.looseCompare rhs).map (·.isGE)))
  | .member => membership lhs rhs
  | .textMatch => .ok (Match.value lhs (matchTerms rhs))

/-- Whether an operator gives exactly `true`. -/
def holds (op : BinaryOp) (lhs rhs : Value) : Bool :=
  match apply op lhs rhs with
  | .ok (.bool true) => true
  | _ => false

end Operator
end DocQuery
