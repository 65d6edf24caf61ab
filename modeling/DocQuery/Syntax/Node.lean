import DocQuery.Double.Basic

/-!
# Syntax trees

The tree of a parsed query. Trees come from a parser as JSON (`Syntax.Reader`) and are written back
as JSON (`Syntax.Printer`); the planner turns them into operations.
-/

set_option autoImplicit false

namespace DocQuery

/-- Operators between two operands. `colon` names a member of an object. -/
inductive BinaryOperator where
  | and
  | or
  | equals
  | notEquals
  | less
  | lessEqual
  | greater
  | greaterEqual
  | member
  | textMatch
  | colon
deriving DecidableEq, Inhabited

/-- Operators after their operand; `arrow` follows a reference. -/
inductive PostfixOperator where
  | asc
  | desc
  | arrow
deriving DecidableEq, Inhabited

/-- A parsed expression. -/
inductive Node where
  /-- One expression piped into another. -/
  | pipe (lhs rhs : Node)
  /-- Attribute access. -/
  | dot (lhs rhs : Node)
  /-- Every document there is. -/
  | everything
  /-- A filter behind a value; without an expression it only opens an array. -/
  | constraint (expression : Option Node)
  | binary (operator : BinaryOperator) (lhs rhs : Node)
  | not (operand : Node)
  | postfixed (operator : PostfixOperator) (operand : Node)
  /-- A bare attribute name. -/
  | attr (name : String)
  /-- The enclosing value. -/
  | parent
  | object (members : List Node)
  | array (elements : List Node)
  /-- An index or a range behind a value. -/
  | subscript (value : Node)
  | range (start stop : Node) (inclusive : Bool)
  /-- All fields of the current value, inside an object. -/
  | ellipsis
  | functionCall (name : String) (arguments : List Node)
  /-- A value bound when the query is planned. -/
  | param (name : String)
  | integer (value : Int)
  | float (value : Double)
  | string (value : String)
  | bool (value : Bool)
  | null
deriving Inhabited

/-- Every document that passes a filter. -/
def Node.filtered (filter : Node) : Node := .pipe .everything (.constraint (some filter))

end DocQuery
