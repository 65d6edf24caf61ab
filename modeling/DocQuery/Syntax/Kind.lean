import DocQuery.Syntax.Node

/-!
# Names of syntax

The names that kinds of nodes and operators have in JSON, and the fields of each kind. `Kind.all` is
in the order by which a nested node may also give its kind as a number.
-/

set_option autoImplicit false

namespace DocQuery

/-- The kinds of syntax nodes. -/
inductive Kind where
  | pipe
  | dot
  | everything
  | constraint
  | binary
  | prefixed
  | postfixed
  | attr
  | parent
  | object
  | array
  | subscript
  | range
  | ellipsis
  | functionCall
  | param
  | integer
  | float
  | string
  | bool
  | null
deriving DecidableEq, Inhabited

namespace Kind

def name : Kind → String
  | pipe => "pipeOperator"
  | dot => "dotOperator"
  | everything => "everything"
  | constraint => "constraint"
  | binary => "binaryOperator"
  | prefixed => "prefixOperator"
  | postfixed => "postfixOperator"
  | attr => "attribute"
  | parent => "parent"
  | object => "object"
  | array => "array"
  | subscript => "subscript"
  | range => "range"
  | ellipsis => "ellipsis"
  | functionCall => "functionCall"
  | param => "param"
  | integer => "integer"
  | float => "float"
  | string => "string"
  | bool => "bool"
  | null => "null"

def all : List Kind :=
  [pipe, dot, everything, constraint, binary, prefixed, postfixed, attr, parent, object, array,
    subscript, range, ellipsis, functionCall, param, integer, float, string, bool, null]

def ofName? (s : String) : Option Kind := all.find? (·.name == s)

/-- The fields of a kind in order, each with the names it goes by. -/
def fields : Kind → List (List String)
  | pipe | dot => [["lhs"], ["rhs"]]
  | binary => [["operator"], ["lhs"], ["rhs"]]
  | prefixed => [["operator"], ["rhs"]]
  | postfixed => [["operator"], ["lhs"]]
  | constraint => [["expression"]]
  | attr => [["name", "path"]]
  | object | array => [["expressions"]]
  | range => [["start"], ["end"], ["inclusive"]]
  | functionCall => [["name"], ["arguments"]]
  | param => [["name"]]
  | subscript | integer | float | string | bool => [["value"]]
  | everything | parent | ellipsis | null => []

end Kind

namespace BinaryOperator

def name : BinaryOperator → String
  | and => "and"
  | or => "or"
  | equals => "equals"
  | notEquals => "neq"
  | less => "lt"
  | lessEqual => "lte"
  | greater => "gt"
  | greaterEqual => "gte"
  | member => "in"
  | textMatch => "match"
  | colon => "colon"

def all : List BinaryOperator :=
  [and, or, equals, notEquals, less, lessEqual, greater, greaterEqual, member, textMatch, colon]

def ofName? (s : String) : Option BinaryOperator := all.find? (·.name == s)

end BinaryOperator

namespace PostfixOperator

def name : PostfixOperator → String
  | asc => "asc"
  | desc => "desc"
  | arrow => "arrow"

def all : List PostfixOperator := [asc, desc, arrow]

def ofName? (s : String) : Option PostfixOperator := all.find? (·.name == s)

end PostfixOperator
end DocQuery
