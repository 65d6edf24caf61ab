import DocQuery.Plan.Operation

/-!
# Writing plans as JSON

An operation is an object with its name under `op`; comparisons and connectives share the name
`binary`. The alias of a pipeline is left out when it has none.
-/

set_option autoImplicit false

namespace DocQuery

def PathStep.toJson : PathStep → Json
  | parent => .obj [("op", .str "parent")]
  | attr name => .obj [("name", .str name), ("op", .str "attribute")]

def Direction.name : Direction → String
  | asc => "asc"
  | desc => "desc"

namespace Operation

/-- The object of an operation with the given fields. -/
def written (op : String) (fields : List (String × Json)) : Json :=
  .obj (Fields.ofList (("op", .str op) :: fields))

mutual

def toJson : Operation → Json
  | source id => written "source" [("id", .int id)]
  | filter condition => written "filter" [("filter", toJson condition)]
  | binary op lhs rhs =>
    written "binary" [("operator", .str op.name), ("lhs", toJson lhs), ("rhs", toJson rhs)]
  | not operand => written "not" [("rhs", toJson operand)]
  | accessor path => written "accessor" [("path", .arr (path.map PathStep.toJson))]
  | literal value => written "literal" [("value", value.toJson)]
  | object members => written "object" [("operations", .arr (membersToJson members))]
  | array elements => written "array" [("operations", .arr (listToJson elements))]
  | assignment name value => written "assignment" [("name", .str name), ("value", toJson value)]
  | splat => written "splat" []
  | subscript w =>
    written "subscript" [("start", .int w.start), ("end", .int w.stop), ("first", .bool w.first)]
  | range start stop inclusive =>
    written "range" [("start", toJson start), ("end", toJson stop), ("inclusive", .bool inclusive)]
  | ordering terms => written "ordering" [("terms", .arr (termsToJson terms))]
  | sortDirection (.mk e d) =>
    written "sortDirection" [("expression", toJson e), ("direction", .str d.name)]
  | call f arguments =>
    written "functionCall" [("function", .str f.name), ("arguments", .arr (listToJson arguments))]
  | pipe stages name =>
    let named := match name with
      | some name => [("alias", Json.str name)]
      | none => []
    written "pipe" (("operations", .arr (listToJson stages)) :: named)
  | mapJoin stages =>
    written "mapJoin" [("pipeline", .obj [("operations", .arr (listToJson stages))])]

def listToJson : List Operation → List Json
  | [] => []
  | o :: os => toJson o :: listToJson os

def membersToJson : List Member → List Json
  | [] => []
  | .assignment name value :: ms =>
    written "assignment" [("name", .str name), ("value", toJson value)] :: membersToJson ms
  | .splat :: ms => written "splat" [] :: membersToJson ms

def termsToJson : List SortTerm → List Json
  | [] => []
  | .mk e d :: ts =>
    .obj [("direction", .str d.name), ("expression", toJson e)] :: termsToJson ts

end

end Operation
end DocQuery
