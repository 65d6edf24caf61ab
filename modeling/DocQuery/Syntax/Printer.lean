import DocQuery.Json.Basic
import DocQuery.Syntax.Kind

/-!
# Writing syntax trees

A node is written as an object with its kind and every field of the kind, the optional ones
included, so that the written form does not depend on how the tree was given.
-/

set_option autoImplicit false

namespace DocQuery
namespace Node

/-- The object of a kind with the given fields. -/
def written (kind : Kind) (fields : List (String × Json)) : Json :=
  .obj (Fields.ofList (("node", .str kind.name) :: fields))

mutual

def toJson : Node → Json
  | .pipe lhs rhs => written .pipe [("lhs", toJson lhs), ("rhs", toJson rhs)]
  | .dot lhs rhs => written .dot [("lhs", toJson lhs), ("rhs", toJson rhs)]
  | .everything => written .everything []
  | .constraint none => written .constraint [("expression", .null)]
  | .constraint (some e) => written .constraint [("expression", toJson e)]
  | .binary op lhs rhs =>
    written .binary [("operator", .str op.name), ("lhs", toJson lhs), ("rhs", toJson rhs)]
  | .not operand => written .prefixed [("operator", .str "not"), ("rhs", toJson operand)]
  | .postfixed op operand =>
    written .postfixed [("operator", .str op.name), ("lhs", toJson operand)]
  | .attr name => written .attr [("name", .str name)]
  | .parent => written .parent []
  | .object members => written .object [("expressions", .arr (toJsons members))]
  | .array elements => written .array [("expressions", .arr (toJsons elements))]
  | .subscript value => written .subscript [("value", toJson value)]
  | .range start stop inclusive =>
    written .range [("start", toJson start), ("end", toJson stop), ("inclusive", .bool inclusive)]
  | .ellipsis => written .ellipsis []
  | .functionCall name arguments =>
    written .functionCall [("name", .str name), ("arguments", .arr (toJsons arguments))]
  | .param name => written .param [("name", .str name)]
  | .integer value => written .integer [("value", .int value)]
  | .float value => written .float [("value", if value.isFinite then .float value else .null)]
  | .string value => written .string [("value", .str value)]
  | .bool value => written .bool [("value", .bool value)]
  | .null => written .null []

def toJsons : List Node → List Json
  | [] => []
  | n :: ns => toJson n :: toJsons ns

end

end Node
end DocQuery
