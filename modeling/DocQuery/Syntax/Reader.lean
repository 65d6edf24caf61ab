import DocQuery.Json.Basic
import DocQuery.Syntax.Kind
import DocQuery.Text.Numeral

/-!
# Reading syntax trees

A node is an object with its kind under `node` and the kind's fields, or a list of the kind and the
fields in order. Fields that the kind does not have are ignored; one that it has may not be
repeated, under any of its names. Trailing fields of a list may be missing where a missing field is
allowed.

Every JSON value is read once, from the leaves up, as whatever it could stand for in a node
(`Reading`): a node and a list of nodes. The node above it then takes what its field asks for.
-/

set_option autoImplicit false

namespace DocQuery
namespace Node

/-- A JSON value and what it reads as. -/
structure Reading where
  json : Json
  node : Option Node
  nodes : Option (List Node)

namespace Reading

/-- An operator: its name, or an object with the name as its one field and nothing in it. -/
def operatorName? (r : Reading) : Option String :=
  match r.json with
  | .str s => some s
  | .obj [(s, .null)] => some s
  | .obj [(s, .obj [])] => some s
  | _ => none

def string? (r : Reading) : Option String := r.json.asString?

def bool? (r : Reading) : Option Bool := r.json.asBool?

/-- An integer of 64 bits. -/
def integer? (r : Reading) : Option Int :=
  match r.json with
  | .int n => if fitsInt64 n then some n else none
  | _ => none

def double? (r : Reading) : Option Double :=
  match r.json with
  | .int n => some (Double.ofInt n)
  | .float d => some d
  | _ => none

/-- A node that may be left out or null. -/
def optional? : Option Reading → Option (Option Node)
  | none => some none
  | some r => if r.json.isNull then some none else r.node.map some

/-- A list of nodes that may be left out. -/
def list? : Option Reading → Option (List Node)
  | none => some []
  | some r => r.nodes

end Reading

/-- The node of a kind with the given fields. -/
def build : Kind → List (Option Reading) → Option Node
  | .pipe, [some lhs, some rhs] => return .pipe (← lhs.node) (← rhs.node)
  | .dot, [some lhs, some rhs] => return .dot (← lhs.node) (← rhs.node)
  | .everything, _ => some .everything
  | .constraint, [e] => return .constraint (← Reading.optional? e)
  | .binary, [some op, some lhs, some rhs] => do
    return .binary (← BinaryOperator.ofName? (← op.operatorName?)) (← lhs.node) (← rhs.node)
  | .prefixed, [some op, some rhs] => do
    guard ((← op.operatorName?) == "not")
    return .not (← rhs.node)
  | .postfixed, [some op, some lhs] => do
    return .postfixed (← PostfixOperator.ofName? (← op.operatorName?)) (← lhs.node)
  | .attr, [some name] => return .attr (← name.string?)
  | .parent, _ => some .parent
  | .object, [es] => return .object (← Reading.list? es)
  | .array, [es] => return .array (← Reading.list? es)
  | .subscript, [some value] => return .subscript (← value.node)
  | .range, [some start, some stop, inclusive] => do
    let inclusive ← match inclusive with
      | some r => r.bool?
      | none => some false
    return .range (← start.node) (← stop.node) inclusive
  | .ellipsis, _ => some .ellipsis
  | .functionCall, [some name, arguments] => do
    return .functionCall (← name.string?) (← Reading.list? arguments)
  | .param, [some name] => return .param (← name.string?)
  | .integer, [some value] => return .integer (← value.integer?)
  | .float, [some value] => return .float (← value.double?)
  | .string, [some value] => return .string (← value.string?)
  | .bool, [some value] => return .bool (← value.bool?)
  | .null, _ => some .null
  | _, _ => none

/-- The kind a node gives, by name or by number. -/
def kindOf? : Json → Option Kind
  | .str s => Kind.ofName? s
  | j => do Kind.all[← j.asNat?]?

/-- The one field that goes by one of the names; more than one is an error. -/
def pick? (fields : List (String × Reading)) (names : List String) : Option (Option Reading) :=
  match fields.filter fun f => names.contains f.1 with
  | [] => some none
  | [f] => some (some f.2)
  | _ => none

/-- A node from the fields of an object. -/
def ofFields? (fields : List (String × Reading)) : Option Node := do
  let tag ← ← pick? fields ["node"]
  let kind ← kindOf? tag.json
  build kind (← kind.fields.mapM (pick? fields))

/-- A node from a list: its kind and its fields. -/
def ofItems? : List Reading → Option Node
  | [] => none
  | tag :: rest => do
    let kind ← kindOf? tag.json
    guard (decide (rest.length ≤ kind.fields.length))
    build kind (rest.map some ++ List.replicate (kind.fields.length - rest.length) none)

mutual

/-- Read a value as everything it could stand for. -/
def reading : Json → Reading
  | .arr items =>
    let rs := readItems items
    ⟨.arr items, ofItems? rs, rs.mapM (·.node)⟩
  | .obj fields => ⟨.obj fields, ofFields? (readFields fields), none⟩
  | j => ⟨j, none, none⟩

def readItems : List Json → List Reading
  | [] => []
  | j :: js => reading j :: readItems js

def readFields : List (String × Json) → List (String × Reading)
  | [] => []
  | (name, j) :: fs => (name, reading j) :: readFields fs

end

/-- Whether a value names its kind. The outermost node has to; inside another node the kind may be
a number. -/
def namesKind : Json → Bool
  | .obj fields => fields.all fun f => f.1 != "node" || f.2.asString?.isSome
  | .arr (tag :: _) => tag.asString?.isSome
  | _ => false

/-- The syntax tree a JSON value stands for. -/
def ofJson? (j : Json) : Option Node := if namesKind j then (reading j).node else none

end Node
end DocQuery
