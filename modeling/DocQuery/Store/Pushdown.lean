import DocQuery.Error
import DocQuery.Match
import DocQuery.Operator
import DocQuery.Pattern.Reader
import DocQuery.Store.Clause

/-!
# Filters as clauses

`Clause.ofFilter` gives the clause of a filter. Comparisons of fields with literals or with each
other have exact selectors. Where the engine would refuse a document with an error, the selector
accepts it, so that the engine gets to see it. Token matching is no regular expression; its
selectors only narrow.
-/

set_option autoImplicit false

namespace DocQuery

/-! ## Operands -/

namespace Operation

/-- The names of an accessor made of attributes only. -/
def attributeNames? : List PathStep → Option (List String)
  | [] => some []
  | .parent :: _ => none
  | .attr name :: steps => (attributeNames? steps).map (name :: ·)

/-- The dotted name of the field that an accessor reads. -/
def fieldName? : Operation → Option String
  | accessor [] => none
  | accessor steps => (attributeNames? steps).map (String.intercalate ".")
  | _ => none

mutual

/-- The value of an operation made of literals only. -/
def literal? : Operation → Option Value
  | literal v => some v
  | array elements => (literals? elements).map .array
  | _ => none

def literals? : List Operation → Option (List Value)
  | [] => some []
  | o :: os => do return (← literal? o) :: (← literals? os)

end

end Operation

/-- What a store knows of an operand. -/
inductive Operand where
  | field (name : String)
  | value (v : Value)
  | other

def Operand.ofOperation (o : Operation) : Operand :=
  match o.fieldName? with
  | some name => .field name
  | none =>
    match o.literal? with
    | some v => .value v
    | none => .other

namespace Clause

/-! ## Parts of selectors -/

/-- A selector of one condition. -/
def on (name : String) (condition : Json) : Json := .obj [(name, condition)]

/-- The operator that stands for a comparison. -/
def operatorName : BinaryOp → String
  | .eq => "$eq"
  | .neq => "$ne"
  | .lt => "$lt"
  | .lte => "$lte"
  | .gt => "$gt"
  | .gte => "$gte"
  | .member => "$in"
  | .and | .or | .textMatch => ""

/-- A field with a value of some other type. -/
def otherThan (field type : String) : Json :=
  on field (.obj [("$exists", .bool true), ("$not", on "$type" (.str type))])

/-- The reference to a field within an expression. -/
def fieldReference (field : String) : Json := .str ("$" ++ field)

/-- A comparison of two fields. -/
def fieldExpression (op : BinaryOp) (lhs rhs : String) : Json :=
  on "$expr" (on (operatorName op) (.arr [fieldReference lhs, fieldReference rhs]))

/-! ## Constants -/

/-- A known truth value. Anything but a boolean stays unknown, since its negation must not hold. -/
def ofValue : Value → Clause
  | .bool b => const b
  | _ => unknown

/-- An operator on known operands; an error leaves it to the engine to report. -/
def decided (op : BinaryOp) (lhs rhs : Value) : Clause :=
  match Operator.apply op lhs rhs with
  | .ok v => ofValue v
  | .error _ => unknown

/-! ## Comparisons -/

/-- A field compared with a value. An equality is written as the value itself unless that is an
object, which might read as an object of operators. -/
def comparison (op : BinaryOp) (field : String) (value : Json) : Json :=
  match op, value with
  | .eq, .obj fields => on field (on "$eq" (.obj fields))
  | .eq, value => on field value
  | op, value => on field (on (operatorName op) value)

def compare (op : BinaryOp) (lhs rhs : Operation) : Clause :=
  match Operand.ofOperation lhs, Operand.ofOperation rhs with
  | .value a, .value b => decided op a b
  | .field a, .field b => exactly (fieldExpression op a b)
  | .field field, .value v => exactly (comparison op field v.toJson)
  | .value v, .field field => exactly (comparison op.flipped field v.toJson)
  | _, _ => unknown

/-! ## Membership -/

/-- The pattern text of the strings that a path pattern contains; none when the path pattern has no
wildcard and so contains nothing. -/
def pathRegex? : List String → Option (List Char)
  | [] => none
  | segment :: rest =>
    if segment = "**" then some []
    else if segment = "*" then some "[^.]*$".toList
    else (pathRegex? rest).map ((Pattern.escape segment.toList ++ "\\.".toList) ++ ·)

/-- A field in a path pattern. Fields that hold no string are for the engine to refuse. -/
def fieldInPath (field : String) (pattern : Path) : Json :=
  match pathRegex? pattern.segments with
  | some regex =>
    combined "$or" [on field (on "$regex" (.str (String.ofList ('^' :: regex)))),
      otherThan field "string"]
  | none => otherThan field "string"

/-- An operand in a path pattern. -/
def memberOfPath (lhs : Operation) (pattern : Path) : Clause :=
  match Operand.ofOperation lhs with
  | .field field => atLeast (fieldInPath field pattern)
  | .value (.string candidate) => const (pattern.contains (Path.parse candidate))
  | _ => unknown

/-- Membership in a field or in known values. A field that holds no array is for the engine to
refuse. -/
def memberOf (lhs rhs : Operation) : Clause :=
  match Operand.ofOperation lhs, Operand.ofOperation rhs with
  | .value a, .value b => decided .member a b
  | .field field, .value (.array items) =>
    exactly (on field (on "$in" (.arr (items.map Value.toJson))))
  | .value .null, .field _ => unknown
  | .value v, .field field =>
    atLeast (combined "$or" [on field (on "$elemMatch" (on "$eq" v.toJson)),
      otherThan field "array"])
  | .field a, .field b =>
    atLeast (combined "$or" [fieldExpression .member a b, otherThan b "array"])
  | _, _ => unknown

def member (lhs rhs : Operation) : Clause :=
  match rhs with
  | .call .path [.literal (.string pattern)] => memberOfPath lhs (Path.parse pattern)
  | rhs => memberOf lhs rhs

/-! ## Full text -/

/-- Leave one of several wildcards in a row. -/
def squeeze : List Char → List Char
  | '*' :: '*' :: rest => squeeze ('*' :: rest)
  | c :: rest => c :: squeeze rest
  | [] => []

/-- The pattern text of a search term: blanks around it dropped, a wildcard for any text. -/
def termRegex (term : String) : String :=
  String.ofList ((squeeze (Text.trim term.toList)).flatMap fun c =>
    if c = '*' then ".*?".toList else Pattern.escape [c])

/-- The terms of a search, if all of them are known strings. -/
def searchTerms? (o : Operation) : Option (List String) :=
  match o.literal? with
  | some (.string term) => some [term]
  | some (.array items) => do
    let terms ← items.mapM Value.asString?
    if terms.isEmpty then none else some terms
  | _ => none

/-- A field that contains every term. -/
def fieldHasTerms (terms : List String) (field : String) : Json :=
  combined "$and" (terms.map fun term =>
    on field (.obj [("$options", .str "i"), ("$regex", .str (termRegex term))]))

/-- One of the fields that contains every term. -/
def fieldsHaveTerms (fields terms : List String) : Clause :=
  match fields.map (fieldHasTerms terms) with
  | [] => unknown
  | [single] => atLeast single
  | many => atLeast (combined "$or" many)

/-- A search for the terms in a field, in one of several fields, or in a known value. -/
def search (lhs rhs : Operation) : Clause :=
  match searchTerms? rhs with
  | none => unknown
  | some terms =>
    match Operand.ofOperation lhs, lhs with
    | .field field, _ => fieldsHaveTerms [field] terms
    | .value candidate, _ => ofValue (Match.value candidate (terms.map .string))
    | .other, .array elements =>
      match elements.mapM Operation.fieldName? with
      | some fields => fieldsHaveTerms fields terms
      | none => unknown
    | .other, _ => unknown

/-! ## Functions -/

/-- A field that is there and no empty array. -/
def defined (argument : Operation) : Clause :=
  match argument.fieldName? with
  | some field =>
    atLeast (on field (.obj [("$exists", .bool true), ("$not", on "$size" (.int 0))]))
  | none => unknown

/-- The ids among known arguments: strings, and the strings in arrays. -/
def idsOf : Value → List String
  | .string id => [id]
  | .array items => items.filterMap Value.asString?
  | _ => []

/-- The name under which a store keeps the references of a document. -/
def referencesField : String := "@refs"

/-- A document that refers to an id. -/
def refersTo (id : String) : Json :=
  on referencesField (on "$elemMatch" (on "id" (.str id)))

def references (arguments : List Operation) : Clause :=
  match Operation.literals? arguments with
  | none => unknown
  | some values =>
    match values.flatMap idsOf with
    | [] => const false
    | ids => exactly (combined "$or" (ids.map refersTo))

def call (function : Function) (arguments : List Operation) : Clause :=
  match function, arguments with
  | .defined, argument :: _ => defined argument
  | .references, arguments => references arguments
  | _, _ => unknown

/-! ## Filters -/

/-- The clause of a filter. A bare field is kept when it is `true`, but what the engine makes of
other values is left to it. -/
def ofFilter : Operation → Except StoreError Clause
  | .filter condition => ofFilter condition
  | .binary .and lhs rhs => do return (← ofFilter lhs).and (← ofFilter rhs)
  | .binary .or lhs rhs => do return (← ofFilter lhs).or (← ofFilter rhs)
  | .binary .member lhs rhs => .ok (member lhs rhs)
  | .binary .textMatch lhs rhs => .ok (search lhs rhs)
  | .binary op lhs rhs => .ok (compare op lhs rhs)
  | .not operand => do return (← ofFilter operand).not
  | .accessor path => .ok (match (Operation.accessor path).fieldName? with
    | some field => atLeast (on field (.bool true))
    | none => unknown)
  | .literal value => .ok (ofValue value)
  | .object _ | .array _ | .pipe _ _ => .ok unknown
  | .call function arguments => .ok (call function arguments)
  | o => .error (.unsupported o.kind)

end Clause
end DocQuery
