import DocQuery.Json.Printer
import DocQuery.Operator
import DocQuery.Pattern.Storage

/-!
# Selectors

A selector is a JSON object that says which documents a store should give. Its keys are dotted field
names with conditions on them, or one of `$and`, `$or`, `$nor` with a list of selectors, or `$expr`
with a comparison of fields. A condition is a value to be equal to, or an object of operators. All
parts have to hold; they are tried in the order of their names and the first one that does not hold
ends the search, so a fault behind it goes unnoticed.

Comparisons are those of the engine (`Operator.holds`) and hold only where the engine answers
`true`. What is unknown to the engine does not hold here; `$nor` and `$not` then turn it into a
match.
-/

set_option autoImplicit false

namespace DocQuery
namespace Selector

/-- The value at a dotted name. Only objects are entered. -/
def lookup (document : Json) (path : String) : Option Json :=
  (Path.parse path).segments.foldlM (fun j name => j.get? name) document

/-- Whether a condition is an object of operators. -/
def isOperatorDocument : Json → Bool
  | .obj fields => !fields.isEmpty && fields.all fun f => f.1.startsWith "$"
  | _ => false

/-- Whether the engine's comparison of a field with an operand is `true`. A missing field is null.
-/
def holds (op : BinaryOp) (value : Option Json) (operand : Json) : Bool :=
  Operator.holds op (Value.ofJson? value) (Value.ofJson operand)

/-- The comparison that an operator of a condition stands for. -/
def comparison? : String → Option BinaryOp
  | "$eq" => some .eq
  | "$ne" => some .neq
  | "$gt" => some .gt
  | "$gte" => some .gte
  | "$lt" => some .lt
  | "$lte" => some .lte
  | _ => none

def notAnArray (j : Json) : StoreError :=
  .invalidSelector ("expected an array, got " ++ j.render)

/-- The items of an operand that has to be an array. -/
def itemsOf : Json → Except StoreError (List Json)
  | .arr items => .ok items
  | j => .error (notAnArray j)

/-! ## Conditions without parts of their own -/

/-- Whether a field is of the type named. A missing one has no type, whatever the name. -/
def hasType (value : Option Json) (expected : Json) : Except StoreError Bool :=
  match value with
  | none => .ok false
  | some value =>
    match expected with
    | .str "array" => .ok (value matches .arr _)
    | .str "object" => .ok (value matches .obj _)
    | .str "string" => .ok (value matches .str _)
    | .str "number" => .ok (value matches .int _ | .float _)
    | .str "bool" => .ok (value matches .bool _)
    | .str "null" => .ok value.isNull
    | _ => .error (.invalidSelector ("unknown $type " ++ expected.render))

/-- Whether an array has the number of items asked for. -/
def hasSize (value : Option Json) (expected : Json) : Bool :=
  match value, expected.asNat? with
  | some (.arr items), some n => items.length == n
  | _, _ => false

/-- Why an expression does not compile. -/
def refusal (text : String) (ignoreCase : Bool) : PatternError :=
  if (Pattern.parse? text ignoreCase).isSome then .tooLarge Pattern.Tally.limit else .malformed

/-- Whether a string, or one of the strings in an array, contains a match of a pattern. The option
`i` ignores case. -/
def hasPattern (value : Option Json) (pattern : Json) (options : Option Json) :
    Except StoreError Bool :=
  match pattern with
  | .str text =>
    let ignoreCase := ((options.bind Json.asString?).getD "").contains 'i'
    match Pattern.compile? text ignoreCase with
    | none => .error (.pattern (refusal text ignoreCase))
    | some p => .ok (match value with
      | some (.str s) => p.occursIn s
      | some (.arr items) => (items.filterMap Json.asString?).any p.occursIn
      | _ => false)
  | j => .error (.invalidSelector ("$regex must be a string, got " ++ j.render))

/-! ## Expressions -/

/-- The value of an operand in an expression: that of a field when it is a string with `$` in front.
-/
def operandValue (document : Json) : Json → Value
  | .str s =>
    match s.toList with
    | '$' :: name => Value.ofJson? (lookup document (String.ofList name))
    | _ => .string s
  | j => Value.ofJson j

/-- Whether an expression, one comparison of two operands, holds for a document. -/
def expressionHolds (expression document : Json) : Except StoreError Bool :=
  let unsupported := StoreError.invalidSelector ("unsupported $expr " ++ expression.render)
  match expression with
  | .obj [(name, operands)] => do
    match ← itemsOf operands with
    | [lhs, rhs] =>
      match if name = "$in" then some .member else comparison? name with
      | some op => return Operator.holds op (operandValue document lhs) (operandValue document rhs)
      | none => throw unsupported
    | _ => throw unsupported
  | _ => .error unsupported

/-! ## Evaluation -/

mutual

/-- Whether a document is one that a selector asks for. -/
def accepts : Json → Json → Except StoreError Bool
  | .obj clauses, document => acceptsClauses clauses document
  | j, _ => .error (.invalidSelector ("selector must be an object, got " ++ j.render))
termination_by structural c => c

def acceptsClauses : List (String × Json) → Json → Except StoreError Bool
  | [], _ => .ok true
  | (name, condition) :: rest, document => do
    let here ←
      if name = "$and" then
        match condition with
        | .arr selectors => acceptsAll selectors document
        | j => .error (notAnArray j)
      else if name = "$or" then
        match condition with
        | .arr selectors => acceptsAny selectors document
        | j => .error (notAnArray j)
      else if name = "$nor" then
        match condition with
        | .arr selectors => not <$> acceptsAny selectors document
        | j => .error (notAnArray j)
      else if name = "$expr" then expressionHolds condition document
      else meets condition (lookup document name)
    if here then acceptsClauses rest document else return false
termination_by structural c => c

def acceptsAll : List Json → Json → Except StoreError Bool
  | [], _ => .ok true
  | selector :: rest, document => do
    if ← accepts selector document then acceptsAll rest document else return false
termination_by structural c => c

def acceptsAny : List Json → Json → Except StoreError Bool
  | [], _ => .ok false
  | selector :: rest, document => do
    if ← accepts selector document then return true else acceptsAny rest document
termination_by structural c => c

/-- Whether a field meets a condition. -/
def meets : Json → Option Json → Except StoreError Bool
  | .obj operators, value =>
    if isOperatorDocument (.obj operators) then meetsAll operators operators value
    else .ok (holds .eq value (.obj operators))
  | condition, value => .ok (holds .eq value condition)
termination_by structural c => c

/-- Whether a field meets the operators in a list. The whole condition is at hand because `$regex`
looks for its `$options` there. -/
def meetsAll : List (String × Json) → Fields Json → Option Json → Except StoreError Bool
  | [], _, _ => .ok true
  | (name, operand) :: rest, condition, value => do
    let here ←
      match comparison? name with
      | some op => pure (holds op value operand)
      | none =>
        match name with
        | "$in" => (·.any (holds .eq value)) <$> itemsOf operand
        | "$exists" => pure (value.isSome == operand.asBool?.getD true)
        | "$size" => pure (hasSize value operand)
        | "$type" => hasType value operand
        | "$regex" => hasPattern value operand (Fields.get? condition "$options")
        | "$options" => pure true
        | "$not" => not <$> meets operand value
        | "$elemMatch" =>
          match value with
          | some (.arr items) =>
            items.anyM fun item =>
              if isOperatorDocument operand then meets operand (some item)
              else match item with
                | .obj _ => accepts operand item
                | _ => pure false
          | _ => pure false
        | _ => .error (.invalidSelector ("unknown operator " ++ name))
    if here then meetsAll rest condition value else return false
termination_by structural c => c

end

end Selector
end DocQuery
