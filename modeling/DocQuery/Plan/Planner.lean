import DocQuery.Plan.Naming
import DocQuery.Plan.Traversal
import DocQuery.Syntax.Node

/-!
# From syntax to plan

`compose` turns a syntax tree into an operation tree and takes the sugar out of it:

* `x->` becomes a pipeline over all documents, filtered by `_id == ^.x._ref`, and its first element;
* `x[]->` becomes a map join of all documents over the ids `x[]._ref`;
* `order(…)` becomes an ordering, and a literal in it the attribute of that name;
* a parameter becomes the literal bound to it;
* members of objects get their names.

Source ids are counted from 1 in the order of composition. A global filter is composed last, once,
and put after every source by `restrict`; ids inside it are the same in each copy.
-/

set_option autoImplicit false

namespace DocQuery

/-- Values bound to the parameters of a query. -/
abbrev Params := Fields Json

namespace Planner

/-- Planning counts sources and may fail. -/
abbrev Plan := StateT SourceId (Except PlanError)

/-- A source with the next free id. -/
def newSource : Plan Operation := do
  let id ← get
  set (id + 1)
  return .source id

/-! ## Operators -/

/-- The bound after an inclusive one. -/
def past (bound : Int) : Except PlanError Int :=
  if bound + 1 ≤ maxInt64 then .ok (bound + 1) else .error (.subscriptOutOfRange bound)

/-- A sort key. A literal is the name of an attribute: a string itself, anything else its text. -/
def sortTerm (expression : Operation) (direction : Direction) : SortTerm :=
  match expression with
  | .literal (.string name) => .mk (.attr name) direction
  | .literal value => .mk (.attr value.toJson.render) direction
  | e => .mk e direction

/-- Put a stage behind an operation. -/
def pipeInto (lhs rhs : Operation) : Operation :=
  match lhs with
  | .pipe stages name => .pipe (stages ++ [rhs]) name
  | o => .pipe [o, rhs] none

/-- Attribute access: accessors join, anything else becomes a pipeline. -/
def access (lhs rhs : Operation) : Operation :=
  match lhs, rhs with
  | .accessor path, .accessor rest => .accessor (path ++ rest)
  | lhs, rhs => pipeInto lhs rhs

/-- The operation of a binary operator; a colon names a member. -/
def binary (operator : BinaryOperator) (lhs rhs : Operation) : Except PlanError Operation :=
  match operator with
  | .and => .ok (.binary .and lhs rhs)
  | .or => .ok (.binary .or lhs rhs)
  | .equals => .ok (.binary .eq lhs rhs)
  | .notEquals => .ok (.binary .neq lhs rhs)
  | .less => .ok (.binary .lt lhs rhs)
  | .lessEqual => .ok (.binary .lte lhs rhs)
  | .greater => .ok (.binary .gt lhs rhs)
  | .greaterEqual => .ok (.binary .gte lhs rhs)
  | .member => .ok (.binary .member lhs rhs)
  | .textMatch => .ok (.binary .textMatch lhs rhs)
  | .colon =>
    match lhs with
    | .literal (.string name) => .ok (.assignment name rhs)
    | _ => .error .invalidAssignmentKey

/-- Follow a reference, or the references in an array. What is neither refers to nothing. -/
def dereference (operand : Operation) : Plan Operation := do
  let name := operand.memberName?
  match operand with
  | .accessor path =>
    let source ← newSource
    let reference := .accessor (.parent :: path ++ [.attr "_ref"])
    return .pipe
      [source, .filter (.binary .eq reference (.attr "_id")), .subscript ⟨0, 1, true⟩] name
  | .pipe stages _ =>
    let source ← newSource
    return .pipe [source, .mapJoin (stages ++ [.attr "_ref"])] name
  | _ => return .pipe [.literal .null] none

def postfixed (operator : PostfixOperator) (operand : Operation) : Plan Operation :=
  match operator with
  | .asc => pure (.sortDirection (sortTerm operand .asc))
  | .desc => pure (.sortDirection (sortTerm operand .desc))
  | .arrow => dereference operand

/-- Whether a function takes this many arguments. -/
def takes : Function → Nat → Bool
  | .path, n | .count, n | .length, n | .defined, n => n == 1
  | .joinPaths, n => n == 2
  | .references, n => 1 ≤ n
  | .coalesce, _ => true

def orderTerm : Operation → SortTerm
  | .sortDirection term => term
  | o => sortTerm o .asc

def call (name : String) (arguments : List Operation) : Except PlanError Operation :=
  if name = "order" then .ok (.ordering (arguments.map orderTerm))
  else match Function.ofName? name with
    | none => .error (.unknownFunction name)
    | some function =>
      if takes function arguments.length then .ok (.call function arguments)
      else .error (.arity function arguments.length)

/-- The integer of a bound. -/
def bound : Operation → Except PlanError Int
  | .literal (.int n) => .ok n
  | o => .error (.invalidSubscript o.kind)

/-! ## Composition -/

mutual

/-- The operation of a syntax tree. -/
def compose (params : Params) : Node → Plan Operation
  | .pipe lhs rhs => do
    let lhs ← compose params lhs
    let rhs ← compose params rhs
    return pipeInto lhs rhs
  | .dot lhs rhs => do
    let lhs ← compose params lhs
    let rhs ← compose params rhs
    return access lhs rhs
  | .everything => do return .pipe [← newSource] none
  | .constraint none => return .filter (.literal (.bool true))
  | .constraint (some e) => do return .filter (← compose params e)
  | .binary operator lhs rhs => do
    let lhs ← compose params lhs
    let rhs ← compose params rhs
    binary operator lhs rhs
  | .not operand => do return .not (← compose params operand)
  | .postfixed operator operand => do postfixed operator (← compose params operand)
  | .attr name => return .attr name
  | .parent => return .accessor [.parent]
  | .object members => do
    let members ← composeAll params members
    let members : List Member ← liftM (members.mapM Operation.toMember)
    return .object members
  | .array elements => do return .array (← composeAll params elements)
  | .subscript (.range start stop inclusive) => do
    let start ← bound (← compose params start)
    let stop ← bound (← compose params stop)
    let stop ← if inclusive then past stop else pure stop
    return .subscript ⟨start, stop, false⟩
  | .subscript index => do
    let index ← bound (← compose params index)
    return .subscript ⟨index, ← past index, true⟩
  | .range start stop inclusive => do
    let start ← compose params start
    let stop ← compose params stop
    return .range start stop inclusive
  | .ellipsis => return .splat
  | .functionCall name arguments => do call name (← composeAll params arguments)
  | .param name =>
    match params.get? name with
    | some j => return .literal (.ofJson j)
    | none => throw (.unknownParameter name)
  | .integer n => return .literal (.int n)
  | .float d => return .literal (.float d)
  | .string s => return .literal (.string s)
  | .bool b => return .literal (.bool b)
  | .null => return .literal .null

def composeAll (params : Params) : List Node → Plan (List Operation)
  | [] => return []
  | n :: ns => do
    let o ← compose params n
    let os ← composeAll params ns
    return o :: os

end

/-! ## The global filter -/

/-- Put a filter after every source among the stages of a pipeline. -/
def afterSources (filter : Operation) : List Operation → List Operation
  | [] => []
  | .source id :: stages => .source id :: .filter filter :: afterSources filter stages
  | stage :: stages => stage :: afterSources filter stages

/-- Put a filter after every source of every pipeline in a plan. -/
def restrict (filter operation : Operation) : Operation :=
  Id.run (operation.transform fun
    | .pipe stages name => pure (.pipe (afterSources filter stages) name)
    | o => pure o)

end Planner

/-- Plan a query; with a global filter every source is restricted to the documents that pass it. -/
def plan (query : Node) (globalFilter : Option Node) (params : Params) :
    Except PlanError Operation := do
  let (operation, next) ← (Planner.compose params query).run 1
  match globalFilter with
  | none => return operation
  | some filter =>
    let (filter, _) ← (Planner.compose params filter).run next
    return Planner.restrict filter operation

end DocQuery
