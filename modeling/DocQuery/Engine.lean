import DocQuery.Builtin
import DocQuery.Fetch.Join
import DocQuery.Operator

/-!
# Running plans

`exec` evaluates an operation in a scope. A pipeline first makes sure that its source is fetched,
then evaluates its first stage and sends the result through the others. `compileStages` folds the
stages behind a source into the specification of that fetch; for a map join it runs the join's inner
pipeline for every sibling, which may fetch in turn.

All of it recurses on operations and lists of stages: what is run is always a part of what is being
run. Running is therefore total, and a plan is evaluated in finitely many steps whatever the fetcher
answers.
-/

set_option autoImplicit false

namespace DocQuery
namespace Engine

/-! ## Stages over scopes

What a stage does to a result, given what it does to one scope. -/

/-- Every scope of a result by a function of its own. -/
def mapScopes (f : Scope → Run Scoped) : Scoped → Run Scoped
  | .one s => f s
  | .many items start => do
    let items ← items.mapM fun s => do return (← f s).collapse s
    return .many items start

/-- The scopes for which a condition is exactly `true`. -/
def keepScopes (condition : Scope → Run Scoped) : List Scope → Run (List Scope)
  | [] => return []
  | s :: rest => do
    let verdict ← condition s
    let rest ← keepScopes condition rest
    return if verdict.value.same (.bool true) then s :: rest else rest

def filterScopes (condition : Scope → Run Scoped) (input : Scoped) : Run Scoped := do
  let (items, start) := input.candidates
  return .many (← keepScopes condition items) start

/-- The scopes in the order of their keys. -/
def sortScopes (directions : List Direction) (keys : Scope → Run (List Value)) (input : Scoped) :
    Run Scoped := do
  let (items, start) := input.sortItems
  let keyed ← items.mapM fun s => do return (← keys s, s)
  return .many ((sortByKeys directions keyed).map (·.2)) start

/-! ## Fetch specifications -/

/-- The ids of a map join: truthy and without repetitions, in order. -/
def addIds (ids : List Value) : List Value → List Value
  | [] => ids
  | id :: rest =>
    if id.isTruthy && !ids.any (·.same id) then addIds (ids ++ [id]) rest else addIds ids rest

/-- The filter of a fetch for a map join. -/
def idFilter (ids : List Value) : Operation :=
  .binary .member (.attr "_id") (.literal (.array ids))

/-- The specification with its filter made independent of the enclosing document. A filter that had
to be changed is fetched by alone, and one that cannot be changed not at all. -/
def finish (s : Scope) (spec : FetchSpec) : Run FetchSpec := do
  match spec.filter with
  | none => return spec
  | some filter =>
    match ← Run.ofExcept (Join.generalize (← Run.context) s filter) with
    | none => return .everything
    | some widened => return if widened.same filter then spec else .filtered widened

variable (fetcher : Fetcher)

mutual

/-- Evaluate an operation. -/
def exec : Operation → Scope → Run Scoped
  | .source id, s => do
    match (← Run.context).source? id with
    | some data => return .one (s.ofSource id (.array data.documents) data.start)
    | none => throw (.unknownSource id)
  | .filter condition, s => exec condition s
  | .binary op lhs rhs, s => do
    let a ← exec lhs s
    let b ← exec rhs s
    return .one (s.derived (← Run.ofExcept (Operator.apply op a.value b.value)))
  | .not operand, s => do
    let a ← exec operand s
    return .one (s.derived (Operator.negation a.value))
  | .accessor path, s => return .one (s.resolve path)
  | .literal value, _ => return .one (.detached value)
  | .object members, s => do
    return .one (s.withValue (.object (← execMembers members s [])))
  | .array elements, s => do
    return .one (s.withValue (.array (← execAll elements s)))
  | .call function arguments, s => do
    let values ← execAll arguments s
    return .one (s.withValue (← Builtin.call function s.value values))
  | .pipe stages _, s => run stages s
  | .mapJoin stages, s => do
    let ids ← run stages (s.parent.getD .root)
    return s.lookupAll ids.value
  | .assignment name value, _ => throw (.invalidOperation (Operation.assignment name value).kind)
  | .splat, _ => throw (.invalidOperation Operation.splat.kind)
  | .subscript w, _ => throw (.invalidOperation (Operation.subscript w).kind)
  | .range a b i, _ => throw (.invalidOperation (Operation.range a b i).kind)
  | .ordering terms, _ => throw (.invalidOperation (Operation.ordering terms).kind)
  | .sortDirection term, _ => throw (.invalidOperation (Operation.sortDirection term).kind)

/-- The values of operations, one after the other. -/
def execAll : List Operation → Scope → Run (List Value)
  | [], _ => return []
  | o :: os, s => do
    let a ← exec o s
    let rest ← execAll os s
    return a.value :: rest

/-- The fields of an object expression on top of those so far. A null member is left out. -/
def execMembers : List Member → Scope → Fields Value → Run (Fields Value)
  | [], _, fields => return fields
  | .assignment name value :: ms, s, fields => do
    let a ← exec value s
    execMembers ms s (if a.value.isNull then fields else fields.insert name a.value)
  | .splat :: ms, s, fields => execMembers ms s (fields.merge (s.value.asObject?.getD []))

/-- The sort keys of a scope. -/
def execKeys : List SortTerm → Scope → Run (List Value)
  | [], _ => return []
  | .mk e _ :: ts, s => do
    let a ← exec e s
    let rest ← execKeys ts s
    return a.value :: rest

/-- Run a pipeline: fetch its source unless that has been done, evaluate the first stage and apply
the others. -/
def run : List Operation → Scope → Run Scoped
  | [], s => return .one (s.derived .null)
  | first :: rest, s => do
    match first with
    | .source id =>
      if !(← Run.context).hasSource id then
        Run.fetch fetcher id (← finish s (← compileStages rest s))
    | _ => pure ()
    let input ← exec first s
    applyStages rest input s

/-- Apply the stages after the first. `base` is the scope that the pipeline runs in. -/
def applyStages : List Operation → Scoped → Scope → Run Scoped
  | [], input, _ => return input
  | stage :: rest, input, base => do
    let next ← match stage with
      | .subscript w => pure (input.subscript w)
      | .ordering terms =>
        sortScopes (terms.map (·.direction)) (fun s => execKeys terms s) input
      | .filter condition => filterScopes (fun s => exec condition s) input
      | .mapJoin stages => do
        let ids ← run stages base
        pure ((input.joinOwner base).lookupAll ids.value)
      | stage => mapScopes (fun s => exec stage s) input
    applyStages rest next base

/-- The specification that the stages behind a source fold into, from the last to the first. -/
def compileStages : List Operation → Scope → Run FetchSpec
  | [], _ => return .everything
  | stage :: rest, s => do
    let spec ← compileStages rest s
    match stage with
    | .filter condition => return spec.applyFilter condition
    | .subscript w => return spec.applySubscript w
    | .ordering terms => return spec.applyOrdering terms
    | .mapJoin stages => do
      -- positions and order behind a join are those of its ids, not of the source
      let spec := { FetchSpec.everything with filter := spec.filter }
      match Join.siblings? (← Run.context) s with
      | none => return spec
      | some subjects => do
        let found ← subjects.mapM fun v => run stages (.detached v)
        let ids := found.foldl (fun ids r => addIds ids (Join.spread r.value)) []
        return spec.applyFilter (idFilter ids)
    | .object _ | .accessor _ | .array _ | .pipe _ _ | .call _ _ | .literal _ | .binary _ _ _
    | .not _ => return spec.project
    | stage => throw (.uncompilableStage stage.kind)

end

/-- The specification of the fetch that a pipeline makes. -/
def compile (stages : List Operation) (s : Scope) : Run FetchSpec :=
  match stages with
  | .source _ :: rest => do finish s (← compileStages fetcher rest s)
  | _ => throw .notASource

/-- The value of a plan. -/
def evaluate (operation : Operation) : Run Value := do
  return (← exec fetcher operation .root).value

end Engine
end DocQuery
