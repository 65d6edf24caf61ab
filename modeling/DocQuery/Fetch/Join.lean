import DocQuery.Session

/-!
# Joins without the enclosing document

A nested pipeline is fetched once for all the documents around it. A filter in it that compares with
the enclosing document (`^`) is therefore widened before the fetch: the value of the accessor is
replaced by the values it has in all siblings, the documents fetched along with the enclosing one.
An equality becomes a membership in those values.

This can be done only where the siblings are known. A value computed on the way from the source has
none to be found, and then the answer is `none`: nothing can be fetched by such a filter.
-/

set_option autoImplicit false

namespace DocQuery
namespace Join

/-- The elements of an array, or a value alone. -/
def spread : Value → List Value
  | .array items => items
  | v => [v]

/-- The values at a scope's place in every document of its source. A scope that has no fetched
source stands alone. -/
def siblings? (c : Context) (s : Scope) : Option (List Value) :=
  match s.source.bind c.source? with
  | none => some [s.value]
  | some data =>
    if s.computed then none
    else some (data.documents.flatMap fun d => spread (followPath d s.path))

/-- What an accessor gives from a scope's place in each sibling, nulls left out. -/
def valuesFrom (c : Context) (s : Scope) (steps : List PathStep) : Option (List Value) :=
  (siblings? c s).map fun values =>
    (values.map fun v => ((s.withValue v).resolve steps).value).filter (!·.isNull)

/-- The values of an accessor: walk out of the enclosing scopes, then read attributes in all
siblings of the scope reached. -/
def accessorValues (c : Context) (s : Scope) : List PathStep → Option (List Value)
  | [] => some (if s.value.isNull then [] else [s.value])
  | .parent :: steps =>
    match s.parent with
    | none => some []
    | some p => accessorValues c p steps
  | .attr name :: steps => valuesFrom c s (.attr name :: steps)

/-- The values of an operand, an accessor of the document that a scope is about to fetch for. -/
def joinValues (c : Context) (s : Scope) : Operation → Option (List Value)
  | .accessor steps => accessorValues c (s.child (.object [])) steps
  | _ => some []

/-- An equality with one of the values. -/
def widenEq (constant : Operation) : List Value → Operation
  | [] => .literal (.bool false)
  | [v] => .binary .eq constant (.literal v)
  | values => .binary .member constant (.literal (.array values))

/-- An operand in one of the values; arrays among these stand for their elements. -/
def widenMember (lhs : Operation) (values : List Value) : Operation :=
  let candidates := values.flatMap spread
  if candidates.isEmpty then .literal (.bool false)
  else .binary .member lhs (.literal (.array candidates))

/-- One of the values in an operand. -/
def widenMembers (rhs : Operation) : List Value → Operation
  | [] => .literal (.bool false)
  | v :: values =>
    values.foldl (fun o v => .binary .or o (.binary .member (.literal v) rhs))
      (.binary .member (.literal v) rhs)

/-- Replace the accessors among the arguments of `references()` by their values. -/
def widenArguments (c : Context) (s : Scope) : List Operation → Option (List Operation)
  | [] => some []
  | o :: os => do
    let here ← if o.isParentAccessor then (joinValues c s o).map (·.map .literal) else some [o]
    let rest ← widenArguments c s os
    return here ++ rest

/-- A filter that does not need the enclosing document, and holds wherever the given one holds for
some sibling of the enclosing document. Only comparisons under `and`, `or` and `not` are looked at.
-/
def generalize (c : Context) (s : Scope) : Operation → Except ExecError (Option Operation)
  | .binary .and lhs rhs => do
    match ← generalize c s lhs with
    | none => return none
    | some lhs => return (← generalize c s rhs).map (.binary .and lhs)
  | .binary .or lhs rhs => do
    match ← generalize c s lhs with
    | none => return none
    | some lhs => return (← generalize c s rhs).map (.binary .or lhs)
  | .not operand => do return (← generalize c s operand).map .not
  | .binary .eq lhs rhs =>
    match lhs.isParentAccessor, rhs.isParentAccessor with
    | true, true => .error .joinOnBothSides
    | false, false => .ok (some (.binary .eq lhs rhs))
    | true, false => .ok ((joinValues c s lhs).map (widenEq rhs))
    | false, true => .ok ((joinValues c s rhs).map (widenEq lhs))
  | .binary .member lhs rhs =>
    match lhs.isParentAccessor, rhs.isParentAccessor with
    | true, true => .error .joinOnBothSides
    | false, false => .ok (some (.binary .member lhs rhs))
    | false, true => .ok ((joinValues c s rhs).map (widenMember lhs))
    | true, false => .ok ((joinValues c s lhs).map (widenMembers rhs))
  | .call .references arguments =>
    if arguments.any (·.isParentAccessor) then
      .ok ((widenArguments c s arguments).map (.call .references))
    else .ok (some (.call .references arguments))
  | o => .ok (some o)

end Join
end DocQuery
