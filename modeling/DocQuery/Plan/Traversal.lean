import DocQuery.Plan.Operation

/-!
# Transforming a plan from the leaves up

`transform f` replaces every operation of a tree by its image under `f`, children first: `f` sees an
operation whose parts are already transformed. `f` may fail or keep a state; operations are visited
in the order in which they are written.

The inner pipeline of a `mapJoin` is part of that operation. Its stages are transformed, but `f` is
not called with a pipeline for it.
-/

set_option autoImplicit false

namespace DocQuery
namespace Operation

variable {m : Type → Type} [Monad m]

mutual

def transform (f : Operation → m Operation) : Operation → m Operation
  | source id => f (source id)
  | filter condition => do f (filter (← transform f condition))
  | binary op lhs rhs => do
    let lhs ← transform f lhs
    let rhs ← transform f rhs
    f (binary op lhs rhs)
  | not operand => do f (not (← transform f operand))
  | accessor path => f (accessor path)
  | literal value => f (literal value)
  | object members => do f (object (← transformMembers f members))
  | array elements => do f (array (← transformAll f elements))
  | assignment name value => do f (assignment name (← transform f value))
  | splat => f splat
  | subscript window => f (subscript window)
  | range start stop inclusive => do
    let start ← transform f start
    let stop ← transform f stop
    f (range start stop inclusive)
  | ordering terms => do f (ordering (← transformTerms f terms))
  | sortDirection (.mk e d) => do f (sortDirection (.mk (← transform f e) d))
  | call function arguments => do f (call function (← transformAll f arguments))
  | pipe stages name => do f (pipe (← transformAll f stages) name)
  | mapJoin stages => do f (mapJoin (← transformAll f stages))

def transformAll (f : Operation → m Operation) : List Operation → m (List Operation)
  | [] => pure []
  | o :: os => do
    let o ← transform f o
    let os ← transformAll f os
    return o :: os

def transformMembers (f : Operation → m Operation) : List Member → m (List Member)
  | [] => pure []
  | .assignment name value :: ms => do
    let value ← transform f value
    let ms ← transformMembers f ms
    return .assignment name value :: ms
  | .splat :: ms => do
    let ms ← transformMembers f ms
    return .splat :: ms

def transformTerms (f : Operation → m Operation) : List SortTerm → m (List SortTerm)
  | [] => pure []
  | .mk e d :: ts => do
    let e ← transform f e
    let ts ← transformTerms f ts
    return .mk e d :: ts

end

end Operation
end DocQuery
