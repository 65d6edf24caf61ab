import DocQuery.Engine
import DocQuery.Plan.Planner

/-!
# Queries

A query with all it needs besides a fetcher. Each execution has a session of its own, so a query can
be run any number of times and leaves nothing behind.
-/

set_option autoImplicit false

namespace DocQuery

structure Query where
  tree : Node
  /-- The values of the parameters. -/
  params : Params
  /-- A filter behind every source, such as what the asker may see. -/
  globalFilter : Option Node

namespace Query

/-- The plan of the query. -/
def operation (q : Query) : Except PlanError Operation := plan q.tree q.globalFilter q.params

/-- Plan and run the query. The fetches made are given along with the result. -/
def execute (q : Query) (fetcher : Fetcher) : Except QueryError Json × List FetchRecord :=
  match q.operation with
  | .error e => (.error (.plan e), [])
  | .ok o =>
    let (result, session) := (Engine.evaluate fetcher o).run.run .empty
    ((result.mapError .exec).map Value.toJson, session.fetches)

/-- The result of the query. -/
def result (q : Query) (fetcher : Fetcher) : Except QueryError Json := (q.execute fetcher).1

end Query

/-- Whether a document passes a filter: whether the filter keeps it when it is all there is. -/
def matchesFilter (document : Json) (filter : Node) (params : Params) : Except QueryError Bool := do
  let kept ← Query.result ⟨.filtered filter, params, none⟩ (.fullScan [document])
  return !(kept.asArray?.getD []).isEmpty

end DocQuery
