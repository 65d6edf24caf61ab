import DocQuery.Json.Reader
import DocQuery.Query
import DocQuery.Store.Collection
import DocQuery.Syntax.Reader

/-!
# Commands

Running and explaining queries that are given as texts: a syntax tree in JSON, and documents in a
JSON array.
-/

set_option autoImplicit false

namespace DocQuery

/-- What a command is given. -/
structure CommandInput where
  query : String
  documents : Option String
  globalFilter : Option String
  params : Params
  /-- Whether the collection sorts and cuts. -/
  pushdown : Bool

/-- What `explain` tells of a query: its plan, and the fetch of its root source if it has one. -/
structure Explanation where
  operation : Operation
  fetch : Option FetchSpec

def Explanation.toJson (e : Explanation) : Json :=
  let fetch := match e.fetch with
    | some spec => [("fetch", spec.toJson)]
    | none => []
  .obj (fetch ++ [("operation", e.operation.toJson)])

namespace Command

/-- Read a JSON text. -/
def parseJson (text : String) : Except CommandError Json :=
  match Json.parse? text with
  | some j => .ok j
  | none => .error .json

/-- Read a syntax tree. Its fields are looked at as written, since a repeated one is refused. -/
def parseTree (text : String) : Except CommandError Node := do
  match Node.ofJson? (← parseJson text) with
  | some node => return node
  | none => throw .json

/-- A parameter `name=value`. A value that is no JSON is taken as a string. -/
def parseParam (text : String) : Except CommandError (String × Json) :=
  let cs := text.toList
  let name := cs.takeWhile (· != '=')
  match cs.dropWhile (· != '=') with
  | '=' :: value =>
    if name.isEmpty then .error (.param text)
    else
      let value := String.ofList value
      .ok (String.ofList name, ((Json.parse? value).map Json.normalize).getD (.str value))
  | _ => .error (.param text)

/-- The query of the input. -/
def query (input : CommandInput) : Except CommandError Query := do
  let tree ← parseTree input.query
  let globalFilter ← input.globalFilter.mapM parseTree
  return ⟨tree, input.params, globalFilter⟩

/-- The collection of the input. -/
def collection (input : CommandInput) : Except CommandError Collection := do
  match input.documents with
  | none => throw .noDocuments
  | some text =>
    match (← parseJson text).normalize with
    | .arr documents => (Collection.ofDocuments input.pushdown documents).mapError .documents
    | _ => throw .json

/-- Run a query over the documents. -/
def run (input : CommandInput) : Except CommandError Json := do
  let collection ← collection input
  ((← query input).result collection.fetcher).mapError .query

/-- The fetch that a plan's root source makes. -/
def rootFetch (fetcher : Fetcher) : Operation → Except ExecError (Option FetchSpec)
  | .pipe (.source id :: stages) _ =>
    ((Engine.compile fetcher (.source id :: stages) .root).run.run .empty).1.map some
  | _ => .ok none

/-- Plan a query and compile its root pipeline without running it. Joins on the way look into the
documents, of which there are none unless they are given. -/
def explain (input : CommandInput) : Except CommandError Explanation := do
  let operation ← (← query input).operation.mapError fun e => .query (.plan e)
  let collection ← if input.documents.isSome then collection input
    else pure (Collection.empty input.pushdown)
  let fetch ← (rootFetch collection.fetcher operation).mapError fun e => .query (.exec e)
  return ⟨operation, fetch⟩

end Command
end DocQuery
