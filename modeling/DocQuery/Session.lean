import DocQuery.Fetch.Response
import DocQuery.Scope

/-!
# Sessions

What one execution remembers: the documents of each source it has fetched, the references of each
document it has looked at, and the fetches it has made. A source is fetched once and a document's
references are listed once; later questions are answered from here.

References are remembered under the document's `_id`, as a text. Two values with one id share an
entry, and the first one looked at (or the fetch that brought it) fills it.
-/

set_option autoImplicit false

namespace DocQuery

/-- The documents fetched for a source, and the logical position of the first. -/
structure SourceData where
  documents : List Value
  start : Nat
deriving Inhabited

/-- The caches of an execution. The latest entry for a source counts. -/
structure Context where
  sources : List (SourceId × SourceData)
  references : Fields (List Reference)

namespace Context

def empty : Context := ⟨[], []⟩

def source? (c : Context) (id : SourceId) : Option SourceData :=
  (c.sources.find? (·.1 == id)).map (·.2)

def hasSource (c : Context) (id : SourceId) : Bool := (c.source? id).isSome

/-- Keep a response as the data of a source. -/
def store (c : Context) (id : SourceId) (response : FetchResponse) : Context :=
  { sources := (id, ⟨response.results.map Value.ofJson, response.start⟩) :: c.sources
    references := c.references.merge (response.refs.getD []) }

/-- The references kept for a document id, or those that a scan of the value finds, which are then
kept. -/
def referencesOf (c : Context) (id : String) (value : Value) : List Reference × Context :=
  match c.references.get? id with
  | some found => (found, c)
  | none =>
    let found := findReferences value
    (found, { c with references := c.references.insert id found })

/-- The text that references of a document are kept under: its `_id`, if that is truthy. -/
def documentKey? (value : Value) : Option String := do
  let id ← value.get? "_id"
  guard id.isTruthy
  match id with
  | .string s => some s
  | id => some id.toJson.render

/-- Whether a document refers to one of the ids. -/
def refersTo (c : Context) (value : Value) (ids : List Value) : Bool × Context :=
  match documentKey? value with
  | none => (false, c)
  | some key =>
    let (found, c) := c.referencesOf key value
    (found.any fun r => ids.any fun id => id.asString? == some r.id, c)

end Context

/-- A fetch that was made: for which source, what was asked and what was answered. -/
structure FetchRecord where
  source : SourceId
  spec : FetchSpec
  answer : Except FetchError FetchResponse

structure Session where
  context : Context
  /-- The fetches so far, in order. -/
  fetches : List FetchRecord

def Session.empty : Session := ⟨.empty, []⟩

/-- Computations in a session. What a failing one has remembered stays remembered. -/
abbrev Run := ExceptT ExecError (StateM Session)

namespace Run

def context : Run Context := do return (← get).context

/-- Change the caches. -/
def modifyContext {α : Type} (f : Context → α × Context) : Run α := do
  let s : Session ← get
  let (a, c) := f s.context
  set { s with context := c }
  return a

/-- A result that does not depend on the session. -/
def ofExcept {α : Type} : Except ExecError α → Run α
  | .ok a => pure a
  | .error e => throw e

/-- Ask the fetcher for a source and keep its answer. A failure is recorded and keeps nothing. -/
def fetch (fetcher : Fetcher) (id : SourceId) (spec : FetchSpec) : Run Unit := do
  let s : Session ← get
  let answer := fetcher s.fetches.length spec
  let made : FetchRecord := ⟨id, spec, answer⟩
  let s := { s with fetches := s.fetches ++ [made] }
  match answer with
  | .ok response => set { s with context := s.context.store id response }
  | .error e => do
    set s
    throw (.fetch e)

end Run
end DocQuery
