import DocQuery.Fetch.Response
import DocQuery.Store.Selector
import DocQuery.Store.StoreQuery

/-!
# Document collections

Documents in the order they were first stored; one with the `_id` of another takes its place. Beside
the fields of a document with a truthy `_id` its references are stored under `@refs`, so that a
selector can ask for them. Documents go out without that field.

`fetch` answers a fetch specification. Order and window are applied only where that cannot change
what the engine makes of the answer: when the selector is exact, every sort key is a field, and the
collection pushes down at all. Otherwise it gives every document the selector accepts.
-/

set_option autoImplicit false

namespace DocQuery

structure Collection where
  /-- Whether order and window are applied here. -/
  pushdown : Bool
  documents : List Json

namespace Collection

def empty (pushdown : Bool) : Collection := ⟨pushdown, []⟩

/-- A document as it is stored. -/
def stored (fields : Fields Json) : Json :=
  let fields := fields.erase Clause.referencesField
  let value := Value.ofJson (.obj fields)
  if (value.getD "_id").isTruthy then
    .obj (fields.insert Clause.referencesField (Reference.listToJson (findReferences value)))
  else .obj fields

/-- A stored document as it was given, and its references. -/
def unstored : Json → Json × List Reference
  | .obj fields =>
    (.obj (Fields.erase fields Clause.referencesField),
      ((Fields.get? fields Clause.referencesField).bind Reference.listOfJson?).getD [])
  | j => (j, [])

/-- Whether a document has a given `_id`. -/
def hasId (id document : Json) : Bool :=
  match document.get? "_id" with
  | some other => other.same id
  | none => false

/-- Put a document in the place of the first one with its id, or at the end. -/
def place (document id : Json) : List Json → List Json
  | [] => [document]
  | d :: ds => if hasId id d then document :: ds else d :: place document id ds

/-- Store a document. -/
def insert (c : Collection) : Json → Except StoreError Collection
  | .obj fields =>
    let document := stored fields
    .ok { c with documents := match document.get? "_id" with
      | none | some .null => c.documents ++ [document]
      | some id => place document id c.documents }
  | _ => .error (.invalidDocument "documents must be objects")

/-- A collection of the given documents. -/
def ofDocuments (pushdown : Bool) (documents : List Json) : Except StoreError Collection :=
  documents.foldlM insert (empty pushdown)

/-- The `_id` of a document if it is a string. -/
def stringId? (document : Json) : Option String := (document.get? "_id").bind Json.asString?

/-- The document with a string for its id. -/
def getById? (c : Collection) (id : String) : Option Json :=
  (c.documents.find? fun d => stringId? d == some id).map fun d => (unstored d).1

/-- The documents of a list that a selector accepts. -/
def select (selector : Json) : List Json → Except StoreError (List Json)
  | [] => .ok []
  | d :: ds => do
    let accepted ← Selector.accepts selector d
    let rest ← select selector ds
    return if accepted then d :: rest else rest

/-- The texts of a list without repetitions, in order. -/
def distinct (seen : List String) : List String → List String
  | [] => seen
  | s :: ss => distinct (if seen.contains s then seen else seen ++ [s]) ss

/-- The ids of the documents that refer to an id, weakly or not. -/
def referencing (c : Collection) (id : String) (weak : Bool) : Except StoreError (List String) := do
  let strong := if weak then [] else [("weak", Json.bool false)]
  let selector := Clause.on Clause.referencesField
    (Clause.on "$elemMatch" (.obj (("id", .str id) :: strong)))
  return distinct [] ((← select selector c.documents).filterMap stringId?)

/-- Documents in the order of some of their fields. -/
def sortDocuments (keys : List (String × Direction)) (documents : List Json) : List Json :=
  let keyed := documents.map fun d =>
    (keys.map fun key => Value.ofJson? (Selector.lookup d key.1), d)
  (sortByKeys (keys.map (·.2)) keyed).map (·.2)

/-- The part of a list that an offset and a limit give. -/
def window (offset : Nat) (limit : Option Nat) (documents : List Json) : List Json :=
  match limit with
  | some n => (documents.drop offset).take n
  | none => documents.drop offset

/-- The references of stored documents, under those of their ids that are strings. -/
def referencesOf (documents : List Json) : Fields (List Reference) :=
  Fields.ofList (documents.filterMap fun d => (stringId? d).map (·, (unstored d).2))

/-- A response with stored documents. -/
def respond (documents : List Json) (start : Nat) : FetchResponse :=
  ⟨documents.map fun d => (unstored d).1, start, some (referencesOf documents)⟩

/-- Answer a store query. -/
def answer (c : Collection) (query : StoreQuery) : Except StoreError FetchResponse := do
  match query.selector with
  | none => return respond [] 0
  | some selector =>
    let found ← select selector c.documents
    if c.pushdown && query.exact && query.sortable then
      return respond (window query.offset query.limit (sortDocuments query.sort found))
        (min query.offset found.length)
    else return respond found 0

/-- Answer a fetch specification. -/
def fetch (c : Collection) (spec : FetchSpec) : Except StoreError FetchResponse := do
  c.answer (← StoreQuery.ofSpec spec)

/-- The collection as a fetcher. -/
def fetcher (c : Collection) : Fetcher := fun _ spec => (c.fetch spec).mapError .store

end Collection
end DocQuery
