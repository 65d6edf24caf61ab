import DocQuery.Value.Json

/-!
# References

A document refers to another one by a marker: an object with a non-empty string `_ref`, at any depth
and not inside another marker. A marker is weak when its `_weak` is `true`. `findReferences` lists
the markers of a value depth first, each with the way that leads to it: the names of fields, and for
the element of an array its `_key` if it has one, otherwise its position.

The store keeps these lists as JSON beside its documents, so they are also written and read here.
-/

set_option autoImplicit false

namespace DocQuery

/-- One step of the way to a marker. -/
inductive ReferenceStep where
  | field (name : String)
  | index (position : Nat)
  | keyed (key : String)
deriving DecidableEq, Inhabited

/-- A marker found in a document. -/
structure Reference where
  id : String
  weak : Bool
  path : List ReferenceStep
deriving DecidableEq, Inhabited

namespace Reference

/-- The id in a marker; other values have none. -/
def target? (v : Value) : Option String := do
  let id ← (← v.get? "_ref").asString?
  if id.isEmpty then none else some id

/-- Whether a marker is weak. -/
def isWeak (v : Value) : Bool := ((v.get? "_weak").bind Value.asBool?).getD false

/-- The step to an element of an array. -/
def elementStep (item : Value) (position : Nat) : ReferenceStep :=
  match (item.get? "_key").bind Value.asString? with
  | some key => if key.isEmpty then .index position else .keyed key
  | none => .index position

mutual

/-- The markers of a value that stands at `path` in its document. -/
def collect (path : List ReferenceStep) : Value → List Reference
  | .array items => collectItems path 0 items
  | .object fields =>
    match target? (.object fields) with
    | some id => [⟨id, isWeak (.object fields), path⟩]
    | none => collectFields path fields
  | _ => []

def collectItems (path : List ReferenceStep) (position : Nat) : List Value → List Reference
  | [] => []
  | v :: vs => collect (path ++ [elementStep v position]) v ++ collectItems path (position + 1) vs

def collectFields (path : List ReferenceStep) : List (String × Value) → List Reference
  | [] => []
  | (name, v) :: fs => collect (path ++ [.field name]) v ++ collectFields path fs

end

end Reference

/-- The markers of a document. -/
def findReferences (document : Value) : List Reference := Reference.collect [] document

/-! ## As JSON -/

namespace ReferenceStep

def toJson : ReferenceStep → Json
  | field name => .str name
  | index position => .int position
  | keyed key => .obj [("_key", .str key)]

def ofJson? : Json → Option ReferenceStep
  | .str name => some (field name)
  | .obj fields => do
    let key ← (← Fields.get? fields "_key").asString?
    return keyed key
  | j => j.asNat?.map index

end ReferenceStep

namespace Reference

/-- An empty path is left out. -/
def toJson (r : Reference) : Json :=
  let path := if r.path.isEmpty then [] else [("path", .arr (r.path.map ReferenceStep.toJson))]
  .obj ([("id", .str r.id)] ++ path ++ [("weak", .bool r.weak)])

/-- The parts of a reference: its id, and if they are there whether it is weak and its path. -/
def ofParts? (id : Json) (weak path : Option Json) : Option Reference := do
  let id ← id.asString?
  let weak ← match weak with
    | some j => j.asBool?
    | none => some false
  let path ← match path with
    | some j => do (← j.asArray?).mapM ReferenceStep.ofJson?
    | none => some []
  return ⟨id, weak, path⟩

/-- An object with the parts as fields, or a list of them. -/
def ofJson? : Json → Option Reference
  | .obj fields => do
    ofParts? (← Fields.get? fields "id") (Fields.get? fields "weak") (Fields.get? fields "path")
  | .arr [id] => ofParts? id none none
  | .arr [id, weak] => ofParts? id (some weak) none
  | .arr [id, weak, path] => ofParts? id (some weak) (some path)
  | _ => none

def listToJson (references : List Reference) : Json := .arr (references.map toJson)

def listOfJson? (j : Json) : Option (List Reference) := do (← j.asArray?).mapM ofJson?

end Reference
end DocQuery
