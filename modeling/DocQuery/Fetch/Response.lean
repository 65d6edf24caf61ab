import DocQuery.Error
import DocQuery.Fetch.Spec
import DocQuery.Reference

/-!
# Fetching

A fetcher answers a specification with documents: at least those the specification asks for, in the
order it asks for them. `start` says how many items of the window's collection it has already left
out in front, and `refs` may give the references of the documents by their ids.

A fetcher may answer differently each time. It is a function of the specification and of the number
of fetches before, which is all that a fetcher with a memory of its own could go by here.
-/

set_option autoImplicit false

namespace DocQuery

structure FetchResponse where
  results : List Json
  start : Nat
  refs : Option (Fields (List Reference))

namespace FetchResponse

def ofResults (results : List Json) : FetchResponse := ⟨results, 0, none⟩

/-- The parts of a response: its results, and if they are there the start and the references. -/
def ofParts? (results : Json) (start refs : Option Json) : Option FetchResponse := do
  let results ← results.asArray?
  let start ← match start with
    | some j => j.asNat?
    | none => some 0
  let refs ← match refs with
    | none | some .null => some none
    | some j => do
      let fields ← j.asObject?
      some (some (← fields.mapM fun (id, j) => (Reference.listOfJson? j).map (id, ·)))
  return ⟨results, start, refs⟩

/-- An object with the parts as fields, or a list of them. -/
def ofJson? : Json → Option FetchResponse
  | .obj fields => do
    let get := Fields.get? fields
    ofParts? (← get "results") (get "start") (get "refs")
  | .arr [results] => ofParts? results none none
  | .arr [results, start] => ofParts? results (some start) none
  | .arr [results, start, refs] => ofParts? results (some start) (some refs)
  | _ => none

end FetchResponse

/-- Answers the fetch that comes after the given number of others. -/
abbrev Fetcher := Nat → FetchSpec → Except FetchError FetchResponse

namespace Fetcher

/-- Gives the same documents whatever is asked for. -/
def fullScan (documents : List Json) : Fetcher := fun _ _ => .ok (.ofResults documents)

end Fetcher
end DocQuery
