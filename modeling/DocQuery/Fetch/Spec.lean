import DocQuery.Plan.Printer
import DocQuery.Text.Numeral

/-!
# Fetch specifications

What a pipeline needs of its source: a filter, a window and an ordering, in this order of
application: filter, sort, cut. A specification is built by going through a pipeline's stages from
the last to the first, so each `apply` below adds a stage that runs before everything applied so
far, and whatever could not be done after that stage in a single fetch is dropped. Dropping is
always allowed: a fetcher may give too much, since every stage runs again on what it gives.
-/

set_option autoImplicit false

namespace DocQuery

structure FetchSpec where
  filter : Option Operation
  start : Option Int
  stop : Option Int
  ordering : List SortTerm

namespace FetchSpec

/-- Everything. -/
def everything : FetchSpec := ⟨none, none, none, []⟩

instance : Inhabited FetchSpec := ⟨everything⟩

/-- All that passes a filter. -/
def filtered (filter : Operation) : FetchSpec := ⟨some filter, none, none, []⟩

def hasWindow (spec : FetchSpec) : Bool := spec.start.isSome

def hasConstraints (spec : FetchSpec) : Bool := spec.filter.isSome || !spec.ordering.isEmpty

/-- A filter: both it and the one so far have to hold. -/
def applyFilter (spec : FetchSpec) (condition : Operation) : FetchSpec :=
  { spec with filter := some (match spec.filter with
    | some so_far => .binary .and so_far condition
    | none => condition) }

/-- The least of a number and the largest integer of 64 bits. -/
def saturate (n : Int) : Int := min n maxInt64

/-- A window: the window so far is relative to it. A filter or ordering so far runs after it and is
dropped with its window. A bound that counts from the end leaves nothing to fetch by. -/
def applyWindow (spec : FetchSpec) (start stop : Int) : FetchSpec :=
  if start < 0 ∨ stop < 0 then everything
  else
    let spec := if spec.hasConstraints then everything else spec
    match spec.start, spec.stop with
    | some innerStart, some innerStop =>
      { spec with
        start := some (saturate (start + innerStart))
        stop := some (min (saturate (innerStop + start)) stop) }
    | _, _ => { spec with start := some start, stop := some stop }

/-- An ordering: the orderings so far come after it and stay the leading ones. -/
def applyOrdering (spec : FetchSpec) (terms : List SortTerm) : FetchSpec :=
  { spec with ordering := spec.ordering ++ terms }

/-- A stage that reshapes values: a filter or ordering so far speaks of what it gives, not of
documents. A window so far stays. -/
def project (spec : FetchSpec) : FetchSpec := if spec.hasConstraints then everything else spec

/-- A single element: nothing after it reaches the source. -/
def applySubscript (spec : FetchSpec) (w : Subscript) : FetchSpec :=
  (if w.first then everything else spec).applyWindow w.start w.stop

def toJson (spec : FetchSpec) : Json :=
  let bound : Option Int → Json
    | some n => .int n
    | none => .null
  .obj [("end", bound spec.stop),
    ("filter", match spec.filter with
      | some f => f.toJson
      | none => .null),
    ("ordering", .arr (Operation.termsToJson spec.ordering)),
    ("start", bound spec.start)]

end FetchSpec
end DocQuery
