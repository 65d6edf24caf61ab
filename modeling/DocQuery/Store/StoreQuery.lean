import DocQuery.Fetch.Spec
import DocQuery.Store.Pushdown

/-!
# Store queries

A fetch specification in a store's own terms: a selector, an order by fields, and a window given by
an offset and a limit. Order and window may only be applied when the selector is exact and every
sort key is a field; otherwise the store would cut or order the wrong documents.
-/

set_option autoImplicit false

namespace DocQuery

structure StoreQuery where
  /-- None when no document can be kept. -/
  selector : Option Json
  exact : Bool
  /-- The sort keys that are fields. -/
  sort : List (String × Direction)
  /-- Whether all of them are. -/
  sortable : Bool
  offset : Nat
  limit : Option Nat

namespace StoreQuery

/-- A sort key that is a field. -/
def sortKey? (term : SortTerm) : Option (String × Direction) :=
  term.expression.fieldName?.map (·, term.direction)

def ofSpec (spec : FetchSpec) : Except StoreError StoreQuery := do
  let clause ← match spec.filter with
    | some filter => Clause.ofFilter filter
    | none => pure (.const true)
  let offset := (spec.start.getD 0).toNat
  return {
    selector := clause.selector?
    exact := clause.isExact
    sort := spec.ordering.filterMap sortKey?
    sortable := spec.ordering.all fun term => (sortKey? term).isSome
    offset
    limit := spec.stop.map fun stop => (stop - (offset : Int)).toNat }

end StoreQuery
end DocQuery
