import DocQuery.Proofs.Engine.Failures
import DocQuery.Proofs.Query.Permission
import DocQuery.Proofs.Query.Unwidened
import DocQuery.Proofs.Store.Uncompiled
import DocQuery.Proofs.Store.Undecided

/-!
# Documents that the engine refuses

A filter may fail at a document, and then the query fails. Over a collection the filter only runs for
the documents that its clause accepts; the others have to be ones that it would have turned away
without failing. **Where every part of a filter reads an attribute, and the parts are joined by `or`
and `not`, the query gives over a collection what it gives over a full scan, an error included**
(`Query.result_refused`). The error is the same because the first document that fails is accepted,
and stays the first of those that fail.

That needs documents as they come out of the collection again, and path patterns that the store can
compile (`Query.result_refused_departs`).
-/

set_option autoImplicit false

namespace DocQuery

open Operation Planner Engine Run Pushdown Collection Clause Quiet

namespace Query

variable {q : Query} {documents : List Json} {id : SourceId} {condition : Operation}
  {name : Option String}

example : QueryError.message (.exec (.fetch (.store (.pattern (.tooLarge Pattern.Tally.limit))))) =
    "execution error: Compiled regex exceeds size limit of 10485760 bytes." := by decide

/-- What a query for the documents that a filter keeps gives over a full scan of some documents, and
what over a collection of them. The filter is put together as in `result_refused`. -/
structure Answers (filter : Node) (documents : List Json) (scanned served : Except QueryError Json) :
    Prop where
  distinct : DistinctIds documents
  planned : ∃ condition,
    operation ⟨.filtered filter, [], none⟩ = .ok (.pipe [.source 1, .filter condition] none) ∧
      condition.Conforms .closed anySource ∧ condition.isAttributeFilter = true
  scanned : result ⟨.filtered filter, [], none⟩ (.fullScan documents) = scanned
  served : ∀ pushdown, ∃ c, ofDocuments pushdown documents = .ok c ∧
    result ⟨.filtered filter, [], none⟩ c.fetcher = served

end Query
end DocQuery
