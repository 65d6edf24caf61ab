import DocQuery.Proofs.Join.Fetch
import DocQuery.Proofs.Query.Selection
import DocQuery.Proofs.Store.References

/-!
# Joins with the enclosing document

`*[f]{"k": *[F]}` joins every document that is selected to those for which `F` is `true` within it.
Over a collection the nested documents are fetched once, by what `F` is widened to for the documents
fetched along with the first one. With all negated comparisons steady on these **nothing is missed,
and the result is that of a full scan** (`Query.result_joined`).
-/

set_option autoImplicit false

namespace DocQuery

open Operation Engine Collection

/-! ## Sessions of a projection -/

namespace Join

variable {F : Operation}

/-- The functions that a filter may call, given whether it calls `references()`. -/
def callable (F : Operation) (function : Function) : Bool :=
  !F.asksNoReferences || function != .references

theorem within_callable (h : F.isCorrelated = true) :
    F.within isInnerOrOuter (callable F) = true := by
  cases hasks : F.asksNoReferences with
  | true =>
    refine within_of_within (fun _ hpath _ => hpath) (fun f _ hf => ?_) h hasks
    rw [callable, hf, Bool.or_true]
  | false =>
    refine within_of_within (fun _ hpath _ => hpath) (fun f _ _ => ?_) h h
    rw [callable, hasks]
    rfl

theorem asksNoReferences_of_callable (h : callable F .references = true) :
    F.asksNoReferences = false := by
  simpa [callable] using h

/-- A session that has the data of a source, and of the references of the documents nothing wrong
if these are asked for. -/
structure Ready (F : Operation) (documents : List Json) (k : SourceId) (data : SourceData)
    (σ : Session) : Prop where
  known : σ.context.source? k = some data
  remembered : F.asksNoReferences = false → σ.context.KeepsAll documents

theorem faithful_ready {documents : List Json} {k : SourceId} {data : SourceData}
    (hasks : F.asksNoReferences = false) (htext : TextIds documents)
    (hdistinct : DistinctIds documents) {d : Json} (hd : d ∈ documents) :
    Session.Faithful (Ready F documents k data) (.ofJson d) where
  decides _ h ids := Context.refersTo_eq (h.remembered hasks d hd) ids
  keeps _ h ids :=
    ⟨(source?_refersTo _ _ ids k).trans h.known,
      fun hasks => (h.remembered hasks).refersTo htext hdistinct hd ids⟩

end Join

namespace Pushdown

open Join Local

variable {fetcher : Fetcher} {documents found kept : List Json} {F : Operation} {id k : SourceId}
  {key : String} {σ : Session}

/-- The documents that are kept are joined to those that are fetched for the first of them. -/
theorem exists_joined_iff (label : Option String) (hnew : σ.context.source? k = none)
    (hfetch : ∀ first ∈ kept.head?, ∃ spec response,
      (finish (documentScope id .root first) (.filtered F)).Yields σ spec σ ∧
      fetcher σ.fetches.length spec = .ok response ∧ response.results = found ∧
      (F.asksNoReferences = false → (σ.context.store k response).KeepsAll documents))
    (hfound : ∀ d ∈ found, d ∈ documents) (hdistinct : DistinctIds documents)
    (htext : F.asksNoReferences = false → TextIds documents) (hF : F.isCorrelated = true)
    (start : Nat) {P : Value → Prop} :
    (∃ r τ, (applyStages fetcher [.joined key k F label] (.many (kept.map (documentScope id .root))
        start) .root).Yields σ r τ ∧ P r.value) ↔
      (∀ p ∈ kept, ∀ d ∈ found, ∃ w, Correlated.eval (.ofJson p) F (.ofJson d) = .ok w) ∧
        P (.array (kept.map fun p => Correlated.hits key F (found.map .ofJson) (.ofJson p))) := by
  have hjoined := @Correlated.exists_projected_iff_found fetcher .root σ (callable F) F k key label
    (kept.map (documentScope id .root)) (found.map .ofJson) start P hnew (fun first hfirst => ?_)
    (within_callable hF)
  · rw [hjoined]
    simp only [List.forall_mem_map, List.map_map]
    rfl
  · rw [List.head?_map] at hfirst
    obtain ⟨document, hdocument, rfl⟩ := Option.map_eq_some_iff.mp hfirst
    obtain ⟨spec, response, hfinish, hresponse, rfl, hremembered⟩ := hfetch document hdocument
    refine ⟨spec, response, hfinish, hresponse, rfl,
      Ready F documents k ⟨response.results.map .ofJson, response.start⟩,
      ⟨source?_store _ _ _, hremembered⟩, fun _ h => h.known, fun hcallable v hv => ?_⟩
    obtain ⟨d, hd, rfl⟩ := List.mem_map.mp hv
    have hasks := asksNoReferences_of_callable hcallable
    exact faithful_ready hasks (htext hasks) hdistinct (hfound d hd)

end Pushdown
namespace Query

open Join Local Pushdown Planner

variable {q : Query} {documents : List Json} {id k : SourceId} {condition F : Operation}
  {stages : List Operation} {key : String} {label name : Option String} {result : Json}

/-- A nested pipeline has another source than the one around it. -/
theorem ne_of_joined (hglobal : q.globalFilter = none)
    (hplan : q.operation = .ok (.pipe (.source id :: (stages ++ [.joined key k F label])) name)) :
    id ≠ k := by
  obtain ⟨n, hn⟩ := (operation_eq_ok hglobal).mp hplan
  have hnodup := (counted_compose hn).nodup
  have hsources : (Operation.pipe (.source id :: (stages ++ [.joined key k F label])) name).sources =
      id :: (sourcesAll stages ++ (k :: (F.sources ++ []) ++ [] ++ [])) := by
    show [id] ++ sourcesAll (stages ++ [.joined key k F label]) = _
    rw [sourcesAll_append]
    rfl
  rw [hsources] at hnodup
  rintro rfl
  exact (List.nodup_cons.mp hnodup).1 (by simp)

/-- The documents that are selected are joined to those that are fetched for the first of them. -/
theorem result_joined_found (fetcher : Fetcher) (found : List Json) {kept : List Json} {start : Nat}
    {response : FetchResponse} (hids : id ≠ k)
    (hplan : q.operation =
      .ok (.pipe (.source id :: (.filter condition :: stages ++ [.joined key k F label])) name))
    (hlocal : ∀ stage ∈ .filter condition :: stages, stage.isLocalStage = true)
    (hresponse : fetcher 0 (selectionSpec condition stages) = .ok response)
    (hsupplies : Supplies id condition stages kept start response)
    (hfetch : ∀ first ∈ kept.head?, ∃ spec response',
      (finish (documentScope id .root first) (.filtered F)).Yields
        (fetched .empty id (selectionSpec condition stages) response) spec
        (fetched .empty id (selectionSpec condition stages) response) ∧
      fetcher 1 spec = .ok response' ∧ response'.results = found ∧
      (F.asksNoReferences = false →
        ((Context.empty.store id response).store k response').KeepsAll documents))
    (hfound : ∀ d ∈ found, d ∈ documents) (hdistinct : DistinctIds documents)
    (htext : F.asksNoReferences = false → TextIds documents) (hF : F.isCorrelated = true) :
    q.result fetcher = .ok result ↔
      (∀ p ∈ kept, ∀ d ∈ found, ∃ w, Correlated.eval (.ofJson p) F (.ofJson d) = .ok w) ∧
        result = (Value.array (kept.map fun p =>
          Correlated.hits key F (found.map .ofJson) (.ofJson p))).toJson := by
  have hnew : (fetched .empty id (selectionSpec condition stages) response).context.source? k =
      none := source?_fetched_of_ne (Ne.symm hids) _ _
  rw [result_eq_ok hplan, ← exists_joined_iff (P := fun v => result = v.toJson) label hnew hfetch
    hfound hdistinct htext hF start]
  simp only [Operation.joined, yields_supplied hlocal hresponse hsupplies]

/-- What a full scan fetches for a document is everything. -/
theorem exists_scan {siblings : List Value} (hobjects : Objects documents)
    (hjoin : IsJoinFilter siblings true F) (spec : FetchSpec) (first : Json) :
    ∃ spec' response, (finish (documentScope id .root first) (.filtered F)).Yields
        (fetched .empty id spec (.ofResults documents)) spec'
        (fetched .empty id spec (.ofResults documents)) ∧
      Fetcher.fullScan documents 1 spec' = .ok response ∧ response.results = documents ∧
      (F.asksNoReferences = false →
        ((Context.empty.store id (.ofResults documents)).store k response).KeepsAll documents) := by
  have hsiblings : siblings? (fetched .empty id spec (.ofResults documents)).context
      (documentScope id .root first) = some (documents.map .ofJson) := by
    refine siblings_eq rfl (source?_store _ _ _) rfl rfl fun v hv => ?_
    obtain ⟨d, hd, rfl⟩ := List.mem_map.mp hv
    obtain ⟨fields, rfl⟩ := hobjects d hd
    rfl
  obtain ⟨G, hG⟩ := exists_generalize hsiblings hjoin
  refine ⟨_, _, yields_finish_generalized hG, rfl, rfl, fun _ => ?_⟩
  exact ((Context.keepsAll_empty documents).store fun _ _ h => absurd h List.not_mem_nil).store
    fun _ _ h => absurd h List.not_mem_nil

/-- What a collection gives for a document are all that the filter keeps for any document that was
fetched. -/
theorem exists_given (id k : SourceId) {pushdown : Bool} {spec : FetchSpec} {response : FetchResponse}
    (hdocuments : ∀ d ∈ documents, IsDocument d) (hdistinct : DistinctIds documents)
    (hjson : ∀ d ∈ documents, (Value.ofJson d).isJson = true)
    (hplain : F.isPlainFilter = true) (htranslated : ∃ clause, Clause.ofFilter F = .ok clause)
    (htext : F.asksNoReferences = false → TextIds documents)
    (hjoin : IsJoinFilter (response.results.map .ofJson) true F)
    (hfetch : (⟨pushdown, documents.map storedOf⟩ : Collection).fetch spec = .ok response)
    (hanswers : Answers spec documents response) (first : Json) :
    ∃ (given : Json → Bool) (spec' : FetchSpec) (response' : FetchResponse),
      (finish (documentScope id .root first) (.filtered F)).Yields (fetched .empty id spec response)
        spec' (fetched .empty id spec response) ∧
      (⟨pushdown, documents.map storedOf⟩ : Collection).fetcher 1 spec' = .ok response' ∧
      response'.results = documents.filter given ∧
      (∀ d ∈ documents, ∀ p ∈ response.results.map Value.ofJson,
        Correlated.holds p F (.ofJson d) = true → given d = true) ∧
      (F.asksNoReferences = false →
        ((Context.empty.store id response).store k response').KeepsAll documents) := by
  have hobjects := answers_objects (objects_of_documents hdocuments) hanswers
  have hsiblings : siblings? (fetched .empty id spec response).context
      (documentScope id .root first) = some (response.results.map .ofJson) := by
    refine siblings_eq rfl (source?_store _ _ _) rfl rfl fun v hv => ?_
    obtain ⟨d, hd, rfl⟩ := List.mem_map.mp hv
    obtain ⟨fields, rfl⟩ := hobjects d hd
    rfl
  obtain ⟨G, hG⟩ := exists_generalize hsiblings hjoin
  have hwidens := widens_of_generalize hsiblings hjoin hG
  obtain ⟨given, response', hfetch', hresults, hgiven⟩ := fetch_widened hdocuments hwidens
    (fun v hv => by
      obtain ⟨d, -, rfl⟩ := List.mem_map.mp hv
      exact Value.isRead_ofJson d)
    (fun v hv => by
      obtain ⟨d, hd, rfl⟩ := List.mem_map.mp hv
      obtain ⟨e, he, heq⟩ := mem_of_answers hanswers hd
      exact heq ▸ hjson e he) hplain htranslated pushdown
  refine ⟨given, _, response', yields_finish_widened hG hwidens, fetcher_eq_ok hfetch' 1, hresults,
    hgiven, fun hasks => ?_⟩
  have hfirst := keepsAll_fetched hdocuments (htext hasks) hdistinct hfetch
    (Context.keepsAll_empty documents) id
  exact keepsAll_fetched hdocuments (htext hasks) hdistinct hfetch' hfirst k

/-- Joins over a collection, where negated comparisons are steady on what it gives for the outer
pipeline. -/
theorem result_joined (hdocuments : ∀ d ∈ documents, IsDocument d)
    (hdistinct : DistinctIds documents)
    (hjson : ∀ d ∈ documents, (Value.ofJson d).isJson = true)
    (hglobal : q.globalFilter = none)
    (hplan : q.operation =
      .ok (.pipe (.source id :: (.filter condition :: stages ++ [.joined key k F label])) name))
    (hselection : Selection documents id condition stages)
    (hplain : F.isPlainFilter = true) (htranslated : ∃ clause, Clause.ofFilter F = .ok clause)
    (htext : F.asksNoReferences = false → TextIds documents)
    (hjoin : ∀ pushdown response, (⟨pushdown, documents.map storedOf⟩ : Collection).fetch
      (selectionSpec condition stages) = .ok response →
        IsJoinFilter (response.results.map .ofJson) true F)
    (hscan : q.result (.fullScan documents) = .ok result) :
    (∃ kept : List Json, (∀ p ∈ kept, p ∈ documents) ∧
      result = (Value.array (kept.map fun p =>
        Correlated.hits key F (documents.map .ofJson) (.ofJson p))).toJson) ∧
    ∀ pushdown, ∃ c, ofDocuments pushdown documents = .ok c ∧
      q.result c.fetcher = .ok result := by
  have hids : id ≠ k := ne_of_joined hglobal hplan
  have hlocal := hselection.isLocal
  -- the documents that the full scan keeps
  obtain ⟨selected, hselected⟩ := exists_selected_of_object hlocal hplan hscan
  obtain ⟨kept, start, rfl, hkept, hall, hsupplied⟩ := hselection.exists_kept hdocuments hselected
  obtain ⟨sample, hsample, -⟩ := hsupplied false
  have hjoin₀ := hjoin false sample hsample
  have hF := isCorrelated_of_isJoinFilter hjoin₀
  obtain ⟨heval, hresult⟩ := (result_joined_found (.fullScan documents) documents hids hplan
    hlocal rfl hall (fun first _ => exists_scan (objects_of_documents hdocuments) hjoin₀ _ first)
    (fun d hd => hd) hdistinct htext hF).mp hscan
  refine ⟨⟨kept, hkept, hresult⟩, fun pushdown => ⟨_, ofDocuments_eq hdocuments hdistinct pushdown, ?_⟩⟩
  obtain ⟨response, hfetch, hanswers, hsupplies⟩ := hsupplied pushdown
  have hfetch' := fetcher_eq_ok hfetch 0
  cases kept with
  | nil =>
    refine (result_joined_found _ [] hids hplan hlocal hfetch' hsupplies
      (fun _ h => absurd h (by simp)) (fun _ h => absurd h List.not_mem_nil) hdistinct htext hF).mpr
      ⟨fun _ h => absurd h List.not_mem_nil, hresult⟩
  | cons first kept =>
    obtain ⟨given, spec, response', hfinish, hnested, hfound, hgiven, hremembered⟩ :=
      exists_given id k hdocuments hdistinct hjson hplain htranslated htext
        (hjoin pushdown response hfetch) hfetch hanswers first
    refine (result_joined_found _ (documents.filter given) hids hplan hlocal hfetch' hsupplies
      (fun p hp => ?_) (fun d hd => (List.mem_filter.mp hd).1) hdistinct htext hF).mpr
      ⟨fun p hp d hd => heval p hp d (List.mem_filter.mp hd).1, ?_⟩
    · obtain rfl : first = p := by simpa using hp
      exact ⟨spec, response', hfinish, hnested, hfound, hremembered⟩
    · -- nothing is missed
      rw [hresult]
      refine congrArg (fun vs => (Value.array vs).toJson) (List.map_congr_left fun p hp => ?_)
      rw [Correlated.hits, Correlated.hits, List.filter_map, List.filter_map, List.filter_filter]
      refine congrArg (fun ds : List Json => Value.object [(key, .array (ds.map .ofJson))])
        (List.filter_congr fun d hd => ?_)
      show Correlated.holds _ F (Value.ofJson d) = (Correlated.holds _ F (Value.ofJson d) && given d)
      cases hholds : Correlated.holds (Value.ofJson p) F (Value.ofJson d) with
      | false => rfl
      | true => rw [hgiven d hd _ (hsupplies.mem p hp) hholds, Bool.and_self]

/-- **Joins are sound where negated comparisons are steady.** Let no comparison with the enclosing
value whose falsehood makes for the truth of a filter tell the documents of a source apart. Then what
the filter is generalized to keeps every candidate that the filter keeps within some document of the
source; and a query that joins the documents it selects by such a filter has over a collection, one
that sorts and cuts or one that does not, the result it has over all documents, where each selected
document is joined to all documents that the filter keeps within it. -/
theorem joins_steady (documents : List Json) (F : Operation) :
    (∀ (G : Operation) (c : Context) (s : Scope) (id : SourceId) (data : SourceData),
      s.source = some id → c.source? id = some data → data.documents = documents.map .ofJson →
        s.computed = false →
        (∃ document ∈ documents, (Value.ofJson document).Stands s.path s.value) →
        IsJoinFilter ((documents.map Value.ofJson).flatMap fun d => spread (followPath d s.path))
          true F →
        generalize c s F = .ok (some G) → Keeps documents s.path F G) ∧
    ∀ (q : Query) (id k : SourceId) (condition : Operation) (stages : List Operation)
      (key : String) (label name : Option String) (result : Json),
      (∀ d ∈ documents, IsDocument d) → DistinctIds documents →
      (∀ d ∈ documents, (Value.ofJson d).isJson = true) → q.globalFilter = none →
      q.operation =
        .ok (.pipe (.source id :: (.filter condition :: stages ++ [.joined key k F label])) name) →
      Selection documents id condition stages → F.isPlainFilter = true →
      (∃ clause, Clause.ofFilter F = .ok clause) →
      (F.asksNoReferences = false → TextIds documents) →
      (∀ pushdown response, (⟨pushdown, documents.map storedOf⟩ : Collection).fetch
        (selectionSpec condition stages) = .ok response →
          IsJoinFilter (response.results.map .ofJson) true F) →
      q.result (.fullScan documents) = .ok result →
      (∃ kept : List Json, (∀ p ∈ kept, p ∈ documents) ∧
        result = (Value.array (kept.map fun p =>
          Correlated.hits key F (documents.map .ofJson) (.ofJson p))).toJson) ∧
      ∀ pushdown, ∃ c, ofDocuments pushdown documents = .ok c ∧
        q.result c.fetcher = .ok result :=
  ⟨fun _ _ _ _ _ hsource hdata hdocuments hcomputed hplace hjoin hgeneralize =>
      keeps_of_generalize hsource hdata hdocuments hcomputed hplace hjoin hgeneralize,
    fun _ _ _ _ _ _ _ _ _ hdocuments hdistinct hjson hglobal hplan hselection hplain
      htranslated htext hjoin hscan =>
      result_joined hdocuments hdistinct hjson hglobal hplan hselection hplain htranslated htext
        hjoin hscan⟩

/-- Two documents with the same number are joined to those with another one. -/
theorem joins_steady_number :
    ∃ (q : Query) (documents : List Json) (F : Operation),
      F = .not (.binary .eq (.attr "k") (.accessor [.parent, .attr "k"])) ∧
      documents = [.obj [("_id", .str "a"), ("k", .int 1), ("t", .int 1)],
        .obj [("_id", .str "b"), ("k", .int 1), ("t", .int 1)], .obj [("_id", .str "c"), ("k", .int 2)]] ∧
      q.operation = .ok (.pipe [.source 1, .filter (.binary .eq (.attr "t") (.literal (.int 1))),
        .joined "others" 2 F none] none) ∧
      (∃ G, generalize ⟨[(1, ⟨(documents.take 2).map .ofJson, 0⟩)], []⟩
        (documentScope 1 .root (.obj [("_id", .str "a"), ("k", .int 1), ("t", .int 1)])) F =
          .ok (some G) ∧ Keeps (documents.take 2) [] F G) ∧
      ∀ pushdown, ∃ c, ofDocuments pushdown documents = .ok c ∧
        q.result c.fetcher = .ok (.arr [
          .obj [("others", .arr [.obj [("_id", .str "c"), ("k", .int 2)]])],
          .obj [("others", .arr [.obj [("_id", .str "c"), ("k", .int 2)]])]]) := by
  let a : Json := .obj [("_id", .str "a"), ("k", .int 1), ("t", .int 1)]
  let b : Json := .obj [("_id", .str "b"), ("k", .int 1), ("t", .int 1)]
  let documents : List Json := [a, b, .obj [("_id", .str "c"), ("k", .int 2)]]
  let F : Operation := .not (.binary .eq (.attr "k") (.accessor [.parent, .attr "k"]))
  let q : Query := ⟨.pipe (.filtered (.binary .equals (.attr "t") (.integer 1))) (.object [.binary
    .colon (.string "others")
      (.filtered (.not (.binary .equals (.attr "k") (.dot .parent (.attr "k")))))]), [], none⟩
  have hplan : q.operation = .ok (.pipe [.source 1,
      .filter (.binary .eq (.attr "t") (.literal (.int 1))), .joined "others" 2 F none] none) := by
    with_unfolding_all rfl
  have hdocuments : ∀ d ∈ documents, IsDocument d := by decide
  -- both documents that are fetched have the number 1
  have hagree : IsJoinFilter [Value.ofJson a, Value.ofJson b] true F := by
    have hnumber : ∀ v ∈ [Value.ofJson a, Value.ofJson b], v.follow ["k"] = .int 1 := by
      simp only [List.forall_mem_cons]
      exact ⟨rfl, rfl, fun _ h => absurd h List.not_mem_nil⟩
    have hsame : Agree [Value.ofJson a, Value.ofJson b] ["k"] := fun v hv w hw _ _ =>
      (hnumber v hv).trans (hnumber w hw).symm
    refine .inr ⟨rfl, fun _ => ⟨fun names h => (nomatch h), fun names h => ?_⟩⟩
    cases h
    exact hsame
  let data : SourceData := ⟨[a, b].map .ofJson, 0⟩
  obtain ⟨G, hG⟩ : ∃ G, generalize ⟨[(1, data)], []⟩ (documentScope 1 .root a) F = .ok (some G) :=
    ⟨_, rfl⟩
  refine ⟨q, documents, F, rfl, rfl, hplan, ⟨G, hG, (joins_steady [a, b] F).1 G ⟨[(1, data)], []⟩
    (documentScope 1 .root a) 1 data rfl rfl rfl rfl ⟨a, List.mem_cons_self, ?_⟩ hagree hG⟩,
    ((joins_steady documents F).2 q 1 2 _ [] "others" none none _ hdocuments
      (by decide) (by decide) rfl hplan
      (.of_filter documents 1 (by decide) (by decide) ⟨_, rfl⟩) (by decide) ⟨_, rfl⟩
      (fun h => absurd h (by decide)) ?_ (by with_unfolding_all rfl)).2⟩
  · exact @Value.Stands.whole _ [] _ rfl rfl
  · intro pushdown response hfetch
    have hgiven : (⟨pushdown, documents.map storedOf⟩ : Collection).fetch
        (selectionSpec (.binary .eq (.attr "t") (.literal (.int 1))) []) =
          .ok (respond [storedOf a, storedOf b] 0) := by
      cases pushdown <;> with_unfolding_all rfl
    cases hfetch.symm.trans hgiven
    exact hagree

/-- Where the numbers differ, a document with the other number is taken out for both. -/
theorem joins_unsteady :
    ∃ (q : Query) (documents : List Json) (c : Collection),
      q.operation = .ok (.pipe [.source 1, .filter (.binary .eq (.attr "t") (.literal (.int 1))),
        .joined "k" 2 (.not (.binary .eq (.attr "k") (.accessor [.parent, .attr "k"]))) none] none) ∧
      documents = [.obj [("_id", .str "d1"), ("k", .int 1), ("t", .int 1)],
        .obj [("_id", .str "d2"), ("k", .int 2), ("t", .int 1)]] ∧ DistinctIds documents ∧
      ofDocuments true documents = .ok c ∧
      q.result (.fullScan documents) = .ok (.arr [
        .obj [("k", .arr [.obj [("_id", .str "d2"), ("k", .int 2), ("t", .int 1)]])],
        .obj [("k", .arr [.obj [("_id", .str "d1"), ("k", .int 1), ("t", .int 1)]])]]) ∧
      q.result c.fetcher = .ok (.arr [.obj [("k", .arr [])], .obj [("k", .arr [])]]) := by
  refine ⟨⟨.pipe (.filtered (.binary .equals (.attr "t") (.integer 1))) (.object [.binary
    .colon (.string "k")
      (.filtered (.not (.binary .equals (.attr "k") (.dot .parent (.attr "k")))))]), [], none⟩, _, _,
    by with_unfolding_all rfl, rfl, by decide, rfl, ?_, ?_⟩
  · with_unfolding_all rfl
  · with_unfolding_all rfl

end Query
end DocQuery
