import DocQuery.Proofs.Query.Following
import DocQuery.Proofs.Query.Selection
import DocQuery.Proofs.Store.References

/-!
# Chained dereferences

A query that selects documents and projects them along chains of references has over all documents
the result of a brute-force join. Over a collection it has that result **if every document that is
selected leads over references that the first fetched document leads over as well**
(`Query.result_chains`); what a chain leads to otherwise is said by `Chain.followed`.
-/

set_option autoImplicit false

namespace DocQuery

open Engine Collection

/-! ## Fetchers that are asked by references -/

namespace Pushdown

variable {documents : List Json}

theorem looks_fullScan (href : ∀ d ∈ documents, (Value.ofJson d).hasTextRefs = true) :
    Looks (.fullScan documents) fun _ => Value.firstWithId (documents.map .ofJson) where
  gives _ _ _ _ _ _ _ := ⟨_, rfl, rfl, fun _ => rfl⟩
  text _ := Value.hasTextRefs_firstWithId (List.forall_mem_map.mpr href)

theorem looks_collection (hdocuments : ∀ d ∈ documents, IsDocument d)
    (href : ∀ d ∈ documents, (Value.ofJson d).hasTextRefs = true) (pushdown : Bool) :
    Looks (⟨pushdown, documents.map storedOf⟩ : Collection).fetcher
      (Chain.lookAmong (documents.map .ofJson)) where
  gives n filter ids refs hfinds hmem hrefs := by
    refine ⟨_, fetcher_eq_ok (hfinds.fetch hdocuments pushdown) n, rfl, fun ref => ?_⟩
    -- the ids are the references, but for those that are null
    have hany : ∀ d ∈ documents, (ids.any fun id => Value.hasLooseId id (.ofJson d)) =
        refs.any fun other => Value.hasLooseId other (.ofJson d) := by
      intro d _
      rw [Bool.eq_iff_iff, List.any_eq_true, List.any_eq_true]
      constructor
      · rintro ⟨id, hid, hloose⟩
        exact ⟨id, hmem id hid, hloose⟩
      · rintro ⟨other, hother, hloose⟩
        rcases hrefs other hother with rfl | hid
        · rw [Value.hasLooseId_null] at hloose
          cases hloose
        · exact ⟨other, hid, hloose⟩
    rw [results_respond fun d hd => hdocuments d (List.mem_filter.mp hd).1, List.filter_congr hany,
      Chain.lookAmong, List.filter_map]
    rfl
  text := Chain.lookAmong_text (List.forall_mem_map.mpr href)

/-- What is fetched are documents, so its references are texts. -/
theorem referring_results {spec : FetchSpec} {response : FetchResponse}
    (hobjects : Objects documents) (href : ∀ d ∈ documents, (Value.ofJson d).hasTextRefs = true)
    (hanswers : Answers spec documents response) :
    Referring (response.results.map Value.ofJson) := by
  intro v hv
  obtain ⟨d, hd, rfl⟩ := List.mem_map.mp hv
  obtain ⟨e, he, hed⟩ := mem_of_answers hanswers hd
  rw [← hed]
  obtain ⟨fields, rfl⟩ := hobjects e he
  exact ⟨rfl, rfl, href _ he⟩

end Pushdown

/-! ## Queries -/

namespace Query

open Planner Pushdown Local

variable {q : Query} {documents : List Json} {id : SourceId} {condition : Operation}
  {stages : List Operation} {nodes : List Node} {members : List (String × Chain)}
  {name : Option String} {result : Json} {selected : Scoped}

theorem operation_chains (hglobal : q.globalFilter = none)
    (hplan : q.operation = .ok (.pipe stages name))
    (hmembers : nodes.mapM Node.chainMember? = some members) :
    ∃ ms : List ChainMember, ms.map ChainMember.named = members ∧
      (q.projected nodes).operation =
        .ok (.pipe (stages ++ [.object (ms.map ChainMember.toMember)]) name) ∧
      (Operation.sourcesAll stages ++ ms.flatMap (·.route.sources)).Nodup := by
  obtain ⟨n, hprojected⟩ := @exists_projected q stages nodes name hglobal hplan
  obtain ⟨ms, n', hms, hobject⟩ := @gives_chainMembers q.params _ _ hmembers n
  obtain ⟨hoperation, hnodup⟩ := hprojected hobject
  rw [ChainMember.sourcesMembers_toMember] at hnodup
  exact ⟨ms, hms, hoperation, hnodup⟩

/-- Whatever fetcher supplies the documents that are selected and can be asked for others by
references, they are projected along their chains. -/
theorem result_followed {fetcher : Fetcher} {look : List Value → Value → Value} {kept : List Json}
    {start : Nat} {response : FetchResponse} {ms : List ChainMember}
    (hplan : q.operation = .ok (.pipe (.source id ::
      (.filter condition :: stages ++ [.object (ms.map ChainMember.toMember)])) name))
    (hlocal : ∀ stage ∈ .filter condition :: stages, stage.isLocalStage = true)
    (hsources : (id :: ms.flatMap (·.route.sources)).Nodup) (hlooks : Looks fetcher look)
    (hfetch : fetcher 0 (selectionSpec condition stages) = .ok response)
    (hsupplies : Supplies id condition stages kept start response)
    (href : Referring (response.results.map .ofJson)) :
    q.result fetcher = .ok (Value.array (kept.map fun d => Chain.project
      (·.followed look (response.results.map .ofJson)) (ms.map ChainMember.named)
        (.ofJson d))).toJson := by
  let linked := ms.map (ChainMember.linked look (response.results.map .ofJson))
  have hmembers : linked.map LinkedMember.member = ms.map ChainMember.toMember := List.map_map
  have hall : linked.flatMap (·.sources) = ms.flatMap (·.route.sources) := List.flatMap_map ..
  rw [← hmembers] at hplan
  rw [← hall] at hsources
  have hkeep : KeptByFetching fetcher fun _ => True := fun _ _ _ _ _ => trivial
  have hsubjects : ∀ v ∈ kept.map Value.ofJson, v ∈ response.results.map Value.ofJson :=
    List.forall_mem_map.mpr hsupplies.mem
  have honce : ∀ m ∈ linked, FetchesOnce fetcher (response.results.map .ofJson)
      (kept.map .ofJson) (fun _ => True) m := by
    intro m hm
    have hnodup := (List.nodup_flatMap.mp (List.nodup_cons.mp hsources).2).1 m hm
    obtain ⟨m, -, rfl⟩ := List.mem_map.mp hm
    exact fetchesOnce_chain hlooks hkeep href hsubjects hnodup
  refine (result_linked hplan hlocal hsources hfetch hsupplies (fun v hv => (href v hv).1) trivial
    honce).trans ?_
  refine congrArg (fun vs => Except.ok (Value.array vs).toJson) (List.map_congr_left fun d _ => ?_)
  rw [LinkedMember.project, Chain.project, Fields.assign_eq_foldl, List.foldl_map, List.foldl_map,
    List.foldl_map]
  rfl

/-- What a query keeps of all documents is projected over these, and over a collection of them. -/
theorem exists_projected_chains (hdocuments : ∀ d ∈ documents, IsDocument d)
    (href : ∀ d ∈ documents, (Value.ofJson d).hasTextRefs = true)
    (hglobal : q.globalFilter = none)
    (hplan : q.operation = .ok (.pipe (.source id :: .filter condition :: stages) name))
    (hselection : Selection documents id condition stages)
    (hmembers : nodes.mapM Node.chainMember? = some members)
    (hselected : Steps (.filter condition :: stages)
      (.one (sourceScope id .root ⟨documents.map .ofJson, 0⟩)) selected) :
    ∃ kept : List Json, (∀ d ∈ kept, d ∈ documents) ∧
      q.result (.fullScan documents) = .ok (Value.array (kept.map .ofJson)).toJson ∧
      (q.projected nodes).result (.fullScan documents) = .ok (Value.array (kept.map fun d =>
        Chain.project (·.reached (documents.map .ofJson)) members (.ofJson d))).toJson ∧
      ∀ pushdown, ∃ response, (⟨pushdown, documents.map storedOf⟩ : Collection).fetch
          (selectionSpec condition stages) = .ok response ∧
        (∀ d ∈ kept, Value.ofJson d ∈ response.results.map Value.ofJson) ∧
        (q.projected nodes).result (⟨pushdown, documents.map storedOf⟩ : Collection).fetcher =
          .ok (Value.array (kept.map fun d => Chain.project
            (·.followed (Chain.lookAmong (documents.map .ofJson)) (response.results.map .ofJson))
              members (.ofJson d))).toJson := by
  obtain ⟨ms, rfl, hjoin, hnodup⟩ := operation_chains hglobal hplan hmembers
  have hsources : (id :: ms.flatMap (·.route.sources)).Nodup :=
    hnodup.sublist ((List.sublist_append_right _ _).cons_cons id)
  have hlocal := hselection.isLocal
  have hobjects := objects_of_documents hdocuments
  obtain ⟨kept, start, rfl, hkept, hall, hsupplied⟩ := hselection.exists_kept hdocuments hselected
  have hbrute := result_followed hjoin hlocal hsources (looks_fullScan href) rfl hall
    (referring_results hobjects href (answers_all (selectionSpec condition stages) documents))
  have hreached : (kept.map fun d => Chain.project (·.followed
        (fun _ => Value.firstWithId (documents.map .ofJson))
          ((FetchResponse.ofResults documents).results.map .ofJson)) (ms.map ChainMember.named)
            (.ofJson d)) =
      kept.map fun d => Chain.project (·.reached (documents.map .ofJson))
        (ms.map ChainMember.named) (.ofJson d) :=
    List.map_congr_left fun d _ => Chain.project_congr fun m _ => Chain.followed_all m.2
  rw [hreached] at hbrute
  refine ⟨kept, hkept, result_selected hlocal hplan hselected, hbrute, fun pushdown => ?_⟩
  obtain ⟨response, hfetch, hanswers, hsupplies⟩ := hsupplied pushdown
  exact ⟨response, hfetch, hsupplies.mem, result_followed hjoin hlocal hsources
    (looks_collection hdocuments href pushdown) (fetcher_eq_ok hfetch 0) hsupplies
      (referring_results hobjects href hanswers)⟩

/-- What is kept is known from the result. -/
theorem map_kept {kept ds : List Json} (hjson : ∀ d ∈ documents, (Value.ofJson d).isJson = true)
    (hkept : ∀ d ∈ kept, d ∈ documents) (hds : ∀ d ∈ ds, d ∈ documents)
    (h : (Value.array (ds.map .ofJson)).toJson = (Value.array (kept.map .ofJson)).toJson)
    (f : Value → Value) : kept.map (fun d => f (.ofJson d)) = ds.map fun d => f (.ofJson d) := by
  have hall : ∀ {es : List Json}, (∀ d ∈ es, d ∈ documents) →
      (Value.array (es.map .ofJson)).isJson = true := fun hes =>
    Value.allJson_of_forall (List.forall_mem_map.mpr fun d hd => hjson d (hes d hd))
  have hsame := congrArg (List.map f)
    (Value.array.inj (Value.eq_of_toJson (hall hkept) (hall hds) h.symm))
  rwa [List.map_map, List.map_map] at hsame

/-- **Chained dereferences.** Let a query have a result over all documents. What it keeps can be
projected along chains of references, over all documents with every reference looked up among these.
Over a collection the documents on the way of a chain are fetched for the first document that the
selection gives, and those at its end for all. So the projection is the same if whatever is kept
leads over references that this first document leads over too. -/
theorem result_chains (hdocuments : ∀ d ∈ documents, IsDocument d)
    (hdistinct : DistinctIds documents)
    (href : ∀ d ∈ documents, (Value.ofJson d).hasTextRefs = true)
    (hglobal : q.globalFilter = none)
    (hplan : q.operation = .ok (.pipe (.source id :: .filter condition :: stages) name))
    (hselection : Selection documents id condition stages)
    (hmembers : nodes.mapM Node.chainMember? = some members)
    (hscan : q.result (.fullScan documents) = .ok result) :
    ∃ kept : List Json, (∀ d ∈ kept, d ∈ documents) ∧
      result = (Value.array (kept.map .ofJson)).toJson ∧
      (q.projected nodes).result (.fullScan documents) = .ok (Value.array (kept.map fun d =>
        Chain.project (·.reached (documents.map .ofJson)) members (.ofJson d))).toJson ∧
      ∀ pushdown, ∃ c response, ofDocuments pushdown documents = .ok c ∧
        c.fetch (selectionSpec condition stages) = .ok response ∧
        (q.projected nodes).result c.fetcher = .ok (Value.array (kept.map fun d => Chain.project
          (·.followed (Chain.lookAmong (documents.map .ofJson)) (response.results.map .ofJson))
            members (.ofJson d))).toJson ∧
        ((∀ first ∈ response.results.head?, ∀ d ∈ kept, ∀ m ∈ members,
            m.2.before.LeadsAlong (documents.map .ofJson) (.ofJson first) (.ofJson d)) →
          (q.projected nodes).result c.fetcher =
            (q.projected nodes).result (.fullScan documents)) := by
  obtain ⟨selected, hselected⟩ := exists_selected hselection.isLocal hplan hscan
  obtain ⟨kept, hkept, hresult, hbrute, hcollection⟩ :=
    exists_projected_chains hdocuments href hglobal hplan hselection hmembers hselected
  refine ⟨kept, hkept, Except.ok.inj (hscan.symm.trans hresult), hbrute, fun pushdown => ?_⟩
  obtain ⟨response, hfetch, hmem, hprojected⟩ := hcollection pushdown
  refine ⟨_, response, ofDocuments_eq hdocuments hdistinct pushdown, hfetch, hprojected,
    fun halong => ?_⟩
  rw [hprojected, hbrute]
  refine congrArg (fun vs => Except.ok (Value.array vs).toJson) (List.map_congr_left fun d hd => ?_)
  refine Chain.project_followed_eq (hmem d hd) fun v hv => ?_
  rw [List.head?_map] at hv
  obtain ⟨first, hfirst, rfl⟩ := Option.map_eq_some_iff.mp hv
  exact halong first hfirst d hd

/-- Two documents with elements that refer to others, whose elements refer to further ones. What the
second leads over the first leads over too. -/
theorem result_chains_shared :
    ∃ (q : Query) (nodes : List Node) (documents : List Json),
      q.operation = .ok (.pipe [.source 1,
        .filter (.binary .eq (.attr "t") (.literal (.string "p")))] none) ∧
      nodes.mapM Node.chainMember? =
        some [("c", .follow (.follow (.field ["a"]) true ["b"]) true ["c"])] ∧
      documents = [
        .obj [("_id", .str "p1"), ("a", .arr [.obj [("_ref", .str "x1")], .obj [("_ref", .str "x2")]]),
          ("t", .str "p")],
        .obj [("_id", .str "p2"), ("a", .arr [.obj [("_ref", .str "x2")]]), ("t", .str "p")],
        .obj [("_id", .str "x1"), ("b", .arr [.obj [("_ref", .str "y1")]])],
        .obj [("_id", .str "x2"), ("b", .arr [.obj [("_ref", .str "y2")], .obj [("_ref", .str "y1")]])],
        .obj [("_id", .str "y1"), ("c", .int 1)], .obj [("_id", .str "y2"), ("c", .int 2)]] ∧
      ∀ pushdown, ∃ c, ofDocuments pushdown documents = .ok c ∧
        (q.projected nodes).result c.fetcher = .ok (.arr [
          .obj [("c", .arr [.int 1, .int 2, .int 1])], .obj [("c", .arr [.int 2, .int 1])]]) := by
  let first : Json := .obj [("_id", .str "p1"),
    ("a", .arr [.obj [("_ref", .str "x1")], .obj [("_ref", .str "x2")]]), ("t", .str "p")]
  let second : Json := .obj [("_id", .str "p2"), ("a", .arr [.obj [("_ref", .str "x2")]]),
    ("t", .str "p")]
  let documents : List Json := [first, second,
    .obj [("_id", .str "x1"), ("b", .arr [.obj [("_ref", .str "y1")]])],
    .obj [("_id", .str "x2"), ("b", .arr [.obj [("_ref", .str "y2")], .obj [("_ref", .str "y1")]])],
    .obj [("_id", .str "y1"), ("c", .int 1)], .obj [("_id", .str "y2"), ("c", .int 2)]]
  let q : Query := ⟨.filtered (.binary .equals (.attr "t") (.string "p")), [], none⟩
  let opened (n : Node) : Node := .postfixed .arrow (.pipe n (.constraint none))
  let nodes : List Node := [.binary .colon (.string "c")
    (.dot (opened (.dot (opened (.attr "a")) (.attr "b"))) (.attr "c"))]
  have hplan : q.operation = .ok (.pipe [.source 1,
      .filter (.binary .eq (.attr "t") (.literal (.string "p")))] none) := by
    with_unfolding_all rfl
  have hmembers : nodes.mapM Node.chainMember? =
      some [("c", .follow (.follow (.field ["a"]) true ["b"]) true ["c"])] := by
    with_unfolding_all rfl
  have hscan : q.result (.fullScan documents) = .ok (.arr [first, second]) := by
    with_unfolding_all rfl
  obtain ⟨kept, hkept, hresult, hbrute, hcollection⟩ := result_chains
    (by decide : ∀ d ∈ documents, IsDocument d) (by decide) (by decide) rfl hplan
    (.of_filter documents 1 (by decide) (by decide) ⟨_, rfl⟩) hmembers hscan
  have hprojected := @map_kept documents kept [first, second] (by decide) hkept
    (List.forall_mem_cons.mpr ⟨by simp [documents], by simp [documents]⟩) hresult
  refine ⟨q, nodes, documents, hplan, hmembers, rfl, fun pushdown => ?_⟩
  obtain ⟨c, response, hc, hfetch, -, hagree⟩ := hcollection pushdown
  have hresponse : response = respond [storedOf first, storedOf second] 0 := by
    cases hc
    refine Except.ok.inj (hfetch.symm.trans ?_)
    cases pushdown <;> with_unfolding_all rfl
  refine ⟨c, hc, (hagree fun d hd e he m hm => ?_).trans (hbrute.trans ?_)⟩
  · subst hresponse
    cases hd
    cases List.mem_singleton.mp hm
    have hmem := List.mem_map_of_mem (f := fun d => id (Value.ofJson d)) he
    rw [hprojected] at hmem
    rcases List.mem_cons.mp hmem with hfirst | hsecond
    · rw [show Value.ofJson e = Value.ofJson first from hfirst]
      exact Chain.leadsAlong_self _
    · rw [show Value.ofJson e = Value.ofJson second from List.mem_singleton.mp hsecond]
      refine ⟨trivial, fun ref href => .inr ?_⟩
      cases List.mem_singleton.mp href
      exact List.mem_cons_of_mem _ List.mem_cons_self
  · rw [hprojected]
    rfl

/-- What the second document leads over is not asked for where the first leads over other things. -/
theorem result_chain_missed :
    ∃ (q : Query) (nodes : List Node) (documents : List Json) (c : Collection),
      q.operation = .ok (.pipe [.source 1,
        .filter (.binary .eq (.attr "t") (.literal (.string "p")))] none) ∧
      nodes.mapM Node.chainMember? =
        some [("c", .follow (.follow (.field ["a"]) false ["b"]) false ["c"])] ∧
      documents = [
        .obj [("_id", .str "p1"), ("a", .obj [("_ref", .str "x1")]), ("t", .str "p")],
        .obj [("_id", .str "p2"), ("a", .obj [("_ref", .str "x2")]), ("t", .str "p")],
        .obj [("_id", .str "x1"), ("b", .obj [("_ref", .str "y1")])],
        .obj [("_id", .str "x2"), ("b", .obj [("_ref", .str "y2")])],
        .obj [("_id", .str "y1"), ("c", .int 1)], .obj [("_id", .str "y2"), ("c", .int 2)]] ∧
      DistinctIds documents ∧ TextIds documents ∧
      (∀ d ∈ documents, (Value.ofJson d).hasTextRefs = true) ∧
      ofDocuments true documents = .ok c ∧
      (q.projected nodes).result (.fullScan documents) =
        .ok (.arr [.obj [("c", .int 1)], .obj [("c", .int 2)]]) ∧
      (q.projected nodes).result c.fetcher = .ok (.arr [.obj [("c", .int 1)], .obj []]) := by
  let first : Json := .obj [("_id", .str "p1"), ("a", .obj [("_ref", .str "x1")]), ("t", .str "p")]
  let second : Json := .obj [("_id", .str "p2"), ("a", .obj [("_ref", .str "x2")]), ("t", .str "p")]
  let documents : List Json := [first, second,
    .obj [("_id", .str "x1"), ("b", .obj [("_ref", .str "y1")])],
    .obj [("_id", .str "x2"), ("b", .obj [("_ref", .str "y2")])],
    .obj [("_id", .str "y1"), ("c", .int 1)], .obj [("_id", .str "y2"), ("c", .int 2)]]
  let q : Query := ⟨.filtered (.binary .equals (.attr "t") (.string "p")), [], none⟩
  let nodes : List Node := [.binary .colon (.string "c") (.dot (.postfixed .arrow
    (.dot (.postfixed .arrow (.attr "a")) (.attr "b"))) (.attr "c"))]
  have hplan : q.operation = .ok (.pipe [.source 1,
      .filter (.binary .eq (.attr "t") (.literal (.string "p")))] none) := by
    with_unfolding_all rfl
  have hmembers : nodes.mapM Node.chainMember? =
      some [("c", .follow (.follow (.field ["a"]) false ["b"]) false ["c"])] := by
    with_unfolding_all rfl
  have hscan : q.result (.fullScan documents) = .ok (.arr [first, second]) := by
    with_unfolding_all rfl
  have hselection : Selection documents 1 (.binary .eq (.attr "t") (.literal (.string "p"))) [] :=
    .of_filter documents 1 (by decide) (by decide) ⟨_, rfl⟩
  obtain ⟨selected, hselected⟩ := exists_selected hselection.isLocal hplan hscan
  obtain ⟨kept, hkept, hresult, hbrute, hcollection⟩ := exists_projected_chains
    (by decide : ∀ d ∈ documents, IsDocument d) (by decide) rfl hplan hselection hmembers hselected
  have hprojected := @map_kept documents kept [first, second] (by decide) hkept
    (List.forall_mem_cons.mpr ⟨by simp [documents], by simp [documents]⟩)
      (Except.ok.inj (hscan.symm.trans hresult))
  obtain ⟨response, hfetch, -, hfollowed⟩ := hcollection true
  have hresults : response.results.map Value.ofJson = [.ofJson first, .ofJson second] := by
    have hresponse : response = respond [storedOf first, storedOf second] 0 := by
      refine Except.ok.inj (hfetch.symm.trans ?_)
      with_unfolding_all rfl
    subst hresponse
    rfl
  refine ⟨q, nodes, documents, ⟨true, documents.map storedOf⟩, hplan, hmembers, rfl, by decide,
    by decide, by decide, rfl, hbrute.trans ?_, hfollowed.trans ?_⟩
  · rw [hprojected]
    rfl
  · rw [hprojected, hresults]
    with_unfolding_all rfl

end Query
end DocQuery
