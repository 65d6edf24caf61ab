import DocQuery.Proofs.Join.Fetch
import DocQuery.Proofs.Query.Chained
import DocQuery.Proofs.Store.Missing

/-!
# Filtered dereferences

`p[]->[g]` looks up what the elements of `p` refer to and keeps what `g` is `true` of. It is planned
as a join with a filter behind it. The filter also goes into the fetch, so a store leaves out the
documents that it turns away; whoever looks for one of these finds null, and `g` is asked about null
in its place. **What is left over a store is what `g` keeps of the documents that the store admits**
(`fetchesOnce_sieve`, `sifts_collection`).

That is what `g` keeps of all documents unless it keeps null where it does not keep the document
(`Pushdown.sifted_admitted`).
-/

set_option autoImplicit false

namespace DocQuery

open Engine Run Operation

/-- A dereference of the elements at the end of a path with a filter behind it, as it is planned. -/
structure Sieve where
  name : String
  path : List String
  source : SourceId
  filter : Operation

namespace Sieve

def stages (m : Sieve) : List Operation :=
  (Route.join (.field m.path) true m.source []).stages ++ [.filter m.filter]

def operation (m : Sieve) : Operation := .pipe m.stages (Chain.field m.path).name?

/-- What a filter keeps of the documents that the elements at the end of a path refer to. -/
def sifted (look : Value → Value) (path : List String) (filter : Operation) (v : Value) : Value :=
  .array (((v.refsAt path).map look).filter (Correlated.holds .null filter))

/-- The member has the documents that the filter may keep, as references lead to them. -/
def linked (look : Operation → Value → Value) (siblings : List Value) (m : Sieve) :
    LinkedMember :=
  .assigned m.name m.operation [m.source] (sifted (look m.filter) m.path m.filter) fun σ =>
    ∃ found, σ.context.source? m.source = some ⟨found, 0⟩ ∧
      ∀ v ∈ siblings, ∀ ref ∈ v.refsAt m.path, Value.firstWithId found ref = look m.filter ref

end Sieve

namespace Pushdown

open Join Collection

variable {fetcher : Fetcher} {documents : List Json} {look : Value → Value} {filter : Operation}

/-! ## Filtering what was looked up -/

/-- Null, or one of the documents. -/
def IsLookedUp (documents : List Json) (v : Value) : Prop :=
  v = .null ∨ ∃ d ∈ documents, v = .ofJson d

theorem IsLookedUp.asArray? (hobjects : Objects documents) {v : Value}
    (h : IsLookedUp documents v) : v.asArray? = none := by
  rcases h with rfl | ⟨d, hd, rfl⟩
  · rfl
  · obtain ⟨fields, rfl⟩ := hobjects d hd
    rfl

/-- Asking for the references of what was looked up changes nothing that the other members need. -/
theorem faithful_lookedUp (htext : TextIds documents) (hdistinct : DistinctIds documents)
    (c : Context) {v : Value} (hv : IsLookedUp documents v) :
    Session.Faithful (fun σ => σ.context.KeepsAll documents ∧
      ∀ k, σ.context.source? k = c.source? k) v where
  decides σ h ids := by
    rcases hv with rfl | ⟨d, hd, rfl⟩
    · rfl
    · exact Context.refersTo_eq (h.1 d hd) ids
  keeps σ h ids := by
    refine ⟨?_, fun k => (source?_refersTo _ _ ids k).trans (h.2 k)⟩
    rcases hv with rfl | ⟨d, hd, rfl⟩
    · exact h.1
    · exact h.1.refersTo htext hdistinct hd ids

/-- A filter behind a lookup, where it has a value for everything that is found. -/
theorem yields_sift (htext : TextIds documents) (hdistinct : DistinctIds documents)
    (hobjects : Objects documents) {s base : Scope} {refs : List Value} {σ : Session}
    (hlook : ∀ ref ∈ refs, (s.lookup ref).value = look ref)
    (hfound : ∀ ref ∈ refs, IsLookedUp documents (look ref)) (hfree : filter.isFree = true)
    (heval : ∀ ref ∈ refs, ∃ w, Correlated.eval .null filter (look ref) = .ok w)
    (hσ : σ.context.KeepsAll documents) :
    ∃ r τ, (applyStages fetcher [.filter filter] (.many (refs.map s.lookup) 0) base).Yields σ r τ ∧
      r.value = .array ((refs.map look).filter (Correlated.holds .null filter)) ∧
      τ.context.KeepsAll documents ∧ ∀ k, τ.context.source? k = σ.context.source? k := by
  have hvalues : (refs.map s.lookup).map (·.value) = refs.map look := by
    rw [List.map_map]
    exact List.map_congr_left hlook
  have hlooked : ∀ t ∈ refs.map s.lookup, IsLookedUp documents t.value := by
    refine List.forall_mem_map.mpr fun ref href => ?_
    rw [hlook ref href]
    exact hfound ref href
  have hcandidates : (Scoped.many (refs.map s.lookup) 0).candidates = (refs.map s.lookup, 0) :=
    candidates_of_whole (fun t ht => (hlooked t ht).asArray? hobjects) 0
  -- a free filter does not look at the documents around
  have hselect : Correlated.select s.value filter ((refs.map s.lookup).map (·.value)) =
      .ok ((refs.map look).filter (Correlated.holds .null filter)) := by
    rw [hvalues]
    refine Correlated.select_eq_ok.mpr ⟨List.forall_mem_map.mpr fun ref href => ?_, ?_⟩
    · obtain ⟨w, hw⟩ := heval ref href
      exact ⟨w, (Correlated.eval_of_isFree s.value .null hfree _).trans hw⟩
    · refine List.filter_congr fun v _ => ?_
      rw [Correlated.holds, Correlated.holds, Correlated.eval_of_isFree s.value .null hfree]
  have hcomes := @Correlated.comesTo_keepScopes fetcher
    (fun τ => τ.context.KeepsAll documents ∧ ∀ k, τ.context.source? k = σ.context.source? k)
    (fun _ => true) filter s.value (Correlated.isCorrelated_of_isFree hfree) (refs.map s.lookup)
    (List.forall_mem_map.mpr fun _ _ => rfl)
    (fun _ t ht => faithful_lookedUp htext hdistinct σ.context (hlooked t ht))
  rw [hselect] at hcomes
  obtain ⟨kept, τ, hkept, hkeptValues, hτ, hsame⟩ := hcomes.yields ⟨hσ, fun _ => rfl⟩
  refine ⟨.many kept 0, τ, yields_applyStages_filter.mpr ⟨.many kept 0, τ, ?_, ?_⟩,
    congrArg Value.array hkeptValues, hτ, hsame⟩
  · unfold filterScopes
    rw [hcandidates]
    exact yields_bind.mpr ⟨kept, τ, hkept, yields_pure.mpr ⟨rfl, rfl⟩⟩
  · rw [applyStages_nil]
    exact yields_pure.mpr ⟨rfl, rfl⟩

/-! ## Fetching for it -/

/-- A fetcher that can be asked for the documents with certain ids that a filter may keep: `look ref`
is what a reference leads to among these. -/
structure Sifts (fetcher : Fetcher) (documents : List Json) (filter : Operation)
    (look : Value → Value) : Prop where
  gives : ∀ n idFilter ids, Finds idFilter ids → ∃ response,
    fetcher n (.filtered (.binary .and filter idFilter)) = .ok response ∧ response.start = 0 ∧
      ∀ ref, ref = .null ∨ ref ∈ ids →
        Value.firstWithId (response.results.map .ofJson) ref = look ref
  found : ∀ ref, IsLookedUp documents (look ref)

/-- The references of the elements at the end of a path. -/
theorem refs_field (before : List Value → Value → Value) (subjects : List Value)
    (path : List String) (v : Value) :
    ((Chain.field path).followed before subjects v).refs true = .many (v.refsAt path) := by
  show Reached.many (([v.follow path].flatMap Join.spread).map _) = _
  rw [List.flatMap_singleton]
  rfl

variable {siblings : List Value} {σ : Session} {s : Scope}

/-- The references of the elements at the end of a path, in a session that stays as it is. -/
theorem yields_refsAt (path : List String) (hnull : s.value.isNull = false)
    (htext : s.value.hasTextRefs = true) :
    ∃ refs, (run fetcher ((Route.field path).stages ++ Route.referring true) s).Yields σ refs σ ∧
      refs.value = .array (s.value.refsAt path) := by
  let nowhere (_ : List Value) (_ : Value) : Value := .null
  have hserved : (Route.field path).Served nowhere σ [] := trivial
  obtain ⟨mid, hmid, hreached⟩ := @Route.yields_served fetcher nowhere σ _ [] s (fun _ _ => rfl) hserved
    hnull htext
  obtain ⟨refs, hrefs, hvalue⟩ := Route.yields_referring hserved true hmid
  refine ⟨refs, hrefs, ?_⟩
  rw [hreached] at hvalue
  rw [← Scoped.value_reached, hvalue]
  exact congrArg Reached.value (refs_field nowhere [] path s.value)

/-- A session that has nothing of a filtered dereference gets all that the documents around refer
to, as far as the filter may keep it. -/
theorem exists_sieve_served {m : Sieve} (hsifts : Sifts fetcher documents m.filter look)
    (hfree : m.filter.isFree = true) (href : Referring siblings)
    (hnew : σ.context.source? m.source = none)
    (hsiblings : Join.siblings? σ.context s = some siblings) :
    ∃ spec response, fetcher σ.fetches.length spec = .ok response ∧ response.start = 0 ∧
      (∀ v ∈ siblings, ∀ ref ∈ v.refsAt m.path,
        Value.firstWithId (response.results.map .ofJson) ref = look ref) ∧
      ∀ {r : Scoped} {ρ : Session},
        (run fetcher m.stages s).Yields (fetched σ m.source spec response) r ρ →
          (run fetcher m.stages s).Yields σ r ρ := by
  let nowhere (_ : List Value) (_ : Value) : Value := .null
  obtain ⟨found, hfound, hreached⟩ := @Route.yields_references_all fetcher nowhere σ (.field m.path)
    siblings (fun _ _ => rfl) trivial true siblings href
  obtain ⟨ids, hids, hfinds, -, hwanted⟩ := @Route.finds_ids nowhere siblings (fun _ _ => rfl)
    (.field m.path) true [] href found (hreached.trans (List.map_congr_left fun v _ => rfl))
  obtain ⟨response, hresponse, hstart, hfirst⟩ := hsifts.gives σ.fetches.length _ _ hfinds
  refine ⟨_, response, hresponse, hstart, fun v hv ref hmem => ?_, fun hrun => ?_⟩
  · refine hfirst ref (hwanted ref (List.mem_flatMap.mpr ⟨v, hv, ?_⟩))
    rw [refs_field]
    exact hmem
  · have hcompile := @yields_compileStages_join fetcher σ s [.filter m.filter] siblings _ found σ
      hsiblings (fun stage h => List.mem_singleton.mp h ▸ rfl) hfound
    rw [hids] at hcompile
    have hboth : (Operation.binary .and m.filter (idFilter ids)).isFree = true :=
      Bool.and_eq_true_iff.mpr ⟨hfree, rfl⟩
    have hfinish := @yields_finish_generalized _ _ s σ (generalize_free hboth)
    rw [ite_self] at hfinish
    exact yields_run_of_fetched hnew hcompile hfinish hresponse hrun

/-- A filtered dereference fetches once what the filter may keep. -/
theorem fetchesOnce_sieve {looks : Operation → Value → Value} {subjects : List Value} {m : Sieve}
    (hobjects : Objects documents) (htext : TextIds documents) (hdistinct : DistinctIds documents)
    (hsifts : Sifts fetcher documents m.filter (looks m.filter))
    (hkeep : KeptByFetching fetcher fun σ => σ.context.KeepsAll documents)
    (hfree : m.filter.isFree = true) (href : Referring siblings)
    (hsubjects : ∀ v ∈ subjects, v ∈ siblings)
    (heval : ∀ v ∈ subjects, ∀ ref ∈ v.refsAt m.path,
      ∃ w, Correlated.eval .null m.filter (looks m.filter ref) = .ok w) :
    FetchesOnce fetcher siblings subjects (fun σ => σ.context.KeepsAll documents)
      (m.linked looks siblings) := by
  refine fetchesOnce_assigned (fun h hserved => ?_) (fun {σ s} hkept hnew hsiblings _ => ?_)
    fun {σ s} hkept hserved hmem => ?_
  · obtain ⟨found, hfound, hfirst⟩ := hserved
    exact ⟨found, (h m.source List.mem_cons_self).trans hfound, hfirst⟩
  · obtain ⟨spec, response, hresponse, hstart, hfirst, hstep⟩ := exists_sieve_served hsifts hfree href
      (hnew m.source List.mem_cons_self) hsiblings
    refine ⟨fetched σ m.source spec response, hkeep m.source hresponse hkept,
      ⟨response.results.map .ofJson, ?_, hfirst⟩, fun k hk => source?_fetched_of_ne ?_ _ _,
      fun hr => yields_pipe.mpr (hstep (yields_pipe.mp hr))⟩
    · rw [← hstart]
      exact source?_store _ _ _
    · exact fun h => hk (List.mem_singleton.mpr h)
  · obtain ⟨found, hfound, hfirst⟩ := hserved
    have hsibling := hsubjects _ hmem
    obtain ⟨-, hnull, htextRefs⟩ := href _ hsibling
    obtain ⟨refs, hrefs, hvalue⟩ := @yields_refsAt fetcher σ s m.path hnull htextRefs
    have hlook : ∀ ref ∈ s.value.refsAt m.path,
        ((sourceScope m.source s ⟨found, 0⟩).lookup ref).value = looks m.filter ref := fun ref hmem =>
      (value_lookup ref rfl).trans (hfirst _ hsibling ref hmem)
    obtain ⟨r, τ, hr, hsifted, hτ, hsame⟩ := @yields_sift fetcher documents (looks m.filter) m.filter
      htext hdistinct hobjects (sourceScope m.source s ⟨found, 0⟩) s _ σ hlook
      (fun ref _ => hsifts.found ref) hfree (heval _ hmem) hkept
    refine ⟨r, τ, yields_pipe.mpr ((yields_run_known hfound).mpr
      (yields_applyStages_mapJoin.mpr ⟨refs, σ, hrefs, ?_⟩)), hsifted, hτ, hsame⟩
    rw [hvalue]
    exact hr

/-! ## Fetchers -/

/-- Whether the selector of a filter accepts a document. -/
def admits (filter : Operation) (d : Json) : Bool :=
  match Clause.ofFilter filter with
  | .ok clause => accepted clause (storedOf d)
  | .error _ => true

/-- What a reference leads to among the documents that a filter's selector accepts. -/
def lookAdmitted (documents : List Json) (filter : Operation) (ref : Value) : Value :=
  Value.firstWithId ((documents.filter (admits filter)).map .ofJson) ref

theorem isLookedUp_firstWithId {found : List Json} (hfound : ∀ d ∈ found, d ∈ documents)
    (ref : Value) : IsLookedUp documents (Value.firstWithId (found.map .ofJson) ref) := by
  unfold Value.firstWithId
  cases hfind : (found.map Value.ofJson).find? (Value.hasLooseId ref) with
  | none => exact .inl rfl
  | some v =>
    obtain ⟨d, hd, rfl⟩ := List.mem_map.mp (List.mem_of_find?_eq_some hfind)
    exact .inr ⟨d, hfound d hd, rfl⟩

theorem sifts_fullScan (documents : List Json) (filter : Operation) :
    Sifts (.fullScan documents) documents filter (Value.firstWithId (documents.map .ofJson)) where
  gives _ _ _ _ := ⟨_, rfl, rfl, fun _ _ => rfl⟩
  found := isLookedUp_firstWithId fun _ hd => hd

theorem sifts_collection (hdocuments : ∀ d ∈ documents, IsDocument d)
    (hread : filter.isReadFilter = true) (htranslated : ∃ clause, Clause.ofFilter filter = .ok clause)
    (pushdown : Bool) :
    Sifts (⟨pushdown, documents.map storedOf⟩ : Collection).fetcher documents filter
      (lookAdmitted documents filter) where
  gives n idFilter ids hfinds := by
    obtain ⟨clause, hclause⟩ := htranslated
    obtain ⟨idClause, hids, -⟩ := hfinds.translated
    have hboth : Clause.ofFilter (.binary .and filter idFilter) = .ok (clause.and idClause) := by
      rw [Clause.ofFilter, hclause, hids]
      rfl
    have hjudge : ∀ d ∈ documents, (clause.and idClause).judge (storedOf d) =
        .ok (admits filter d && ids.any fun id => Value.hasLooseId id (.ofJson d)) := by
      intro d hd
      have hadmits : admits filter d = accepted clause (storedOf d) := by
        rw [admits, hclause]
      rw [hadmits, ← hfinds.accepted_eq hids (hdocuments d hd)]
      exact Clause.judge_and (judge_eq_accepted_of_isReadFilter (hdocuments d hd) hread hclause)
        (judge_eq_accepted (hdocuments d hd) hfinds.plain hids)
    have haccepted : ∀ d ∈ documents, accepted (clause.and idClause) (storedOf d) =
        (admits filter d && ids.any fun id => Value.hasLooseId id (.ofJson d)) := by
      intro d hd
      rw [accepted, hjudge d hd]
    have hfetch := fetch_filtered_of_judge hdocuments hboth
      (fun d hd => (hjudge d hd).trans (congrArg _ (haccepted d hd).symm)) pushdown
    refine ⟨_, fetcher_eq_ok hfetch n, rfl, fun ref href => ?_⟩
    rw [results_respond fun d hd => hdocuments d (List.mem_filter.mp hd).1,
      List.filter_congr haccepted, lookAdmitted]
    rcases href with rfl | hmem
    · rw [Value.firstWithId_null, Value.firstWithId_null]
    · -- among the documents with the id of the reference, all that the filter admits are given
      refine Value.firstWithId_eq ?_
      rw [List.filter_map, List.filter_map, List.filter_filter, List.filter_filter]
      refine congrArg _ (List.filter_congr fun d _ => ?_)
      show (Value.hasLooseId ref (.ofJson d) && _) = (Value.hasLooseId ref (.ofJson d) && _)
      cases hloose : Value.hasLooseId ref (.ofJson d) with
      | false => rfl
      | true =>
        have hany : (ids.any fun id => Value.hasLooseId id (.ofJson d)) = true :=
          List.any_eq_true.mpr ⟨ref, hmem, hloose⟩
        rw [hany, Bool.and_true]
  found := isLookedUp_firstWithId fun _ hd => (List.mem_filter.mp hd).1

/-- A full scan says nothing of references. -/
theorem keptByFetching_fullScan (documents : List Json) :
    KeptByFetching (.fullScan documents) fun σ => σ.context.KeepsAll documents := by
  intro σ id spec response hresponse hσ
  cases hresponse
  exact hσ.store fun _ _ h => absurd h List.not_mem_nil

/-- What a collection says of references is right. -/
theorem keptByFetching_collection (hdocuments : ∀ d ∈ documents, IsDocument d)
    (htext : TextIds documents) (hdistinct : DistinctIds documents) (pushdown : Bool) :
    KeptByFetching (⟨pushdown, documents.map storedOf⟩ : Collection).fetcher
      fun σ => σ.context.KeepsAll documents := by
  intro σ id spec response hresponse hσ
  cases hfetch : (⟨pushdown, documents.map storedOf⟩ : Collection).fetch spec with
  | error e =>
    rw [Collection.fetcher, hfetch] at hresponse
    cases hresponse
  | ok answer =>
    cases hresponse.symm.trans (fetcher_eq_ok hfetch _)
    exact keepsAll_fetched hdocuments htext hdistinct hfetch hσ id

/-! ## What a store leaves out -/

/-- The id of a document that a text refers to. -/
theorem get?_of_hasLooseId (htext : TextIds documents) {d : Json} (hd : d ∈ documents) {s : String}
    (h : Value.hasLooseId (.string s) (.ofJson d) = true) : d.get? "_id" = some (.str s) := by
  rw [Value.hasLooseId, Value.getD, Value.get?_ofJson] at h
  cases hid : d.get? "_id" with
  | none =>
    rw [hid] at h
    cases h
  | some id =>
    obtain ⟨t, rfl⟩ := htext d hd id hid
    rw [hid] at h
    have hst : t = s := beq_iff_eq.mp h
    rw [hst]

/-- A text refers to one document at most. -/
theorem eq_of_hasLooseId (htext : TextIds documents) (hdistinct : DistinctIds documents)
    {ref : Value} (href : ref.isText = true) {d e : Json} (hd : d ∈ documents) (he : e ∈ documents)
    (hlooseD : Value.hasLooseId ref (.ofJson d) = true)
    (hlooseE : Value.hasLooseId ref (.ofJson e) = true) : d = e := by
  obtain ⟨s, rfl, -⟩ := Value.exists_of_isText href
  have hidD := get?_of_hasLooseId htext hd hlooseD
  have hidE := get?_of_hasLooseId htext he hlooseE
  exact hdistinct.eq_of_sameId hd he (sameId_of_text hidD hidE) (sameId_of_text hidE hidD)

/-- A reference leads to the only document with its id. -/
theorem firstWithId_only {found : List Json} {ref : Value} {d : Json} (hd : d ∈ found)
    (hloose : Value.hasLooseId ref (.ofJson d) = true)
    (honly : ∀ e ∈ found, Value.hasLooseId ref (.ofJson e) = true → e = d) :
    Value.firstWithId (found.map .ofJson) ref = .ofJson d := by
  unfold Value.firstWithId
  rw [List.find?_map]
  cases hfind : found.find? (Value.hasLooseId ref ∘ Value.ofJson) with
  | none => exact absurd hloose (List.find?_eq_none.mp hfind d hd)
  | some e =>
    have hlooseE : (Value.hasLooseId ref ∘ Value.ofJson) e = true := List.find?_some hfind
    obtain rfl := honly e (List.mem_of_find?_eq_some hfind) hlooseE
    rfl

/-- A reference leads nowhere among documents with other ids. -/
theorem firstWithId_absent {found : List Json} {ref : Value}
    (habsent : ∀ e ∈ found, Value.hasLooseId ref (.ofJson e) ≠ true) :
    Value.firstWithId (found.map .ofJson) ref = .null := by
  have hnone : (found.map Value.ofJson).find? (Value.hasLooseId ref) = none :=
    List.find?_eq_none.mpr (List.forall_mem_map.mpr habsent)
  rw [Value.firstWithId, hnone]
  rfl

/-- A reference leads to the same document among those that a filter admits, unless it is one that
the filter does not admit. -/
theorem lookAdmitted_cases (htext : TextIds documents) (hdistinct : DistinctIds documents)
    (filter : Operation) {ref : Value} (href : ref = .null ∨ ref.isText = true) :
    lookAdmitted documents filter ref = Value.firstWithId (documents.map .ofJson) ref ∨
      lookAdmitted documents filter ref = .null ∧ ∃ d ∈ documents, admits filter d = false ∧
        Value.firstWithId (documents.map .ofJson) ref = .ofJson d := by
  rcases href with rfl | href
  · rw [lookAdmitted, Value.firstWithId_null, Value.firstWithId_null]
    exact .inl rfl
  by_cases hany : ∃ d ∈ documents, Value.hasLooseId ref (.ofJson d) = true
  · obtain ⟨d, hd, hloose⟩ := hany
    have honly : ∀ e ∈ documents, Value.hasLooseId ref (.ofJson e) = true → e = d :=
      fun e he hlooseE => eq_of_hasLooseId htext hdistinct href he hd hlooseE hloose
    have hall := firstWithId_only hd hloose honly
    cases hadmits : admits filter d with
    | true =>
      refine .inl ((firstWithId_only (List.mem_filter.mpr ⟨hd, hadmits⟩) hloose fun e he => ?_).trans
        hall.symm)
      exact honly e (List.mem_filter.mp he).1
    | false =>
      refine .inr ⟨firstWithId_absent fun e he hlooseE => ?_, d, hd, hadmits, hall⟩
      obtain ⟨he, hadmitted⟩ := List.mem_filter.mp he
      rw [honly e he hlooseE, hadmits] at hadmitted
      cases hadmitted
  · have habsent : ∀ e ∈ documents, Value.hasLooseId ref (.ofJson e) ≠ true :=
      fun e he hloose => hany ⟨e, he, hloose⟩
    refine .inl ((firstWithId_absent fun e he => ?_).trans (firstWithId_absent habsent).symm)
    exact habsent e (List.mem_filter.mp he).1

/-- A filter that is `true` of a document admits it. -/
theorem admits_of_holds {outer : Value} {d : Json} (hdocument : IsDocument d)
    (hfree : filter.isFree = true) (hread : filter.isReadFilter = true)
    (h : Correlated.holds outer filter (.ofJson d) = true) : admits filter d = true := by
  unfold admits
  split
  · next clause hclause =>
    have hdescribes := describes_free hdocument hfree hread hclause (Correlated.holds_iff.mp h)
    exact accepted_iff.mpr (hdescribes.keeps rfl)
  · rfl

/-- A filter that calls `references()` only for its truth is not `true` of null if it does not admit
some document. -/
theorem holds_null_of_admits {outer : Value} {d : Json} (hdocument : IsDocument d)
    (hread : filter.isReadFilter = true) (hseeks : filter.seeksReferences true = true)
    (h : admits filter d = false) : Correlated.holds outer filter .null = false := by
  cases hholds : Correlated.holds outer filter .null with
  | false => rfl
  | true =>
    unfold admits at h
    split at h
    · next clause hclause =>
      have hjudge := judge_eq_accepted_of_isReadFilter hdocument hread hclause
      rw [h] at hjudge
      obtain ⟨fields, rfl⟩ := hdocument.isObject
      exact absurd rfl (Clause.vouches_ofFilter fields hseeks hread hclause
        (Correlated.holds_iff.mp hholds) nofun hjudge)
    · cases h

/-- The same is left where both images of an element are left out or are the same. -/
theorem filter_map_congr {α β : Type} {f g : α → β} {p : β → Bool} {xs : List α}
    (h : ∀ x ∈ xs, f x = g x ∨ p (f x) = false ∧ p (g x) = false) :
    (xs.map f).filter p = (xs.map g).filter p := by
  induction xs with
  | nil => rfl
  | cons x xs ih =>
    have hrest := ih fun y hy => h y (List.mem_cons_of_mem x hy)
    rw [List.map_cons, List.map_cons, List.filter_cons, List.filter_cons, hrest]
    rcases h x List.mem_cons_self with hx | ⟨hf, hg⟩
    · rw [hx]
    · rw [hf, hg]
      rfl

/-- **Leaving out what a filter does not admit changes nothing, unless the filter is `true` of null
where it is not of a document.** -/
theorem sifted_admitted (hdocuments : ∀ d ∈ documents, IsDocument d) (htext : TextIds documents)
    (hdistinct : DistinctIds documents) (hfree : filter.isFree = true)
    (hread : filter.isReadFilter = true)
    (hnull : ∀ d ∈ documents, admits filter d = false →
      Correlated.holds .null filter .null = false) {v : Value} (hv : v.hasTextRefs = true)
    (path : List String) :
    Sieve.sifted (lookAdmitted documents filter) path filter v =
      Sieve.sifted (Value.firstWithId (documents.map .ofJson)) path filter v := by
  refine congrArg Value.array (filter_map_congr fun ref hmem => ?_)
  have href := Value.refsAt_text hv path ref hmem
  rcases lookAdmitted_cases htext hdistinct filter href with h | ⟨hmissing, d, hd, hadmits, h⟩
  · exact .inl h
  · refine .inr ⟨?_, ?_⟩
    · rw [hmissing]
      exact hnull d hd hadmits
    · rw [h]
      cases hholds : Correlated.holds .null filter (.ofJson d) with
      | false => rfl
      | true =>
        rw [admits_of_holds (hdocuments d hd) hfree hread hholds] at hadmits
        cases hadmits

end Pushdown
end DocQuery
