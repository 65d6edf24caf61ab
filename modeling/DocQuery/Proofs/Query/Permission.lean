import DocQuery.Proofs.Engine.Inquiries
import DocQuery.Proofs.Engine.Secluded
import DocQuery.Proofs.Query.Hidden

/-!
# Permissions

Whether a document passes a filter is decided in two ways. `matchesFilter` runs the filter over the
document alone, and lists its references when it is asked for them. A query `*[filter]` over a
collection asks the store first, which reads the filter as a selector on the references that it
keeps, and filters what it gets once more, with the references that came along.

**Both decide alike** (`Query.result_permitted`): each comes to the verdict of the filter when every
value answers for itself. What is remembered of references goes by the text of an `_id`, so for that
no two values that are asked may have one text and different references (`Unambiguous`). Where the
filter asks of the documents alone, distinct ids are enough (`Query.result_permitted_within`); an
element of a document with the `_id` of the document is taken for the document by the query, and not
by `matchesFilter` (`Query.result_unpermitted`).
-/

set_option autoImplicit false

namespace DocQuery

open Operation Planner Run Engine Pushdown Collection

/-! ## Values that cannot be mistaken -/

/-- No two of the values have one text for their `_id` and different references. -/
def Unambiguous (vs : List Value) : Prop :=
  ∀ v ∈ vs, ∀ w ∈ vs, (Context.documentKey? v).isSome →
    Context.documentKey? v = Context.documentKey? w → findReferences v = findReferences w

instance decidableUnambiguous (vs : List Value) : Decidable (Unambiguous vs) :=
  inferInstanceAs (Decidable (∀ v ∈ vs, ∀ w ∈ vs, _ → _ → _))

/-- What a session remembers of the values is right. -/
def Session.Keeps (vs : List Value) (σ : Session) : Prop := ∀ v ∈ vs, σ.context.KeepsOwn v

namespace Session

variable {vs : List Value} {σ : Session}

theorem keeps_empty (vs : List Value) : Session.empty.Keeps vs :=
  fun v _ => Context.keepsOwn_empty v

theorem Keeps.faithful (h : Unambiguous vs) {v : Value} (hv : v ∈ vs) :
    Session.Faithful (Session.Keeps vs) v where
  decides _ hσ ids := Context.refersTo_eq (hσ v hv) ids
  keeps _ hσ ids w hw := (hσ w hw).refersTo_other (fun _ hkey hkey' =>
    h v hv w hw (Option.isSome_of_eq_some hkey) (hkey.trans hkey'.symm)) ids

/-- A response that supplies nothing but the references of its documents, which are among the
values, leaves what is remembered right. -/
theorem Keeps.fetched (h : Unambiguous vs) (hσ : σ.Keeps vs) {response : FetchResponse}
    (hsupplies : response.SuppliesOwn) (hresults : ∀ d ∈ response.results, .ofJson d ∈ vs)
    (id : SourceId) (spec : FetchSpec) : (fetched σ id spec response).Keeps vs := by
  refine fun v hv => (hσ v hv).store fun key found hmem hkey => ?_
  obtain ⟨d, hd, hdkey, rfl⟩ :=
    (hsupplies key found hmem).resolve_left (Context.documentKey?_ne_empty hkey)
  exact h _ (hresults d hd) v hv (Option.isSome_of_eq_some hdkey) (hdkey.trans hkey.symm)

end Session

/-! ## Fetching by a filter that does not go outwards -/

namespace Join

theorem isParentAccessor_of_isSecluded {o : Operation} (h : o.IsSecluded) :
    o.isParentAccessor = false := by
  cases o with
  | accessor path =>
    cases path with
    | nil => rfl
    | cons step path =>
      cases step with
      | attr name => rfl
      | parent =>
        have hpath : PathStep.parent ∉ PathStep.parent :: path := h.resolve_left (by decide)
        exact absurd List.mem_cons_self hpath
  | _ => rfl

theorem isSecluded_of_mem {os : List Operation} (h : ConformsAll .secluded anySource os)
    {o : Operation} (ho : o ∈ os) : o.IsSecluded := by
  induction os with
  | nil => cases ho
  | cons p os ih =>
    rcases List.mem_cons.mp ho with rfl | ho
    · exact h.1
    · exact ih h.2 ho

theorem inward_isSecluded : Inward Operation.IsSecluded where
  accessor := isParentAccessor_of_isSecluded
  binary h := h
  not h := h
  references h _ ho := isSecluded_of_mem h.2 ho

end Join

namespace Permission

variable {fetcher : Fetcher} {keep : Session → Prop} {condition : Operation} {σ τ : Session}
  {r : Scoped} {documents : List Json}

theorem yields_finish (h : condition.IsSecluded) {s : Scope} {spec : FetchSpec} :
    (finish s (.filtered condition)).Yields σ spec τ ↔ spec = .filtered condition ∧ τ = σ := by
  have hsame : (if condition.same condition then FetchSpec.filtered condition
      else .filtered condition) = .filtered condition := ite_self _
  show (Run.context >>= fun c =>
    Run.ofExcept (Join.generalize c s condition) >>= _).Yields _ _ _ ↔ _
  simp only [yields_bind, yields_context, Join.inward_isSecluded.generalize_eq h, yields_ofExcept]
  constructor
  · rintro ⟨_, _, ⟨rfl, rfl⟩, _, _, ⟨⟨⟩, rfl⟩, hrest⟩
    obtain ⟨hspec, rfl⟩ := yields_pure.mp hrest
    exact ⟨hspec.trans hsame, rfl⟩
  · rintro ⟨hspec, rfl⟩
    exact ⟨_, τ, ⟨rfl, rfl⟩, some condition, τ, ⟨rfl, rfl⟩,
      yields_pure.mpr ⟨hspec.trans hsame.symm, rfl⟩⟩

/-- A source and a filter: the documents that are fetched by the filter are filtered by it. -/
theorem yields_run (h : condition.IsSecluded) :
    (run fetcher [.source 1, .filter condition] .root).Yields .empty r τ ↔
      ∃ response kept, fetcher 0 (.filtered condition) = .ok response ∧
        (keepScopes (fun s => exec fetcher condition s)
          (response.results.map (documentScope 1 .root))).Yields
            (fetched .empty 1 (.filtered condition) response) kept τ ∧
        r = .many kept response.start := by
  have hcompile : ∀ {spec : FetchSpec} {ρ : Session},
      (compileStages fetcher [.filter condition] .root).Yields .empty spec ρ ↔
        spec = .filtered condition ∧ ρ = .empty := yields_pure
  have hfilter : ∀ {response : FetchResponse} {ρ : Session},
      (applyStages fetcher [.filter condition] (.one (sourceScope 1 .root
        ⟨response.results.map .ofJson, response.start⟩)) .root).Yields ρ r τ ↔
      ∃ kept, (keepScopes (fun s => exec fetcher condition s)
        (response.results.map (documentScope 1 .root))).Yields ρ kept τ ∧
          r = .many kept response.start := by
    intro response ρ
    rw [yields_applyStages_filter]
    unfold filterScopes
    rw [candidates_source]
    simp only [yields_bind, applyStages, yields_pure]
    constructor
    · rintro ⟨_, _, ⟨kept, _, hkept, rfl, rfl⟩, rfl, rfl⟩
      exact ⟨kept, hkept, rfl⟩
    · rintro ⟨kept, hkept, rfl⟩
      exact ⟨_, τ, ⟨kept, τ, hkept, rfl, rfl⟩, rfl, rfl⟩
  rw [yields_run_new rfl]
  simp only [hcompile, hfilter]
  constructor
  · rintro ⟨_, _, _, _, response, ⟨rfl, rfl⟩, hfinish, hfetch, kept, hkept, rfl⟩
    obtain ⟨rfl, rfl⟩ := (yields_finish h).mp hfinish
    exact ⟨response, kept, hfetch, hkept, rfl⟩
  · rintro ⟨response, kept, hfetch, hkept, rfl⟩
    exact ⟨_, _, _, _, response, ⟨rfl, rfl⟩, (yields_finish h).mpr ⟨rfl, rfl⟩, hfetch, kept, hkept,
      rfl⟩

/-! ## Verdicts -/

/-- The values that a filter asks for references at a document. -/
def asked (condition : Operation) (d : Json) : List Value :=
  (Dialogue.exec condition (documentScope 1 .root d)).subjects

/-- Whether a filter keeps a document, when every value answers for itself. -/
def verdict (condition : Operation) (d : Json) : Except ExecError Bool :=
  (Dialogue.exec condition (documentScope 1 .root d)).truth.map fun r => r.value.same (.bool true)

theorem comesTo_verdict (h : condition.IsSecluded) {d : Json}
    (hkeep : ∀ v ∈ asked condition d, Session.Faithful keep v) :
    ComesTo keep (fun r => r.value.same (.bool true))
      (exec fetcher condition (documentScope 1 .root d)) (verdict condition d) := by
  intro σ hσ
  obtain ⟨r, τ, hr, htruth, hτ⟩ := @Dialogue.comesTo_exec keep fetcher _ _ h hkeep σ hσ
  rw [Except.map_id] at htruth
  exact ⟨r, τ, hr, congrArg (Except.map _) htruth, hτ⟩

/-- Of some documents, those are kept for which the verdict is to keep them. -/
theorem exists_yields_keepScopes (h : condition.IsSecluded) {p : Json → Bool}
    (hverdict : ∀ d ∈ documents, verdict condition d = .ok (p d))
    (hkeep : ∀ d ∈ documents, ∀ v ∈ asked condition d, Session.Faithful keep v) (hσ : keep σ) :
    ∃ τ, (keepScopes (fun s => exec fetcher condition s)
      (documents.map (documentScope 1 .root))).Yields σ
        ((documents.filter p).map (documentScope 1 .root)) τ := by
  induction documents generalizing σ with
  | nil => exact ⟨σ, yields_pure.mpr ⟨rfl, rfl⟩⟩
  | cons d ds ih =>
    have hhere := @comesTo_verdict fetcher keep condition h d (hkeep d List.mem_cons_self)
    rw [hverdict d List.mem_cons_self] at hhere
    obtain ⟨r, ρ, hr, hkept, hρ⟩ := hhere.yields hσ
    obtain ⟨τ, hrest⟩ := ih (fun e he => hverdict e (List.mem_cons_of_mem d he))
      (fun e he => hkeep e (List.mem_cons_of_mem d he)) hρ
    refine ⟨τ, ?_⟩
    rw [List.map_cons, keepScopes]
    simp only [yields_bind, yields_pure]
    refine ⟨r, ρ, hr, _, τ, hrest, ?_, rfl⟩
    rw [hkept, List.filter_cons]
    split <;> rfl

/-- A document passes a filter by the filter's verdict, if none of the values that are asked can be
mistaken for another. -/
theorem verdict_eq {filter : Node} {params : Params} (h : condition.IsSecluded)
    (hplan : Query.operation ⟨.filtered filter, params, none⟩ =
      .ok (.pipe [.source 1, .filter condition] none)) {d : Json}
    (hasked : Unambiguous (asked condition d))
    (hmatches : ∃ kept, matchesFilter d filter params = .ok kept) :
    verdict condition d = .ok (passes filter params d) := by
  obtain ⟨kept, hmatches⟩ := hmatches
  obtain ⟨r, τ, hr, hkept⟩ := exists_yields_of_matchesFilter hplan hmatches
  obtain ⟨response, scopes, hfetch, hscopes, rfl⟩ := (yields_run h).mp hr
  cases hfetch
  have hkeep : (fetched .empty 1 (.filtered condition) (.ofResults [d])).Keeps
      (asked condition d) := Session.keeps_empty _
  have hcomes := @comesTo_verdict (.fullScan [d]) _ condition h d
    fun v hv => Session.Keeps.faithful hasked hv
  have hpasses : passes filter params d = kept := by
    rw [passes, hmatches]
    rfl
  obtain ⟨result, ρ, hresult, hscopes⟩ := yields_bind.mp hscopes
  obtain ⟨_, _, hnone, hscopes⟩ := yields_bind.mp hscopes
  obtain ⟨rfl, -⟩ := yields_pure.mp hnone
  obtain ⟨rfl, -⟩ := yields_pure.mp hscopes
  rw [(hcomes.of_yields hkeep hresult).1, hpasses, hkept]
  cases result.value.same (.bool true) <;> rfl

/-- The filter in the plan of a query does not use what the filter in its syntax tree does not. -/
theorem isSecluded_of_operation {filter : Node} {params : Params}
    (hplan : Query.operation ⟨.filtered filter, params, none⟩ =
      .ok (.pipe [.source 1, .filter condition] none)) (h : filter.usesOnly .secluded = true) :
    condition.IsSecluded := by
  obtain ⟨base, _, hbase, ⟨-, rfl⟩ | ⟨_, _, _, hnone, -⟩⟩ := Query.gives_of_operation hplan
  · obtain ⟨_, _, _, heverything, hfilter, heq⟩ := gives_pipe.mp hbase
    obtain ⟨rfl, -⟩ := gives_everything.mp heverything
    obtain ⟨composed, hcomposed, rfl⟩ := gives_filter.mp hfilter
    cases heq
    exact conforms_compose h hcomposed
  · cases hnone

/-! ## What the store lets through -/

section

variable {o : Operation} {s : Scope} {v : Value}

theorem subjects_lhs {op : BinaryOp} {lhs rhs : Operation}
    (h : v ∈ (Dialogue.exec lhs s).subjects) :
    v ∈ (Dialogue.exec (.binary op lhs rhs) s).subjects := by
  rw [Dialogue.exec]
  exact Dialogue.mem_subjects_bind.mpr (.inl h)

theorem subjects_rhs {op : BinaryOp} {lhs rhs : Operation} {a : Scoped}
    (ha : (Dialogue.exec lhs s).truth = .ok a) (h : v ∈ (Dialogue.exec rhs s).subjects) :
    v ∈ (Dialogue.exec (.binary op lhs rhs) s).subjects := by
  rw [Dialogue.exec]
  exact Dialogue.mem_subjects_bind.mpr (.inr ⟨a, ha, Dialogue.mem_subjects_bind.mpr (.inl h)⟩)

theorem subjects_not {operand : Operation} (h : v ∈ (Dialogue.exec operand s).subjects) :
    v ∈ (Dialogue.exec (.not operand) s).subjects := by
  rw [Dialogue.exec]
  exact Dialogue.mem_subjects_bind.mpr (.inl h)

theorem subjects_arguments {function : Function} {arguments : List Operation}
    (h : v ∈ (Dialogue.execAll arguments s).subjects) :
    v ∈ (Dialogue.exec (.call function arguments) s).subjects := by
  rw [Dialogue.exec]
  exact Dialogue.mem_subjects_bind.mpr (.inl h)

end

/-- Where the sessions are faithful to all that is asked, `references()` of the document is decided
on its own references. -/
theorem referencesOwn {s : Scope} (hown : ∀ σ, keep σ → σ.context.KeepsOwn s.value) :
    ∀ {o : Operation} {σ : Session}, o.IsSecluded →
      (∀ v ∈ (Dialogue.exec o s).subjects, Session.Faithful keep v) → keep σ →
        ReferencesOwn fetcher s o σ
  | .filter condition, σ, h, hkeep, hσ => referencesOwn hown (o := condition) h hkeep hσ
  | .binary op lhs rhs, σ, h, hkeep, hσ => by
    have hlhs := fun v hv => hkeep v (subjects_lhs hv)
    cases op with
    | and | or =>
      refine ⟨referencesOwn hown h.1 hlhs hσ, fun a ρ ha => ?_⟩
      obtain ⟨htruth, hρ⟩ := (Dialogue.comesTo_exec h.1 hlhs).of_yields hσ ha
      exact referencesOwn hown h.2 (fun v hv => hkeep v (subjects_rhs htruth hv)) hρ
    | _ => trivial
  | .not operand, σ, h, hkeep, hσ =>
    referencesOwn hown (o := operand) h (fun v hv => hkeep v (subjects_not hv)) hσ
  | .call function arguments, σ, h, hkeep, hσ => by
    cases function with
    | references =>
      intro values ρ hvalues
      have hcomes := @Dialogue.comesTo_execAll keep fetcher s _ h.2
        fun v hv => hkeep v (subjects_arguments hv)
      exact hown ρ (hcomes.of_yields hσ hvalues).2
    | _ => trivial
  | .source _, _, _, _, _ | .accessor _, _, _, _, _ | .literal _, _, _, _, _ | .object _, _, _, _, _
  | .array _, _, _, _, _ | .assignment _ _, _, _, _, _ | .splat, _, _, _, _
  | .subscript _, _, _, _, _ | .range _ _ _, _, _, _, _ | .ordering _, _, _, _, _
  | .sortDirection _, _, _, _, _ | .pipe _ _, _, _, _, _ | .mapJoin _, _, _, _, _ => trivial

/-- The store accepts every document that the filter keeps. -/
theorem accepted_of_verdict {clause : Clause} {d : Json} (h : condition.IsSecluded)
    (hplain : condition.isPlainFilter = true) (htranslated : Clause.ofFilter condition = .ok clause)
    (hdocument : IsDocument d) {vs : List Value} (hasked : Unambiguous vs) (hd : .ofJson d ∈ vs)
    (hvs : ∀ v ∈ asked condition d, v ∈ vs) (hverdict : verdict condition d = .ok true) :
    accepted clause (storedOf d) = true := by
  have hfaithful := fun v hv => Session.Keeps.faithful hasked (hvs v hv)
  have hcomes := @comesTo_verdict (.fullScan []) _ condition h d hfaithful
  rw [hverdict] at hcomes
  obtain ⟨r, τ, hr, hkept, -⟩ := hcomes.yields (Session.keeps_empty vs)
  have hown : ReferencesOwn (.fullScan []) (documentScope 1 .root d) condition .empty :=
    referencesOwn (fun σ hσ => hσ _ hd) h hfaithful (Session.keeps_empty vs)
  have hunstored := unstored_storedOf hdocument
  obtain ⟨fields, rfl⟩ := hdocument.isObject
  have hvalue : (documentScope 1 .root (.obj fields)).value =
      Value.ofJson (unstored (stored fields)).1 := congrArg Value.ofJson hunstored.symm
  have hdescribes := Clause.describes_ofFilter hvalue htranslated hplain hown hr
  exact accepted_iff.mpr (hdescribes.keeps (Value.same_true.mp hkept))

/-- Distinct ids that are texts are enough where the filter asks of the documents alone. -/
theorem unambiguous_of_within {paths : List PathStep → Bool} {functions : Function → Bool}
    (h : condition.within paths functions = true) (htext : TextIds documents)
    (hdistinct : DistinctIds documents) :
    Unambiguous (documents.map Value.ofJson ++ documents.flatMap (asked condition)) := by
  have hdocument : ∀ v ∈ documents.map Value.ofJson ++ documents.flatMap (asked condition),
      ∃ d ∈ documents, v = .ofJson d := by
    intro v hv
    rcases List.mem_append.mp hv with hv | hv
    · obtain ⟨d, hd, rfl⟩ := List.mem_map.mp hv
      exact ⟨d, hd, rfl⟩
    · obtain ⟨d, hd, hv⟩ := List.mem_flatMap.mp hv
      exact ⟨d, hd, Dialogue.asksOf_exec h (documentScope 1 .root d) v hv⟩
  intro v hv w hw hkey hsame
  obtain ⟨d, hd, rfl⟩ := hdocument v hv
  obtain ⟨e, he, rfl⟩ := hdocument w hw
  obtain ⟨key, hkey⟩ := Option.isSome_iff_exists.mp hkey
  rw [Context.eq_of_documentKey? htext hdistinct hd he hkey (hsame.symm.trans hkey)]

/-! ## What the query gives -/

variable {filter : Node} {params : Params}

/-- The documents that pass are left of those that the store gives. -/
theorem yields_permitted {clause : Clause} (h : condition.IsSecluded)
    (hplan : Query.operation ⟨.filtered filter, params, none⟩ =
      .ok (.pipe [.source 1, .filter condition] none))
    (hplain : condition.isPlainFilter = true) (htranslated : Clause.ofFilter condition = .ok clause)
    (hdocuments : ∀ d ∈ documents, IsDocument d) (hdistinct : DistinctIds documents)
    (hmatches : ∀ d ∈ documents, ∃ kept, matchesFilter d filter params = .ok kept)
    (hasked : Unambiguous (documents.map Value.ofJson ++ documents.flatMap (asked condition)))
    (pushdown : Bool) :
    ∃ τ, (run (Collection.fetcher ⟨pushdown, documents.map storedOf⟩) [.source 1, .filter condition]
      .root).Yields .empty (.many ((documents.filter (passes filter params)).map
        (documentScope 1 .root)) 0) τ := by
  let vs := documents.map Value.ofJson ++ documents.flatMap (asked condition)
  have hvs : ∀ d ∈ documents, ∀ v ∈ asked condition d, v ∈ vs := fun d hd v hv =>
    List.mem_append_right _ (List.mem_flatMap.mpr ⟨d, hd, hv⟩)
  have hin : ∀ d ∈ documents, .ofJson d ∈ vs := fun d hd =>
    List.mem_append_left _ (List.mem_map_of_mem hd)
  have hverdict : ∀ d ∈ documents, verdict condition d = .ok (passes filter params d) :=
    fun d hd => verdict_eq h hplan
      (fun v hv w hw => hasked v (hvs d hd v hv) w (hvs d hd w hw)) (hmatches d hd)
  -- what the collection gives, and what is remembered of it
  let held := documents.filter fun d => accepted clause (storedOf d)
  have hheld : ∀ d ∈ held, d ∈ documents := fun d hd => (List.mem_filter.mp hd).1
  have hfetch := fetcher_eq_ok (fetch_filtered hdocuments hplain htranslated pushdown) 0
  have hresults : (respond (held.map storedOf) 0).results = held :=
    results_respond (fun d hd => hdocuments d (hheld d hd)) 0
  have hbuilt := Built.of_ofDocuments (ofDocuments_eq hdocuments hdistinct pushdown)
  have hkeep := Session.Keeps.fetched hasked (Session.keeps_empty _)
    (suppliesOwn_fetcher hbuilt _ _ _ hfetch)
    (fun d hd => hin d (hheld d (hresults ▸ hd))) 1 (.filtered condition)
  obtain ⟨τ, hkept⟩ := @exists_yields_keepScopes
    (Collection.fetcher ⟨pushdown, documents.map storedOf⟩) _ condition _ held h _
    (fun d hd => hverdict d (hheld d hd))
    (fun d hd v hv => Session.Keeps.faithful hasked (hvs d (hheld d hd) v hv)) hkeep
  have hboth : held.filter (passes filter params) = documents.filter (passes filter params) := by
    rw [List.filter_filter]
    refine List.filter_congr fun d hd => ?_
    cases hpasses : passes filter params d with
    | false => rfl
    | true =>
      exact accepted_of_verdict h hplain htranslated (hdocuments d hd) hasked (hin d hd)
        (hvs d hd) (hpasses ▸ hverdict d hd)
  rw [hboth, ← hresults] at hkept
  exact ⟨τ, (yields_run h).mpr ⟨_, _, hfetch, hkept, rfl⟩⟩

/-- Documents that a run leaves are the result. -/
theorem result_of_yields (hplan : Query.operation ⟨.filtered filter, params, none⟩ =
      .ok (.pipe [.source 1, .filter condition] none))
    (hrun : ∃ τ, (run fetcher [.source 1, .filter condition] .root).Yields .empty
      (.many (documents.map (documentScope 1 .root)) 0) τ) :
    Query.result ⟨.filtered filter, params, none⟩ fetcher =
      .ok (.arr (documents.map fun d => (Value.ofJson d).toJson)) := by
  obtain ⟨τ, hrun⟩ := hrun
  refine (Query.result_eq_ok hplan).mpr ⟨_, τ, yields_pipe.mpr hrun, ?_⟩
  show _ = Json.arr (Value.toItems _)
  rw [Value.toItems_eq_map, List.map_map, List.map_map]
  rfl

end Permission

open Permission

/-- **The permission check agrees with the query.** Let a filter without sources and `^` be read by
the store as by the engine, and let it be possible to match every one of some documents against it.
If no two of the documents and of the values that it asks for references have one text for their
`_id` and different references, then `*[filter]` over a collection of the documents, whether that
sorts and cuts or not, succeeds and gives the documents that pass the filter, in their order. -/
theorem Query.result_permitted {documents : List Json} {filter : Node} {params : Params}
    {condition : Operation}
    (hplan : Query.operation ⟨.filtered filter, params, none⟩ =
      .ok (.pipe [.source 1, .filter condition] none))
    (hsecluded : filter.usesOnly .secluded = true) (hplain : condition.isPlainFilter = true)
    (htranslated : ∃ clause, Clause.ofFilter condition = .ok clause)
    (hdocuments : ∀ d ∈ documents, IsDocument d) (hdistinct : DistinctIds documents)
    (hmatches : ∀ d ∈ documents, ∃ kept, matchesFilter d filter params = .ok kept)
    (hasked : Unambiguous (documents.map Value.ofJson ++ documents.flatMap (asked condition)))
    (pushdown : Bool) :
    ∃ c, ofDocuments pushdown documents = .ok c ∧
      Query.result ⟨.filtered filter, params, none⟩ c.fetcher = .ok (.arr
        ((documents.filter (passes filter params)).map fun d => (Value.ofJson d).toJson)) := by
  obtain ⟨clause, htranslated⟩ := htranslated
  have hcondition := isSecluded_of_operation hplan hsecluded
  have hrun := yields_permitted hcondition hplan hplain htranslated hdocuments hdistinct hmatches
    hasked pushdown
  exact ⟨_, ofDocuments_eq hdocuments hdistinct pushdown, result_of_yields hplan hrun⟩

/-- Documents with an item that refers to an id. The items have ids of their own. -/
theorem Query.result_permitted_items :
    let filter : Node := .binary .greater (.functionCall "count" [.pipe (.attr "items")
      (.constraint (some (.functionCall "references" [.string "x"])))]) (.integer 0)
    let documents : List Json := [
      .obj [("_id", .str "a"),
        ("items", .arr [.obj [("_id", .str "i"), ("r", .obj [("_ref", .str "x")])]])],
      .obj [("_id", .str "b"), ("items", .arr []), ("r", .obj [("_ref", .str "x")])]]
    ∀ pushdown, ∃ c, ofDocuments pushdown documents = .ok c ∧
      Query.result ⟨.filtered filter, [], none⟩ c.fetcher = .ok (.arr (documents.take 1)) := by
  intro filter documents pushdown
  have hmatches : ∀ d ∈ documents, ∃ kept, matchesFilter d filter [] = .ok kept := by
    intro d hd
    simp only [documents, List.mem_cons, List.not_mem_nil, or_false] at hd
    rcases hd with rfl | rfl <;> exact ⟨_, by with_unfolding_all rfl⟩
  obtain ⟨c, hc, hresult⟩ := @Query.result_permitted documents filter [] _
    (by with_unfolding_all rfl) (by decide) (by decide +kernel) ⟨_, rfl⟩ (by decide) (by decide)
    hmatches (by decide +kernel) pushdown
  exact ⟨c, hc, hresult.trans (by with_unfolding_all rfl)⟩

/-- Where the filter has no pipeline inside, it asks of the documents alone: the two agree if the ids
are distinct texts. -/
theorem Query.result_permitted_within {documents : List Json} {filter : Node} {params : Params}
    {condition : Operation} {paths : List PathStep → Bool} {functions : Function → Bool}
    (hplan : Query.operation ⟨.filtered filter, params, none⟩ =
      .ok (.pipe [.source 1, .filter condition] none))
    (hsecluded : filter.usesOnly .secluded = true) (hplain : condition.isPlainFilter = true)
    (htranslated : ∃ clause, Clause.ofFilter condition = .ok clause)
    (hdocuments : ∀ d ∈ documents, IsDocument d) (htext : TextIds documents)
    (hdistinct : DistinctIds documents)
    (hmatches : ∀ d ∈ documents, ∃ kept, matchesFilter d filter params = .ok kept)
    (hwithin : condition.within paths functions = true) (pushdown : Bool) :
    ∃ c, ofDocuments pushdown documents = .ok c ∧
      Query.result ⟨.filtered filter, params, none⟩ c.fetcher = .ok (.arr
        ((documents.filter (passes filter params)).map fun d => (Value.ofJson d).toJson)) := by
  obtain ⟨clause, htranslated⟩ := htranslated
  have hcondition := isSecluded_of_operation hplan hsecluded
  have hrun := yields_permitted hcondition hplan hplain htranslated hdocuments hdistinct hmatches
    (unambiguous_of_within hwithin htext hdistinct) pushdown
  exact ⟨_, ofDocuments_eq hdocuments hdistinct pushdown, result_of_yields hplan hrun⟩

/-- An item with the `_id` of its document. The document refers to an id, the item does not: the
document does not pass the filter, and the query gives it all the same. -/
theorem Query.result_unpermitted :
    let filter : Node := .binary .greater (.functionCall "count" [.pipe (.attr "items")
      (.constraint (some (.functionCall "references" [.string "x"])))]) (.integer 0)
    let document : Json := .obj [("_id", .str "a"), ("items", .arr [.obj [("_id", .str "a")]]),
      ("r", .obj [("_ref", .str "x")])]
    ∃ condition, Query.operation ⟨.filtered filter, [], none⟩ =
        .ok (.pipe [.source 1, .filter condition] none) ∧
      filter.usesOnly .secluded = true ∧ condition.isPlainFilter = true ∧
      (∃ clause, Clause.ofFilter condition = .ok clause) ∧ IsDocument document ∧
      stringId? document = some "a" ∧ matchesFilter document filter [] = .ok false ∧
      ∀ pushdown, ∃ c, ofDocuments pushdown [document] = .ok c ∧
        Query.result ⟨.filtered filter, [], none⟩ c.fetcher = .ok (.arr [document]) := by
  intro filter document
  refine ⟨_, by with_unfolding_all rfl, by decide, by decide +kernel, ⟨_, rfl⟩, by decide,
    by with_unfolding_all rfl, by with_unfolding_all rfl, fun pushdown => ?_⟩
  cases pushdown <;> exact ⟨_, by with_unfolding_all rfl, by with_unfolding_all rfl⟩

end DocQuery
