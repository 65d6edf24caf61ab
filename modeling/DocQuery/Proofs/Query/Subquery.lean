import DocQuery.Proofs.Engine.Quiet
import DocQuery.Proofs.Fetch.Cuts
import DocQuery.Proofs.Query.Pushdown

/-!
# Subqueries

A subquery filters the documents of its source, sorts and cuts what is left, and projects it; all of
it is quiet (`Subquery`). It may run for many enclosing values, with one fetch for all of them, so
**what a collection gives for it has to do for every enclosing value** (`Subquery.exists_served`).

That rests on the clause of the filter. It accepts whatever the filter keeps for some enclosing
value, since an operand that looks at that value is unknown to the store. An exact clause accepts
what the filter keeps for any enclosing value, so it keeps the same for all of them, and the
collection may sort and cut.
-/

set_option autoImplicit false

namespace DocQuery

open Operation Engine Run Local Pushdown Collection Clause Quiet

/-! ## Quiet filters and their clauses -/

/-- What has a value has a clause. -/
theorem Clause.exists_ofFilter {fetcher : Fetcher} {s : Scope} {σ τ : Session} {r : Scoped} :
    ∀ {f : Operation}, f.IsQuiet → (exec fetcher f s).Yields σ r τ →
      ∃ clause, ofFilter f = .ok clause
  | .filter condition, h, hr => exists_ofFilter (f := condition) h (yields_filter.mp hr)
  | .binary op lhs rhs, h, hr => by
    obtain ⟨a, ρ, b, v, ha, hb, -, -⟩ := yields_binary.mp hr
    cases op with
    | and | or =>
      obtain ⟨c, hc⟩ := exists_ofFilter h.1 ha
      obtain ⟨d, hd⟩ := exists_ofFilter h.2 hb
      rw [ofFilter, hc, hd]
      exact ⟨_, rfl⟩
    | _ => exact ⟨_, rfl⟩
  | .not operand, h, hr => by
    obtain ⟨a, ha, -⟩ := yields_not.mp hr
    obtain ⟨c, hc⟩ := exists_ofFilter (f := operand) h ha
    rw [ofFilter, hc]
    exact ⟨_, rfl⟩
  | .accessor _, _, _ | .literal _, _, _ | .object _, _, _ | .array _, _, _ | .call _ _, _, _
  | .pipe _ _, _, _ => ⟨_, rfl⟩
  | .source _, h, _ => h.elim
  | .mapJoin _, h, _ => nomatch h.1
  | .assignment _ _, _, hr | .splat, _, hr | .subscript _, _, hr | .range _ _ _, _, hr
  | .ordering _, _, hr | .sortDirection _, _, hr => (not_yields_throw hr).elim

theorem Quiet.referencesOwn {fetcher : Fetcher} {s : Scope} : ∀ {f : Operation} {σ : Session},
    f.IsQuiet → ReferencesOwn fetcher s f σ
  | .filter condition, _, h => referencesOwn (f := condition) h
  | .binary op lhs rhs, _, h => by
    cases op with
    | and | or => exact ⟨referencesOwn h.1, fun _ _ _ => referencesOwn h.2⟩
    | _ => trivial
  | .not operand, _, h => referencesOwn (f := operand) h
  | .call function arguments, _, h => by
    cases function with
    | references => cases h.1 rfl
    | _ => trivial
  | .accessor _, _, _ | .literal _, _, _ | .object _, _, _ | .array _, _, _ | .pipe _ _, _, _
  | .source _, _, _ | .mapJoin _, _, _ | .assignment _ _, _, _ | .splat, _, _ | .subscript _, _, _
  | .range _ _ _, _, _ | .ordering _, _, _ | .sortDirection _, _, _ => trivial

/-! ## Subqueries -/

/-- A filter with orderings and windows and then projections behind it, all of them quiet. What the
store reads of it it reads as the engine does. -/
structure Subquery (condition : Operation) (cuts projections : List Operation) : Prop where
  isQuiet : condition.IsQuiet
  isRead : condition.isReadFilter = true
  isCut : ∀ stage ∈ cuts, stage.isCut = true
  planned : ∀ w, .subscript w ∈ cuts → w.IsPlanned
  plainKeys : ∀ terms, .ordering terms ∈ cuts → ∀ term ∈ terms, term.expression.isPlainOperand = true
  isObject : ∀ stage ∈ projections, ∃ members, stage = .object members
  quiet : AllQuiet (cuts ++ projections)

/-- The stages of a subquery, behind its source. -/
abbrev Subquery.stages (condition : Operation) (cuts projections : List Operation) :
    List Operation := .filter condition :: (cuts ++ projections)

namespace Subquery

variable {condition : Operation} {cuts projections : List Operation} {documents : List Json}
  {document : Json} {clause : Clause} {id : SourceId} {s : Scope} {r : Scoped} {v : Scoped}

theorem describes (h : Subquery condition cuts projections) (hdocument : IsDocument document)
    (htranslated : ofFilter condition = .ok clause)
    (hv : outcome condition (documentScope id s document) = .ok v) :
    clause.Describes (storedOf document) v.value := by
  have hunstored := unstored_storedOf hdocument
  obtain ⟨fields, rfl⟩ := hdocument.isObject
  have hvalue : (documentScope id s (.obj fields)).value =
      Value.ofJson (unstored (stored fields)).1 := congrArg Value.ofJson hunstored.symm
  have hrun := Quiet.yields_of_outcome h.isQuiet hv (.fullScan []) .empty
  exact describes_ofReadFilter hvalue htranslated h.isRead (Quiet.referencesOwn h.isQuiet) hrun

/-- What the filter keeps for some enclosing value is accepted. -/
theorem accepted_of_keeps (h : Subquery condition cuts projections)
    (hdocument : IsDocument document) (htranslated : ofFilter condition = .ok clause)
    (hkeeps : keeps condition (documentScope id s document) = true) :
    accepted clause (storedOf document) = true := by
  unfold keeps at hkeeps
  cases hv : outcome condition (documentScope id s document) with
  | error e =>
    rw [hv] at hkeeps
    cases hkeeps
  | ok v =>
    rw [hv] at hkeeps
    have hdescribes := h.describes hdocument htranslated hv
    exact accepted_iff.mpr (hdescribes.keeps (Value.same_true.mp hkeeps))

/-- An exact clause accepts what the filter keeps, whatever the enclosing value. -/
theorem keeps_eq_accepted (h : Subquery condition cuts projections)
    (hdocument : IsDocument document) (htranslated : ofFilter condition = .ok clause)
    (hexact : clause.isExact = true)
    (hv : ∃ v, outcome condition (documentScope id s document) = .ok v) :
    keeps condition (documentScope id s document) = accepted clause (storedOf document) := by
  obtain ⟨v, hv⟩ := hv
  rw [keeps_eq hv, accepted_eq_same (h.describes hdocument htranslated hv) hexact]

/-- What a subquery makes of the documents of its source. -/
def Gives (condition : Operation) (cuts projections : List Operation) (id : SourceId) (s : Scope)
    (data : SourceData) (r : Scoped) : Prop :=
  applied (stages condition cuts projections) (.one (sourceScope id s data)) s = .ok r

theorem gives_iff (h : Subquery condition cuts projections) {start : Nat} :
    Gives condition cuts projections id s ⟨documents.map .ofJson, start⟩ r ↔
      (∀ d ∈ documents, ∃ v, outcome condition (documentScope id s d) = .ok v) ∧
        applied (cuts ++ projections) (.many ((documents.filter fun d =>
          keeps condition (documentScope id s d)).map (documentScope id s)) start) s = .ok r :=
  applied_source h.isQuiet h.quiet

/-! ### Answers without order and window -/

/-- The documents that a clause accepts. -/
abbrev acceptedBy (clause : Clause) (documents : List Json) : List Json :=
  documents.filter fun d => accepted clause (storedOf d)

/-- All accepted documents do for every enclosing value. -/
theorem gives_accepted (h : Subquery condition cuts projections)
    (hdocuments : ∀ d ∈ documents, IsDocument d) (htranslated : ofFilter condition = .ok clause)
    (hgives : Gives condition cuts projections id s ⟨documents.map .ofJson, 0⟩ r) :
    Gives condition cuts projections id s ⟨(acceptedBy clause documents).map .ofJson, 0⟩ r := by
  obtain ⟨hall, hr⟩ := h.gives_iff.mp hgives
  have hkept : (acceptedBy clause documents).filter (fun d => keeps condition (documentScope id s d)) =
      documents.filter fun d => keeps condition (documentScope id s d) := by
    rw [List.filter_filter]
    refine List.filter_congr fun d hd => ?_
    cases hkeeps : keeps condition (documentScope id s d) with
    | false => rfl
    | true => rw [h.accepted_of_keeps (hdocuments d hd) htranslated hkeeps, Bool.and_self]
  refine h.gives_iff.mpr ⟨fun d hd => hall d (List.mem_filter.mp hd).1, ?_⟩
  rw [hkept]
  exact hr

/-! ### Answers that are sorted and cut -/

/-- No sort key of a document that the filter keeps is a double. -/
def NoFloats (condition : Operation) (cuts : List Operation) (documents : List Json) (id : SourceId)
    (s : Scope) : Prop :=
  ∀ d ∈ documents, keeps condition (documentScope id s d) = true →
    ∀ terms, .ordering terms ∈ cuts → ∀ term ∈ terms, ∀ v,
      outcome term.expression (documentScope id s d) = .ok v → v.value.isFloat = false

theorem ofStages_projections (h : Subquery condition cuts projections) :
    FetchSpec.ofStages (stages condition cuts projections) =
      (FetchSpec.ofStages cuts).applyFilter condition := by
  have hprojections : ∀ os : List Operation, (∀ o ∈ os, ∃ members, o = .object members) →
      ∀ front, FetchSpec.ofStages (front ++ os) = FetchSpec.ofStages front := by
    intro os hos
    induction os with
    | nil => exact fun front => by rw [List.append_nil]
    | cons o os ih =>
      intro front
      obtain ⟨members, rfl⟩ := hos o List.mem_cons_self
      rw [List.append_cons, ih fun t ht => hos t (List.mem_cons_of_mem _ ht),
        FetchSpec.ofStages_append_object]
  rw [FetchSpec.ofStages, hprojections projections h.isObject]

/-- A term that a collection can sort by is an attribute of the value at hand. -/
theorem exists_names (h : Subquery condition cuts projections) {terms : List SortTerm}
    (hterms : .ordering terms ∈ cuts) {term : SortTerm} (hterm : term ∈ terms)
    (hfield : (StoreQuery.sortKey? term).isSome = true) :
    ∃ path names, term.expression = .accessor path ∧ attributeNames? path = some names := by
  have hsome : (term.expression.fieldName?).isSome = true := by
    unfold StoreQuery.sortKey? at hfield
    rwa [Option.isSome_map] at hfield
  obtain ⟨field, hfield⟩ := Option.isSome_iff_exists.mp hsome
  obtain ⟨path, names, hpath, hnames, -⟩ :=
    Operation.names_of_isPlainOperand (h.plainKeys terms hterms term hterm) hfield
  exact ⟨path, names, hpath, hnames⟩

theorem isLocal_of_fields (h : Subquery condition cuts projections) {terms : List SortTerm}
    (hterms : .ordering terms ∈ cuts)
    (hfields : ∀ term ∈ terms, (StoreQuery.sortKey? term).isSome = true) :
    (Operation.ordering terms).isLocalStage = true := by
  refine allLocal_of_forall (List.forall_mem_map.mpr fun term hterm => ?_)
  obtain ⟨path, names, hpath, hnames⟩ := h.exists_names hterms hterm (hfields term hterm)
  rw [hpath, isLocal, hnames]
  rfl

/-- The key of a field is what is there, be it of a document or of null. -/
theorem isFloat_key (h : Subquery condition cuts projections) {kept : List Json}
    (hfloats : ∀ d ∈ kept, ∀ terms, .ordering terms ∈ cuts → ∀ term ∈ terms, ∀ v,
      outcome term.expression (documentScope id s d) = .ok v → v.value.isFloat = false)
    {terms : List SortTerm} (hterms : .ordering terms ∈ cuts)
    (hfields : ∀ term ∈ terms, (StoreQuery.sortKey? term).isSome = true) {v : Value}
    (hv : v = .null ∨ ∃ d ∈ kept, v = .ofJson d) :
    ∀ key ∈ keys terms v, key.isFloat = false := by
  intro key hkey
  obtain ⟨term, hterm, hkey⟩ := exists_eval_of_mem_keys hkey
  obtain ⟨path, names, hpath, hnames⟩ := h.exists_names hterms hterm (hfields term hterm)
  rw [hpath, eval, hnames] at hkey
  cases hkey
  rcases hv with rfl | ⟨d, hd, rfl⟩
  · rw [Option.getD_some, Value.follow_null]
    rfl
  · have houtcome := hfloats d hd terms hterms term hterm
      (.one ((documentScope id s d).resolve path)) (by rw [hpath]; rfl)
    rw [Scoped.value, Scope.value_resolve hnames] at houtcome
    exact houtcome

/-- Where the collection can sort by all that it is asked to, the stages that it takes over are
local. They run on the documents that are kept, and what they give the stages left get. -/
theorem exists_steps (h : Subquery condition cuts projections) {kept : List Json}
    (hobjects : Objects kept)
    (hfields : (FetchSpec.ofStages cuts).ordering.all fun term => (StoreQuery.sortKey? term).isSome)
    (hfloats : ∀ d ∈ kept, ∀ terms, .ordering terms ∈ cuts → ∀ term ∈ terms, ∀ v,
      outcome term.expression (documentScope id s d) = .ok v → v.value.isFloat = false)
    (hr : applied (cuts ++ projections) (.many (kept.map (documentScope id s)) 0) s = .ok r) :
    ∃ pushed left next, cuts = pushed ++ left ∧
      FetchSpec.ofStages pushed = FetchSpec.ofStages cuts ∧
      (∀ stage ∈ pushed, stage.isLocalStage = true) ∧
      Steps pushed (.many (kept.map (documentScope id s)) 0) next ∧
      NoFloatKeys pushed (.many (kept.map (documentScope id s)) 0) ∧
      applied (left ++ projections) next s = .ok r := by
  obtain ⟨pushed, left, hcuts, hspec, hterms⟩ := exists_pushed h.isCut
  have hmem : ∀ stage ∈ pushed, stage ∈ cuts := fun stage hstage =>
    hcuts ▸ List.mem_append_left left hstage
  have hsort : ∀ terms, .ordering terms ∈ pushed → ∀ term ∈ terms,
      (StoreQuery.sortKey? term).isSome = true := fun terms hordering term hterm =>
    List.all_eq_true.mp hfields term (hterms terms hordering term hterm)
  have hlocal : ∀ stage ∈ pushed, stage.isLocalStage = true := by
    intro stage hstage
    have hcut := h.isCut stage (hmem stage hstage)
    cases stage with
    | ordering terms => exact h.isLocal_of_fields (hmem _ hstage) (hsort terms hstage)
    | subscript w => rfl
    | _ => cases hcut
  have hquiet := h.quiet
  rw [hcuts, List.append_assoc] at hr hquiet
  have hleft := (conformsAll_append.mp hquiet).2
  have hyields := Quiet.yields_of_applied hquiet hr (.fullScan []) .empty
  obtain ⟨next, hsteps, hyields⟩ := (yields_applyStages_append hlocal).mp hyields
  refine ⟨pushed, left, next, hcuts, hspec, hlocal, hsteps, ?_,
    ((Quiet.yields_applyStages hleft).mp hyields).1⟩
  refine noFloatKeys_of_cuts (P := fun v => v = .null ∨ ∃ d ∈ kept, v = .ofJson d)
    (fun stage hstage => h.isCut stage (hmem stage hstage)) ?_ (.inl rfl)
    (fun terms hordering v hv => h.isFloat_key hfloats (hmem _ hordering) (hsort terms hordering) hv)
    (List.forall_mem_map.mpr fun d hd => .inr ⟨d, hd, rfl⟩)
  rintro v (rfl | ⟨d, hd, rfl⟩)
  · rfl
  · obtain ⟨fields, rfl⟩ := hobjects d hd
    rfl

/-- An exact clause accepts the documents that the filter keeps. -/
theorem filter_keeps_eq (h : Subquery condition cuts projections)
    (hdocuments : ∀ d ∈ documents, IsDocument d) (htranslated : ofFilter condition = .ok clause)
    (hexact : clause.isExact = true)
    (hall : ∀ d ∈ documents, ∃ v, outcome condition (documentScope id s d) = .ok v) :
    documents.filter (fun d => keeps condition (documentScope id s d)) =
      acceptedBy clause documents :=
  List.filter_congr fun d hd => h.keeps_eq_accepted (hdocuments d hd) htranslated hexact (hall d hd)

/-- Where a subquery runs, a collection sorts and cuts the accepted documents as it does. -/
theorem readable_cuts (h : Subquery condition cuts projections)
    (hdocuments : ∀ d ∈ documents, IsDocument d) (htranslated : ofFilter condition = .ok clause)
    (hexact : clause.isExact = true)
    (hfields : (FetchSpec.ofStages cuts).ordering.all fun term => (StoreQuery.sortKey? term).isSome)
    (hfloats : NoFloats condition cuts documents id s)
    (hgives : Gives condition cuts projections id s ⟨documents.map .ofJson, 0⟩ r) :
    Readable (FetchSpec.ofStages cuts) (acceptedBy clause documents) := by
  obtain ⟨hall, hr⟩ := h.gives_iff.mp hgives
  have hkept := h.filter_keeps_eq hdocuments htranslated hexact hall
  rw [hkept] at hr
  have haccepted : ∀ d ∈ acceptedBy clause documents, IsDocument d := fun d hd =>
    hdocuments d (List.mem_filter.mp hd).1
  obtain ⟨pushed, left, next, hcuts, hspec, hlocal, hsteps, hkeys, -⟩ :=
    h.exists_steps (objects_of_documents haccepted) hfields (fun d hd => by
      rw [← hkept] at hd
      obtain ⟨hd, hkeeps⟩ := List.mem_filter.mp hd
      exact hfloats d hd hkeeps) hr
  have hmem : ∀ stage ∈ pushed, stage ∈ cuts := fun stage hstage =>
    hcuts ▸ List.mem_append_left left hstage
  rw [← hspec]
  refine readable_ofStages haccepted hlocal (fun w hw => h.planned w (hmem _ hw)) ?_ hsteps hkeys
  exact {
    plain := fun f hf => nomatch h.isCut _ (hmem _ hf)
    translated := fun f hf => nomatch h.isCut _ (hmem _ hf)
    keys := fun terms ht => h.plainKeys terms (hmem _ ht) }

/-- What answers the orderings and windows on the accepted documents does for every enclosing
value. -/
theorem gives_answered (h : Subquery condition cuts projections)
    (hdocuments : ∀ d ∈ documents, IsDocument d) (htranslated : ofFilter condition = .ok clause)
    (hexact : clause.isExact = true)
    (hfields : (FetchSpec.ofStages cuts).ordering.all fun term => (StoreQuery.sortKey? term).isSome)
    {response : FetchResponse}
    (hanswers : Answers (FetchSpec.ofStages cuts) (acceptedBy clause documents) response)
    (hfloats : NoFloats condition cuts documents id s)
    (hgives : Gives condition cuts projections id s ⟨documents.map .ofJson, 0⟩ r) :
    Gives condition cuts projections id s ⟨response.results.map .ofJson, response.start⟩ r := by
  obtain ⟨hall, hr⟩ := h.gives_iff.mp hgives
  have hkept := h.filter_keeps_eq hdocuments htranslated hexact hall
  rw [hkept] at hr
  have haccepted : ∀ d ∈ acceptedBy clause documents, IsDocument d := fun d hd =>
    hdocuments d (List.mem_filter.mp hd).1
  obtain ⟨pushed, left, next, hcuts, hspec, hlocal, hsteps, hkeys, hleft⟩ :=
    h.exists_steps (objects_of_documents haccepted) hfields (fun d hd => by
      rw [← hkept] at hd
      obtain ⟨hd, hkeeps⟩ := List.mem_filter.mp hd
      exact hfloats d hd hkeeps) hr
  -- what is given has been accepted, so the filter keeps all of it
  have hgiven : ∀ d ∈ response.results, (∃ v, outcome condition (documentScope id s d) = .ok v) ∧
      keeps condition (documentScope id s d) = true := by
    intro d hd
    obtain ⟨e, he, hvalue⟩ := mem_of_answers hanswers hd
    have hscope : documentScope id s d = documentScope id s e := by
      unfold documentScope
      rw [hvalue]
    rw [← hkept] at he
    obtain ⟨he, hkeeps⟩ := List.mem_filter.mp he
    rw [hscope]
    exact ⟨hall e he, hkeeps⟩
  refine h.gives_iff.mpr ⟨fun d hd => (hgiven d hd).1, ?_⟩
  rw [List.filter_eq_self.mpr fun d hd => (hgiven d hd).2]
  have hserved := steps_of_serves hlocal
    (fun w hw => h.planned w (hcuts ▸ List.mem_append_left left hw))
    (hspec ▸ hanswers id s) hsteps hkeys
  have hquiet := h.quiet
  rw [hcuts, List.append_assoc] at hquiet ⊢
  have hyields := (yields_applyStages_append hlocal).mpr ⟨next, hserved,
    Quiet.yields_of_applied (conformsAll_append.mp hquiet).2 hleft (.fullScan []) .empty⟩
  exact ((Quiet.yields_applyStages hquiet).mp hyields).1

/-! ### What a collection gives -/

theorem readable_everything (documents : List Json) : Readable .everything documents where
  bounds := FetchSpec.hasBounds_everything
  isLocal _ hf := nomatch hf
  plain _ hf := nomatch hf
  translated _ hf := nomatch hf
  keys _ hterm := nomatch hterm
  exact _ _ hf := nomatch hf
  good _ _ _ := .nil _

/-- An answer to nothing in particular is everything. -/
theorem data_of_everything {response : FetchResponse}
    (h : Answers .everything documents response) :
    response.results.map Value.ofJson = documents.map Value.ofJson ∧ response.start = 0 := by
  obtain ⟨hresults, hstart⟩ := (h 0 .root).eq_of_everything
  refine ⟨?_, hstart⟩
  have hvalues := congrArg (List.map Scope.value) hresults
  rwa [List.map_map, List.map_map] at hvalues

/-- What a subquery may be fetched by: nothing, all of it, or its filter alone. -/
def FetchedBy (condition : Operation) (cuts projections : List Operation) (spec : FetchSpec) : Prop :=
  spec = .everything ∨ spec = .ofStages (stages condition cuts projections) ∨
    spec = .filtered condition

/-- **One fetch for every enclosing value.** Once a subquery runs over all documents for some value,
the collection gives something, and that does for every value. -/
theorem exists_served (h : Subquery condition cuts projections)
    (hdocuments : ∀ d ∈ documents, IsDocument d) (htranslated : ofFilter condition = .ok clause)
    (hfloats : NoFloats condition cuts documents id s)
    (hgives : Gives condition cuts projections id s ⟨documents.map .ofJson, 0⟩ r)
    {spec : FetchSpec} (hspec : FetchedBy condition cuts projections spec) (pushdown : Bool) :
    ∃ response, (⟨pushdown, documents.map storedOf⟩ : Collection).fetch spec = .ok response ∧
      ∀ s' r', NoFloats condition cuts documents id s' →
        Gives condition cuts projections id s' ⟨documents.map .ofJson, 0⟩ r' →
          Gives condition cuts projections id s'
            ⟨response.results.map .ofJson, response.start⟩ r' := by
  have hjudge : ∀ d ∈ documents, clause.judge (storedOf d) = .ok (accepted clause (storedOf d)) :=
    fun d hd => judge_eq_accepted_of_isReadFilter (hdocuments d hd) h.isRead htranslated
  have haccepted : ∀ d ∈ acceptedBy clause documents, IsDocument d := fun d hd =>
    hdocuments d (List.mem_filter.mp hd).1
  have hall : ∀ s' r', NoFloats condition cuts documents id s' →
      Gives condition cuts projections id s' ⟨documents.map .ofJson, 0⟩ r' →
        Gives condition cuts projections id s'
          ⟨(respond ((acceptedBy clause documents).map storedOf) 0).results.map .ofJson, 0⟩ r' := by
    intro s' r' _ hgives'
    rw [results_respond haccepted]
    exact h.gives_accepted hdocuments htranslated hgives'
  rcases hspec with rfl | rfl | rfl
  · obtain ⟨response, hfetch, hanswers⟩ :=
      answers_fetch (readable_everything documents) hdocuments pushdown
    refine ⟨response, hfetch, fun s' r' _ hgives' => ?_⟩
    obtain ⟨hresults, hstart⟩ := data_of_everything hanswers
    rwa [hresults, hstart]
  · have hfilter : ((FetchSpec.ofStages cuts).applyFilter condition).filter = some condition := by
      rw [FetchSpec.applyFilter, FetchSpec.filter_ofStages_cuts h.isCut]
    rw [h.ofStages_projections]
    refine ⟨_, fetch_eq hfilter htranslated hjudge pushdown, ?_⟩
    split
    · next hpush =>
      simp only [Bool.and_eq_true] at hpush
      obtain ⟨⟨-, hexact⟩, hfields⟩ := hpush
      have hreadable := h.readable_cuts hdocuments htranslated hexact hfields hfloats hgives
      have hanswers := answers_window hreadable haccepted hfields (p := fun _ => true) fun d _ => by
        rw [FetchSpec.passes, FetchSpec.filter_ofStages_cuts h.isCut]
      rw [List.filter_true] at hanswers
      exact fun s' r' => h.gives_answered hdocuments htranslated hexact hfields hanswers
    · exact hall
  · exact ⟨_, fetch_filtered_of_judge hdocuments htranslated hjudge pushdown, hall⟩

end Subquery
end DocQuery
