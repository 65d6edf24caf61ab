import DocQuery.Proofs.Plan.Sources
import DocQuery.Proofs.Query.Pushdown

/-!
# Selections

A query over documents begins by selecting some of them: filters, orderings and windows behind a
source. A collection may answer such a selection with a part of its documents, already sorted and
cut, and **the same documents are selected from that** (`Selection.exists_kept`). What is behind the
selection, a projection say (`Query.projected`), can be compared from there on.
-/

set_option autoImplicit false

namespace DocQuery

open Local Engine Pushdown Collection

/-! ## Selecting documents -/

/-- A stage that leaves documents out or changes their order. -/
def Operation.isSelection : Operation → Bool
  | filter _ | ordering _ => true
  | subscript w => !w.first
  | _ => false

namespace Pushdown

variable {documents : List Json} {id : SourceId} {s : Scope} {items : List Scope}
  {condition : Operation} {stages : List Operation} {r selected : Scoped}

/-- What is selected was there. -/
theorem steps_selection (hselection : ∀ stage ∈ stages, stage.isSelection = true)
    (hwhole : Whole items) {start : Nat} (hsteps : Steps stages (.many items start) r) :
    ∃ kept start', r = .many kept start' ∧ ∀ t ∈ kept, t ∈ items := by
  induction stages generalizing items start with
  | nil => exact ⟨items, start, hsteps, fun t ht => ht⟩
  | cons stage rest ih =>
    obtain ⟨next, hstep, hrest⟩ := hsteps
    have hselection' := fun t ht => hselection t (List.mem_cons_of_mem stage ht)
    have hpart : ∀ {part : List Scope} {start' : Nat}, next = .many part start' →
        (∀ t ∈ part, t ∈ items) → ∃ kept start', r = .many kept start' ∧ ∀ t ∈ kept, t ∈ items := by
      intro part start' hnext hmem
      subst hnext
      obtain ⟨kept, last, hr, hkept⟩ := ih hselection' (fun t ht => hwhole t (hmem t ht)) hrest
      exact ⟨kept, last, hr, fun t ht => hmem t (hkept t ht)⟩
    cases stage with
    | filter condition =>
      rw [Step, candidates_of_whole hwhole] at hstep
      exact hpart hstep.2 fun t ht => (List.mem_filter.mp ht).1
    | ordering terms => exact hpart hstep.2 fun t ht => Sorting.mem_sortBy.mp ht
    | subscript w =>
      have hslice := hselection _ List.mem_cons_self
      obtain ⟨a, b, first⟩ := w
      cases first with
      | true => cases hslice
      | false => exact hpart hstep fun t ht => Window.mem_of_mem_cut ht
    | _ => cases hselection _ List.mem_cons_self

/-- Scopes of documents come from documents. -/
theorem exists_documents (hmem : ∀ t ∈ items, t ∈ documents.map (documentScope id s)) :
    ∃ kept : List Json, items = kept.map (documentScope id s) ∧ ∀ d ∈ kept, d ∈ documents := by
  induction items with
  | nil => exact ⟨[], rfl, fun d hd => absurd hd List.not_mem_nil⟩
  | cons t items ih =>
    obtain ⟨d, hd, rfl⟩ := List.mem_map.mp (hmem t List.mem_cons_self)
    obtain ⟨kept, rfl, hkept⟩ := ih fun u hu => hmem u (List.mem_cons_of_mem _ hu)
    refine ⟨d :: kept, rfl, ?_⟩
    intro e he
    rcases List.mem_cons.mp he with rfl | he
    · exact hd
    · exact hkept e he

/-! ## A projection behind a selection -/

variable {fetcher : Fetcher} {σ τ : Session} {members : List Member}

/-- A pipeline that selects documents and projects them. -/
theorem yields_run_object (hlocal : ∀ stage ∈ stages, stage.isLocalStage = true)
    (hnew : σ.context.source? id = none) :
    (run fetcher (.source id :: (stages ++ [.object members])) s).Yields σ r τ ↔
      ∃ response, fetcher σ.fetches.length (settled (.ofStages stages)) = .ok response ∧
        ∃ selected, Steps stages
          (.one (sourceScope id s ⟨response.results.map Value.ofJson, response.start⟩)) selected ∧
          (applyStages fetcher [.object members] selected s).Yields
            (fetched σ id (settled (.ofStages stages)) response) r τ := by
  have hfoldable : ∀ stage ∈ stages ++ [.object members], isFoldable stage = true := by
    intro stage hstage
    rcases List.mem_append.mp hstage with hstage | hstage
    · exact isFoldable_of_isLocalStage (hlocal stage hstage)
    · rw [List.mem_singleton.mp hstage]
      rfl
  rw [yields_run_new hnew, compileStages_eq hfoldable, FetchSpec.ofStages_append_object]
  simp only [Run.yields_pure, yields_applyStages_append hlocal]
  constructor
  · rintro ⟨_, _, _, _, response, ⟨rfl, rfl⟩, hfinish, hresponse, hrest⟩
    obtain ⟨rfl, rfl⟩ := (yields_finish (isLocal_filter_ofStages hlocal)).mp hfinish
    exact ⟨response, hresponse, hrest⟩
  · rintro ⟨response, hresponse, hrest⟩
    exact ⟨_, _, _, _, response, ⟨rfl, rfl⟩,
      (yields_finish (isLocal_filter_ofStages hlocal)).mpr ⟨rfl, rfl⟩, hresponse, hrest⟩

/-! ## What a collection supplies -/

/-- Stages behind a source and a filter that select among documents, and that a collection of these
reads as the engine does. -/
structure Selection (documents : List Json) (id : SourceId) (condition : Operation)
    (stages : List Operation) : Prop where
  selects : ∀ stage ∈ stages, stage.isSelection = true
  isLocal : ∀ stage ∈ .filter condition :: stages, stage.isLocalStage = true
  planned : ∀ w, .subscript w ∈ stages → w.IsPlanned
  read : ReadByStore (.filter condition :: stages)
  keys : NoFloatKeys (.filter condition :: stages)
    (.many (documents.map (documentScope id .root)) 0)

/-- What a selection asks a fetcher for. -/
def selectionSpec (condition : Operation) (stages : List Operation) : FetchSpec :=
  settled (.ofStages (.filter condition :: stages))

/-- A response from which a selection selects some documents. -/
structure Supplies (id : SourceId) (condition : Operation) (stages : List Operation)
    (kept : List Json) (start : Nat) (response : FetchResponse) : Prop where
  steps : Steps (.filter condition :: stages)
    (.one (sourceScope id .root ⟨response.results.map .ofJson, response.start⟩))
    (.many (kept.map (documentScope id .root)) start)
  mem : ∀ p ∈ kept, Value.ofJson p ∈ response.results.map Value.ofJson

/-- A filter alone is a selection. -/
theorem Selection.of_filter (documents : List Json) (id : SourceId)
    (hlocal : condition.isLocal = true) (hplain : condition.isPlainFilter = true)
    (htranslated : ∃ clause, Clause.ofFilter condition = .ok clause) :
    Selection documents id condition [] where
  selects _ h := nomatch h
  isLocal _ h := List.mem_singleton.mp h ▸ hlocal
  planned _ h := nomatch h
  read := .of_filter hplain htranslated
  keys := ⟨fun _ h => (nomatch h), fun _ _ => trivial⟩

/-- A collection supplies the documents that a selection selects among all. -/
theorem Selection.exists_kept (h : Selection documents id condition stages)
    (hdocuments : ∀ d ∈ documents, IsDocument d)
    (hselected : Steps (.filter condition :: stages)
      (.one (sourceScope id .root ⟨documents.map .ofJson, 0⟩)) selected) :
    ∃ kept start, selected = .many (kept.map (documentScope id .root)) start ∧
      (∀ p ∈ kept, p ∈ documents) ∧
      Supplies id condition stages kept start (.ofResults documents) ∧
      ∀ pushdown, ∃ response,
        (⟨pushdown, documents.map storedOf⟩ : Collection).fetch (selectionSpec condition stages) =
          .ok response ∧ Answers (selectionSpec condition stages) documents response ∧
        Supplies id condition stages kept start response := by
  have hobjects := objects_of_documents hdocuments
  have hplanned : ∀ w, .subscript w ∈ .filter condition :: stages → w.IsPlanned := by
    intro w hw
    rcases List.mem_cons.mp hw with h | hw
    · cases h
    · exact h.planned w hw
  have hselects : ∀ stage ∈ .filter condition :: stages, stage.isSelection = true := by
    intro stage hstage
    rcases List.mem_cons.mp hstage with rfl | hstage
    · rfl
    · exact h.selects stage hstage
  have hsteps := (steps_source hobjects).mp hselected
  have hspec := (readable_ofStages hdocuments h.isLocal hplanned h.read hsteps h.keys).settled
  obtain ⟨items, start, rfl, hitems⟩ :=
    steps_selection hselects (whole_documents hobjects id .root) hsteps
  obtain ⟨kept, rfl, hkept⟩ := exists_documents hitems
  refine ⟨kept, start, rfl, hkept, ⟨hselected, fun p hp => List.mem_map_of_mem (hkept p hp)⟩,
    fun pushdown => ?_⟩
  obtain ⟨response, hfetch, hanswers⟩ := answers_fetch hspec hdocuments pushdown
  have hgiven := steps_of_answers hobjects h.isLocal hplanned hsteps h.keys hanswers
  have hresults := answers_objects hobjects hanswers
  obtain ⟨items, start', heq, hmem⟩ := steps_selection hselects
    (whole_documents hresults id .root) ((steps_source hresults).mp hgiven)
  cases heq
  refine ⟨response, hfetch, hanswers, hgiven, fun p hp => ?_⟩
  obtain ⟨d, hd, heq⟩ := List.mem_map.mp (hmem _ (List.mem_map_of_mem hp))
  exact List.mem_map.mpr ⟨d, hd, congrArg Scope.value heq⟩

/-- A query that selects documents and projects them does that to what is supplied. -/
theorem yields_supplied {fetcher : Fetcher} {kept : List Json} {start : Nat}
    {response : FetchResponse} {members : List Member} {name : Option String} {r : Scoped}
    {τ : Session} (h : ∀ stage ∈ .filter condition :: stages, stage.isLocalStage = true)
    (hfetch : fetcher 0 (selectionSpec condition stages) = .ok response)
    (hsupplies : Supplies id condition stages kept start response) :
    (exec fetcher (.pipe (.source id :: (.filter condition :: stages ++ [.object members])) name)
        .root).Yields .empty r τ ↔
      (applyStages fetcher [.object members] (.many (kept.map (documentScope id .root)) start)
        .root).Yields (fetched .empty id (selectionSpec condition stages) response) r τ := by
  rw [yields_pipe, yields_run_object h rfl]
  constructor
  · rintro ⟨response', hresponse', selected, hselected, hobject⟩
    cases hfetch.symm.trans hresponse'
    obtain rfl := hselected.unique hsupplies.steps
    exact hobject
  · intro hobject
    exact ⟨response, hfetch, _, hsupplies.steps, hobject⟩

end Pushdown

/-! ## Queries -/

/-- A query with a projection behind it. -/
def Query.projected (q : Query) (nodes : List Node) : Query :=
  { q with tree := .pipe q.tree (.object nodes) }

namespace Query

open Planner

variable {q : Query} {documents : List Json} {id : SourceId} {condition : Operation}
  {stages : List Operation} {nodes : List Node} {name : Option String} {result : Json}

theorem operation_eq_ok (hglobal : q.globalFilter = none) {o : Operation} :
    q.operation = .ok o ↔ ∃ n, Gives (compose q.params q.tree) 1 o n := by
  unfold operation plan Gives
  rw [hglobal]
  cases (compose q.params q.tree).run 1 with
  | error e =>
    constructor
    · intro h
      cases h
    · rintro ⟨_, h⟩
      cases h
  | ok planned =>
    constructor
    · intro h
      cases h
      exact ⟨planned.2, rfl⟩
    · rintro ⟨_, h⟩
      cases h
      rfl

/-- The plan of a projection: the sources of its members are new and told apart. -/
theorem exists_projected (hglobal : q.globalFilter = none)
    (hplan : q.operation = .ok (.pipe stages name)) :
    ∃ n, ∀ {ms : List Member} {n' : SourceId},
      Gives (compose q.params (.object nodes)) n (.object ms) n' →
        (q.projected nodes).operation = .ok (.pipe (stages ++ [.object ms]) name) ∧
        (Operation.sourcesAll stages ++ Operation.sourcesMembers ms).Nodup := by
  obtain ⟨n, hn⟩ := (operation_eq_ok hglobal).mp hplan
  refine ⟨n, fun {ms n'} hobject => ⟨?_, ?_⟩⟩
  · refine (operation_eq_ok (q := q.projected nodes) hglobal).mpr ⟨n', ?_⟩
    exact gives_pipe.mpr ⟨_, n, _, hn, hobject, rfl⟩
  · exact ((counted_compose hn).append (counted_compose hobject)).nodup

/-- A query with a result over all documents selects some of these. -/
theorem exists_selected (hlocal : ∀ stage ∈ .filter condition :: stages, stage.isLocalStage = true)
    (hplan : q.operation = .ok (.pipe (.source id :: .filter condition :: stages) name))
    (hscan : q.result (.fullScan documents) = .ok result) :
    ∃ selected, Steps (.filter condition :: stages)
      (.one (sourceScope id .root ⟨documents.map .ofJson, 0⟩)) selected := by
  obtain ⟨r, τ, hrun, rfl⟩ := (result_eq_ok hplan).mp hscan
  obtain ⟨response, hresponse, -, hselected⟩ :=
    (yields_run_local hlocal rfl).mp (yields_pipe.mp hrun)
  cases hresponse
  exact ⟨r, hselected⟩

/-- A query that only selects documents gives these. -/
theorem result_selected {kept : List Json} {start : Nat}
    (hlocal : ∀ stage ∈ .filter condition :: stages, stage.isLocalStage = true)
    (hplan : q.operation = .ok (.pipe (.source id :: .filter condition :: stages) name))
    (hselected : Steps (.filter condition :: stages)
      (.one (sourceScope id .root ⟨documents.map .ofJson, 0⟩))
      (.many (kept.map (documentScope id .root)) start)) :
    q.result (.fullScan documents) = .ok (Value.array (kept.map .ofJson)).toJson := by
  refine (result_eq_ok hplan).mpr ⟨_, _, yields_pipe.mpr
    ((yields_run_local hlocal rfl).mpr ⟨_, rfl, rfl, hselected⟩), ?_⟩
  show _ = (Value.array ((kept.map (documentScope id .root)).map (·.value))).toJson
  rw [List.map_map]
  rfl

/-- So does one that projects what it selects. -/
theorem exists_selected_of_object {members : List Member}
    (hlocal : ∀ stage ∈ .filter condition :: stages, stage.isLocalStage = true)
    (hplan : q.operation =
      .ok (.pipe (.source id :: (.filter condition :: stages ++ [.object members])) name))
    (hscan : q.result (.fullScan documents) = .ok result) :
    ∃ selected, Steps (.filter condition :: stages)
      (.one (sourceScope id .root ⟨documents.map .ofJson, 0⟩)) selected := by
  obtain ⟨r, τ, hrun, rfl⟩ := (result_eq_ok hplan).mp hscan
  obtain ⟨response, hresponse, selected, hselected, -⟩ :=
    (yields_run_object hlocal rfl).mp (yields_pipe.mp hrun)
  cases hresponse
  exact ⟨selected, hselected⟩

end Query
end DocQuery
