import DocQuery.Proofs.Fetch.Pushdown

/-!
# Pipelines over documents

The items of a pipeline that begins with a source and a filter are the documents that were fetched,
each in a scope of its own (`documentScope`). `Answers` says that a response may stand for a list of
documents under a specification, and **a pipeline of local stages gives the same for every response
that answers its specification** (`yields_run_of_answers`).
-/

set_option autoImplicit false

namespace DocQuery
namespace Pushdown

open Local Engine

variable {spec : FetchSpec} {documents : List Json} {response : FetchResponse}

/-- A document as an item of a pipeline. -/
def documentScope (id : SourceId) (s : Scope) (document : Json) : Scope :=
  ⟨Value.ofJson document, some s, [], some id, 0, false⟩

/-- Documents are objects. -/
def Objects (documents : List Json) : Prop := ∀ d ∈ documents, ∃ fields, d = .obj fields

theorem whole_documents (h : Objects documents) (id : SourceId) (s : Scope) :
    Whole (documents.map (documentScope id s)) := by
  intro t ht
  obtain ⟨d, hd, rfl⟩ := List.mem_map.mp ht
  obtain ⟨fields, rfl⟩ := h d hd
  rfl

theorem candidates_source (id : SourceId) (s : Scope) (documents : List Json) (start : Nat) :
    (Scoped.one (sourceScope id s ⟨documents.map Value.ofJson, start⟩)).candidates =
      (documents.map (documentScope id s), start) := by
  show ((documents.map Value.ofJson).map _, start) = _
  rw [List.map_map]
  rfl

/-- The items of the first filter behind a source are the documents. -/
theorem steps_source {id : SourceId} {s : Scope} {start : Nat} {condition : Operation}
    {stages : List Operation} {r : Scoped} (h : Objects documents) :
    Steps (.filter condition :: stages)
        (.one (sourceScope id s ⟨documents.map Value.ofJson, start⟩)) r ↔
      Steps (.filter condition :: stages) (.many (documents.map (documentScope id s)) start) r := by
  simp only [Steps, Step, candidates_source, candidates_of_whole (whole_documents h id s)]

/-! ## Answers -/

/-- A response that may stand for all of some documents under a specification. -/
def Answers (spec : FetchSpec) (documents : List Json) (response : FetchResponse) : Prop :=
  ∀ (id : SourceId) (s : Scope), Serves spec (documents.map (documentScope id s))
    (response.results.map (documentScope id s)) response.start

theorem answers_all (spec : FetchSpec) (documents : List Json) :
    Answers spec documents (.ofResults documents) :=
  fun _ _ => .all rfl rfl

/-- What is fetched is among the documents. -/
theorem mem_of_answers (h : Answers spec documents response) {d : Json} (hd : d ∈ response.results) :
    ∃ e ∈ documents, Value.ofJson e = Value.ofJson d := by
  have hmem := (h 0 .root).mem (documentScope 0 .root d) (List.mem_map_of_mem hd)
  obtain ⟨e, he, heq⟩ := List.mem_map.mp hmem
  exact ⟨e, he, congrArg Scope.value heq⟩

theorem answers_objects (hobjects : Objects documents) (h : Answers spec documents response) :
    Objects response.results := by
  intro d hd
  obtain ⟨e, he, hvalue⟩ := mem_of_answers h hd
  obtain ⟨fields, rfl⟩ := hobjects e he
  cases d with
  | obj fields' => exact ⟨fields', rfl⟩
  | int n =>
    rw [Value.ofJson, Value.ofJson] at hvalue
    split at hvalue <;> cases hvalue
  | _ => cases hvalue

/-- A response for the filter of a specification alone does for the specification. -/
theorem answers_of_filtered {filter : Operation} (hspec : spec.filter = some filter)
    (h : Answers (.filtered filter) documents response) : Answers spec documents response := by
  have hpasses : ∀ items : List Scope,
      (items.filter fun s => (FetchSpec.filtered filter).passes s.value) =
        items.filter fun s => spec.passes s.value := by
    intro items
    refine List.filter_congr fun s _ => ?_
    rw [FetchSpec.passes, FetchSpec.passes, hspec]
    rfl
  intro id s
  cases h id s with
  | all eq front => exact .all eq front
  | enough whole mem passing front =>
    rw [hpasses, hpasses] at passing
    exact .enough whole mem passing front
  | exact whole window front first =>
    have hmem := Serves.mem_of_window window
    change sorted [] _ = sorted [] _ at window
    rw [sorted_nil, sorted_nil, hpasses] at window
    refine .enough (whole rfl) (fun t ht => (hmem t ht).1) ?_ (Nat.le_zero.mp front)
    rw [window, List.filter_filter]
    simp

theorem answers_of_settled (h : Answers (settled spec) documents response) :
    Answers spec documents response := by
  unfold settled at h
  cases hfilter : spec.filter with
  | none =>
    rw [hfilter] at h
    exact h
  | some filter =>
    rw [hfilter] at h
    dsimp only at h
    split at h
    · exact h
    · exact answers_of_filtered hfilter h

/-- A part of the documents, in their order, with all that pass the filter. -/
theorem answers_of_sublist (hobjects : Objects documents)
    (hsub : response.results.Sublist documents)
    (hpass : (documents.filter fun d => spec.passes (Value.ofJson d)).Sublist response.results)
    (hstart : response.start = 0) : Answers spec documents response := by
  have hfilter : (response.results.filter fun d => spec.passes (Value.ofJson d)) =
      documents.filter fun d => spec.passes (Value.ofJson d) := by
    have hagain := hpass.filter fun d => spec.passes (Value.ofJson d)
    rw [List.filter_filter] at hagain
    simp only [Bool.and_self] at hagain
    exact (hsub.filter _).eq_of_length_le hagain.length_le
  intro id s
  refine .enough (whole_documents hobjects id s) (fun t ht => ?_) ?_ hstart
  · exact (hsub.map (documentScope id s)).subset ht
  · rw [List.filter_map, List.filter_map]
    exact congrArg (List.map (documentScope id s)) hfilter

/-! ## Running -/

variable {fetcher : Fetcher} {id : SourceId} {s : Scope} {σ τ : Session} {r : Scoped}
  {condition : Operation} {stages : List Operation}

/-- What the stages of a pipeline fetch. -/
theorem isLocal_filter_ofStages (hlocal : ∀ stage ∈ stages, stage.isLocalStage = true) :
    ∀ filter, (FetchSpec.ofStages stages).filter = some filter → filter.isLocal = true :=
  FetchSpec.filter_ofStages (fun _ _ hl hr => Bool.and_eq_true_iff.mpr ⟨hl, hr⟩)
    fun condition hc => hlocal (.filter condition) hc

theorem yields_run_local (hlocal : ∀ stage ∈ stages, stage.isLocalStage = true)
    (hnew : σ.context.source? id = none) :
    (run fetcher (.source id :: stages) s).Yields σ r τ ↔
      ∃ response, fetcher σ.fetches.length (settled (.ofStages stages)) = .ok response ∧
        τ = fetched σ id (settled (.ofStages stages)) response ∧ Steps stages
          (.one (sourceScope id s ⟨response.results.map Value.ofJson, response.start⟩)) r := by
  rw [yields_run_new hnew, compileStages_eq fun stage hs => isFoldable_of_isLocalStage (hlocal stage hs)]
  simp only [Run.yields_pure, yields_applyStages hlocal]
  constructor
  · rintro ⟨_, _, _, _, response, ⟨rfl, rfl⟩, hfinish, hresponse, rfl, hsteps⟩
    obtain ⟨rfl, rfl⟩ := (yields_finish (isLocal_filter_ofStages hlocal)).mp hfinish
    exact ⟨response, hresponse, rfl, hsteps⟩
  · rintro ⟨response, hresponse, rfl, hsteps⟩
    exact ⟨_, _, _, _, response, ⟨rfl, rfl⟩,
      (yields_finish (isLocal_filter_ofStages hlocal)).mpr ⟨rfl, rfl⟩, hresponse, rfl, hsteps⟩

/-- The stages give the same for every response that answers their specification. -/
theorem steps_of_answers (hobjects : Objects documents)
    (hlocal : ∀ stage ∈ .filter condition :: stages, stage.isLocalStage = true)
    (hplanned : ∀ w, .subscript w ∈ .filter condition :: stages → w.IsPlanned)
    (hrun : Steps (.filter condition :: stages)
      (.many (documents.map (documentScope id s)) 0) r)
    (hkeys : NoFloatKeys (.filter condition :: stages)
      (.many (documents.map (documentScope id s)) 0))
    (hanswers : Answers (settled (.ofStages (.filter condition :: stages))) documents response) :
    Steps (.filter condition :: stages)
      (.one (sourceScope id s ⟨response.results.map Value.ofJson, response.start⟩)) r := by
  rw [steps_source (answers_objects hobjects hanswers)]
  exact steps_of_serves hlocal hplanned (answers_of_settled hanswers id s) hrun hkeys

end Pushdown
end DocQuery
