import DocQuery.Proofs.Fetch.Documents
import DocQuery.Proofs.Store.Sorting
import DocQuery.Proofs.Store.Translation
import DocQuery.Proofs.Store.Windows

/-!
# What a collection answers

A collection answers the specification of a pipeline (`answers_fetch`). Without order and window it
gives every document that the selector accepts, among them all that pass the filter. When it sorts
and cuts it gives exactly what the specification asks for: an exact selector accepts just the
documents that pass, the fields it sorts by have the values of the sort keys, and its window is the
window of the specification.

A conjunction is exact when its operands are. One of them may still be without a value at a document
that the other one turns away; the pipeline evaluates them one after the other, and
`passes_of_judge` follows it in that.
-/

set_option autoImplicit false

namespace DocQuery
namespace Pushdown

open Local Engine Clause Collection

/-! ## Local filters -/

theorem referencesOwn_of_isLocal {fetcher : Fetcher} {s : Scope} : ∀ {f : Operation} {σ : Session},
    f.isLocal = true → ReferencesOwn fetcher s f σ
  | .filter condition, _, h => referencesOwn_of_isLocal (f := condition) h
  | .binary op lhs rhs, _, h => by
    obtain ⟨hl, hr⟩ := Bool.and_eq_true_iff.mp h
    cases op with
    | and | or =>
      exact ⟨referencesOwn_of_isLocal hl, fun _ _ _ => referencesOwn_of_isLocal hr⟩
    | _ => trivial
  | .not operand, _, h => referencesOwn_of_isLocal (f := operand) h
  | .call function arguments, _, h => by
    cases function with
    | references => simp [Operation.isLocal] at h
    | _ => trivial
  | .accessor _, _, _ | .literal _, _, _ | .object _, _, _ | .array _, _, _
  | .assignment _ _, _, _ | .splat, _, _ | .subscript _, _, _ | .range _ _ _, _, _
  | .ordering _, _, _ | .sortDirection _, _, _ => trivial
  | .source _, _, h | .pipe _ _, _, h | .mapJoin _, _, h => by
    cases h

variable {document : Json} {f : Operation} {clause : Clause}

/-- The clause of a local filter describes the value that the filter has at a document. -/
theorem describes_eval (hdocument : IsDocument document) (hlocal : f.isLocal = true)
    (hplain : f.isPlainFilter = true) (htranslated : ofFilter f = .ok clause) {v : Value}
    (heval : eval f (Value.ofJson document) = .ok v) :
    clause.Describes (storedOf document) v := by
  have hunstored := unstored_storedOf hdocument
  obtain ⟨fields, rfl⟩ := hdocument.isObject
  have hvalue : (Scope.detached (Value.ofJson (.obj fields))).value =
      Value.ofJson (unstored (stored fields)).1 := congrArg Value.ofJson hunstored.symm
  have hrun : (exec (.fullScan []) f (.detached (Value.ofJson (.obj fields)))).Yields .empty
      (.one (scopeOf f (.detached (Value.ofJson (.obj fields))) v)) .empty :=
    (yields_exec hlocal).mpr ⟨rfl, v, heval, rfl⟩
  have hdescribes := describes_ofFilter hvalue htranslated hplain
    (referencesOwn_of_isLocal hlocal) hrun
  have hresult : (Scoped.one (scopeOf f (.detached (Value.ofJson (.obj fields))) v)).value = v :=
    value_scopeOf hlocal heval
  rw [hresult] at hdescribes
  exact hdescribes

/-- What the selector of a clause accepts, given that it has an answer. -/
def accepted (clause : Clause) (document : Json) : Bool :=
  match clause.judge document with
  | .ok b => b
  | .error _ => false

/-- The store has an answer for every document. -/
theorem judge_eq_accepted_of_isReadFilter (hdocument : IsDocument document)
    (hread : f.isReadFilter = true) (htranslated : ofFilter f = .ok clause) :
    clause.judge (storedOf document) = .ok (accepted clause (storedOf document)) := by
  obtain ⟨fields, rfl⟩ := hdocument.isObject
  obtain ⟨b, hb⟩ := judge_ofReadFilter fields htranslated hread
  have hjudge : clause.judge (storedOf (.obj fields)) = .ok b := hb
  rw [accepted, hjudge]

theorem judge_eq_accepted (hdocument : IsDocument document) (hplain : f.isPlainFilter = true)
    (htranslated : ofFilter f = .ok clause) :
    clause.judge (storedOf document) = .ok (accepted clause (storedOf document)) :=
  judge_eq_accepted_of_isReadFilter hdocument (Operation.isReadFilter_of_isPlainFilter hplain)
    htranslated

theorem eval_of_holds {v : Value} (h : holds f v = true) : eval f v = .ok (.bool true) := by
  unfold holds at h
  cases heval : eval f v with
  | error e =>
    rw [heval] at h
    cases h
  | ok w =>
    rw [heval] at h
    exact congrArg Except.ok (Value.same_true.mp h)

/-- A document that passes a filter is accepted. -/
theorem accepted_of_holds (hdocument : IsDocument document) (hlocal : f.isLocal = true)
    (hplain : f.isPlainFilter = true) (htranslated : ofFilter f = .ok clause)
    (h : holds f (Value.ofJson document) = true) : accepted clause (storedOf document) = true := by
  have hdescribes := describes_eval hdocument hlocal hplain htranslated (eval_of_holds h)
  rw [accepted, hdescribes.keeps rfl]

theorem accepted_iff {document : Json} :
    accepted clause document = true ↔ clause.judge document = .ok true := by
  unfold accepted
  cases hjudge : clause.judge document with
  | error e => simp
  | ok b => simp

/-- An exact selector accepts the documents at which the value is `true`. -/
theorem accepted_eq_same {document : Json} {v : Value} (h : clause.Describes document v)
    (hexact : clause.isExact = true) : accepted clause document = v.same (.bool true) := by
  rw [Bool.eq_iff_iff, accepted_iff, Value.same_true]
  exact ⟨h.exact hexact, h.keeps⟩

/-! ## Exact filters -/

/-- Stages that the store reads as the engine does. -/
structure ReadByStore (stages : List Operation) : Prop where
  plain : ∀ condition, .filter condition ∈ stages → condition.isPlainFilter = true
  translated : ∀ condition, .filter condition ∈ stages → ∃ clause, ofFilter condition = .ok clause
  keys : ∀ terms, .ordering terms ∈ stages → ∀ term ∈ terms, term.expression.isPlainOperand = true

theorem ReadByStore.tail {stage : Operation} {stages : List Operation}
    (h : ReadByStore (stage :: stages)) : ReadByStore stages where
  plain condition hc := h.plain condition (List.mem_cons_of_mem stage hc)
  translated condition hc := h.translated condition (List.mem_cons_of_mem stage hc)
  keys terms ht := h.keys terms (List.mem_cons_of_mem stage ht)

theorem ReadByStore.of_filter {condition : Operation} (hplain : condition.isPlainFilter = true)
    (htranslated : ∃ clause, ofFilter condition = .ok clause) :
    ReadByStore [.filter condition] where
  plain _ h := by
    cases List.mem_singleton.mp h
    exact hplain
  translated _ h := by
    cases List.mem_singleton.mp h
    exact htranslated
  keys _ h := nomatch List.mem_singleton.mp h

theorem plain_ofStages {stages : List Operation} (h : ReadByStore stages) :
    ∀ filter, (FetchSpec.ofStages stages).filter = some filter → filter.isPlainFilter = true :=
  FetchSpec.filter_ofStages (fun _ _ hl hr => Bool.and_eq_true_iff.mpr ⟨hl, hr⟩) h.plain

theorem translated_ofStages {stages : List Operation} (h : ReadByStore stages) :
    ∀ filter, (FetchSpec.ofStages stages).filter = some filter →
      ∃ clause, ofFilter filter = .ok clause := by
  refine FetchSpec.filter_ofStages (fun lhs rhs hl hr => ?_) h.translated
  obtain ⟨c, hc⟩ := hl
  obtain ⟨d, hd⟩ := hr
  refine ⟨c.and d, ?_⟩
  rw [ofFilter, hc, hd]
  rfl

/-- Where the filter of a specification is exact, a document that its selector accepts passes each
filter in turn. -/
theorem passes_of_judge {stages : List Operation} {items : List Scope} {r : Scoped}
    (hlocal : ∀ stage ∈ stages, stage.isLocalStage = true) (hread : ReadByStore stages)
    (hwhole : (FetchSpec.ofStages stages).hasConstraints = true → Whole items)
    (hrun : Steps stages (.many items 0) r) {filter : Operation} {clause : Clause}
    (hfilter : (FetchSpec.ofStages stages).filter = some filter)
    (htranslated : ofFilter filter = .ok clause) (hexact : clause.isExact = true)
    (hdocument : IsDocument document) (hjudge : clause.judge (storedOf document) = .ok true) :
    ∀ s ∈ items, s.value = Value.ofJson document →
      (FetchSpec.ofStages stages).passes s.value = true := by
  induction stages generalizing items filter clause with
  | nil => cases hfilter
  | cons stage rest ih =>
    have hlocal' := fun t ht => hlocal t (List.mem_cons_of_mem stage ht)
    obtain ⟨next, hstep, hrest⟩ := hrun
    cases stage with
    | filter condition =>
      have hall := hwhole rfl
      rw [Step, candidates_of_whole hall] at hstep
      obtain ⟨heval, rfl⟩ := hstep
      have hcondition : condition.isLocal = true := hlocal (.filter condition) List.mem_cons_self
      have hplain := hread.plain condition List.mem_cons_self
      intro s hs hvalue
      obtain ⟨v, hv⟩ := heval s hs
      rw [hvalue] at hv ⊢
      -- once the document is known to pass this filter, it reaches the others
      have hholds : ∀ {c : Clause}, ofFilter condition = .ok c → c.isExact = true →
          c.judge (storedOf document) = .ok true → holds condition (Value.ofJson document) = true := by
        intro c hc hce hcj
        have hdescribes := describes_eval hdocument hcondition hplain hc hv
        rw [holds, hv, hdescribes.exact hce hcj]
        rfl
      rw [FetchSpec.ofStages, passes_applyFilter, Bool.and_eq_true]
      cases hso : (FetchSpec.ofStages rest).filter with
      | none =>
        have hself : filter = condition := by
          simp only [FetchSpec.ofStages, FetchSpec.applyFilter, hso, Option.some.injEq] at hfilter
          exact hfilter.symm
        subst hself
        refine ⟨?_, hholds htranslated hexact hjudge⟩
        rw [FetchSpec.passes, hso]
      | some so_far =>
        have hboth : filter = .binary .and so_far condition := by
          simp only [FetchSpec.ofStages, FetchSpec.applyFilter, hso, Option.some.injEq] at hfilter
          exact hfilter.symm
        subst hboth
        obtain ⟨c, d, hc, hd, rfl⟩ := ofFilter_and htranslated
        have hcj := judge_eq_accepted hdocument (plain_ofStages hread.tail so_far hso) hc
        have hdj := judge_eq_accepted hdocument hplain hd
        rw [judge_and hcj hdj] at hjudge
        simp only [Except.ok.injEq, Bool.and_eq_true] at hjudge
        rw [hjudge.1] at hcj
        rw [hjudge.2] at hdj
        rcases isExact_and hexact with rfl | rfl | ⟨hce, hde⟩
        · cases hcj
        · cases hdj
        · have hpass := hholds hd hde hdj
          have hlater := ih hlocal' hread.tail
            (fun _ t ht => hall t (List.mem_filter.mp ht).1) hrest hso hc hce hcj s
            (List.mem_filter.mpr ⟨hs, by rw [hvalue]; exact hpass⟩) hvalue
          rw [hvalue] at hlater
          exact ⟨hlater, hpass⟩
    | ordering terms =>
      obtain ⟨-, rfl⟩ := hstep
      intro s hs hvalue
      exact ih hlocal' hread.tail
        (fun hc => whole_sorted (hwhole (hasConstraints_applyOrdering hc))) hrest hfilter
        htranslated hexact hjudge s (mem_sorted.mpr hs) hvalue
    | subscript w =>
      rw [FetchSpec.ofStages, (FetchSpec.isWindow_applySubscript _ w).filter] at hfilter
      cases hfilter
    | _ =>
      have hnone := (FetchSpec.isWindow_project (FetchSpec.ofStages rest)).filter
      rw [FetchSpec.ofStages, hnone] at hfilter
      · cases hfilter
      all_goals simp

/-! ## Sorting and cutting in the store -/

/-- Documents in the order of the keys that the engine gives them. -/
def sortedDocuments (terms : List SortTerm) (documents : List Json) : List Json :=
  Sorting.sortBy (fun d e => before terms (Value.ofJson d) (Value.ofJson e)) documents

/-- A plain operand that is sorted by is a field. -/
theorem isField_of_isPlainOperand {term : SortTerm}
    (hplain : term.expression.isPlainOperand = true)
    (hkey : (StoreQuery.sortKey? term).isSome = true) : term.IsField := by
  rw [StoreQuery.sortKey?, Option.isSome_map] at hkey
  obtain ⟨field, hname⟩ := Option.isSome_iff_exists.mp hkey
  obtain ⟨path, names, hexpression, hnames, hne, hnames', -⟩ :=
    Operation.names_of_isPlainOperand hplain hname
  exact ⟨path, names, hexpression, hnames, hne, Operation.isFieldPath_of_isPlainPath hnames'⟩

theorem sortDocuments_eq_sortedDocuments {terms : List SortTerm} {documents : List Json}
    (hdocuments : ∀ d ∈ documents, IsDocument d)
    (hplain : ∀ term ∈ terms, term.expression.isPlainOperand = true)
    (hfields : terms.all fun term => (StoreQuery.sortKey? term).isSome) :
    sortDocuments (terms.filterMap StoreQuery.sortKey?) (documents.map storedOf) =
      (sortedDocuments terms documents).map storedOf := by
  rw [sortDocuments_eq (fun term hterm => isField_of_isPlainOperand (hplain term hterm)
    (List.all_eq_true.mp hfields term hterm)) fun d hd => (hdocuments d hd).isObject]
  refine congrArg (List.map storedOf) (Sorting.sortBy_congr (fun d hd e he => ?_) hdocuments)
  rw [unstored_storedOf hd, unstored_storedOf he]

theorem map_sortedDocuments (terms : List SortTerm) (documents : List Json) (id : SourceId)
    (s : Scope) : (sortedDocuments terms documents).map (documentScope id s) =
      sorted terms (documents.map (documentScope id s)) := by
  rw [sorted, Sorting.sortBy_map]
  rfl

/-- The window of a store query is that of the specification. -/
theorem window_eq {α : Type} {spec : FetchSpec} (hbounds : spec.HasBounds) (f : Json → α)
    (documents : List Json) :
    (Collection.window spec.offset
      (spec.stop.map fun stop => (stop - (spec.offset : Int)).toNat) documents).map f =
        spec.windowed (documents.map f) := by
  rw [← StoreQuery.cutOut_documents, StoreQuery.cutOut_eq hbounds]
  exact spec.map_windowed f documents

/-! ## The answer -/

theorem select_eq {selector : Json} {documents : List Json} {p : Json → Bool}
    (h : ∀ d ∈ documents, Selector.accepts selector d = .ok (p d)) :
    Collection.select selector documents = .ok (documents.filter p) := by
  induction documents with
  | nil => rfl
  | cons d ds ih =>
    rw [Collection.select, h d List.mem_cons_self, ih fun e he => h e (List.mem_cons_of_mem d he),
      List.filter_cons]
    rfl

/-- A collection answers with the documents that are accepted, sorted and cut if it can do that. -/
theorem answer_eq {query : StoreQuery} {clause : Clause} {documents : List Json}
    (hselector : query.selector = clause.selector?)
    (hjudge : ∀ d ∈ documents, clause.judge (storedOf d) = .ok (accepted clause (storedOf d)))
    (pushdown : Bool) : (⟨pushdown, documents.map storedOf⟩ : Collection).answer query = .ok (
      if pushdown && query.exact && query.sortable then
        respond (Collection.window query.offset query.limit (sortDocuments query.sort
          ((documents.filter fun d => accepted clause (storedOf d)).map storedOf)))
          (min query.offset
            ((documents.filter fun d => accepted clause (storedOf d)).map storedOf).length)
      else respond ((documents.filter fun d => accepted clause (storedOf d)).map storedOf) 0) := by
  unfold Collection.answer
  rw [hselector]
  cases hclause : clause.selector? with
  | none =>
    have hnone : (documents.filter fun d => accepted clause (storedOf d)) = [] := by
      rw [List.filter_eq_nil_iff]
      intro d hd
      have hd := hjudge d hd
      rw [judge, hclause] at hd
      simpa using hd.symm
    have hsorted : sortDocuments query.sort [] = [] := rfl
    have hwindow : Collection.window query.offset query.limit [] = [] := by
      cases hlimit : query.limit <;> simp [Collection.window]
    rw [hnone, List.map_nil, hsorted, hwindow, List.length_nil, Nat.min_zero, ite_self]
    rfl
  | some selector =>
    have hselect : Collection.select selector (documents.map storedOf) =
        .ok ((documents.map storedOf).filter (accepted clause)) := by
      refine select_eq fun d hd => ?_
      obtain ⟨e, he, rfl⟩ := List.mem_map.mp hd
      have he := hjudge e he
      rw [judge, hclause] at he
      exact he
    have hfound : (documents.map storedOf).filter (accepted clause) =
        (documents.filter fun d => accepted clause (storedOf d)).map storedOf := List.filter_map
    dsimp only
    rw [hselect, hfound]
    show (if _ then _ else _) = _
    split <;> rfl

theorem fetcher_eq_ok {c : Collection} {spec : FetchSpec} {response : FetchResponse}
    (h : c.fetch spec = .ok response) (n : Nat) : c.fetcher n spec = .ok response :=
  congrArg (Except.mapError _) h

/-- The store query of a specification with a filter. -/
theorem ofSpec_filtered {spec : FetchSpec} {filter : Operation} {clause : Clause}
    (hfilter : spec.filter = some filter) (htranslated : ofFilter filter = .ok clause) :
    StoreQuery.ofSpec spec = .ok {
      selector := clause.selector?
      exact := clause.isExact
      sort := spec.ordering.filterMap StoreQuery.sortKey?
      sortable := spec.ordering.all fun term => (StoreQuery.sortKey? term).isSome
      offset := spec.offset
      limit := spec.stop.map fun stop => (stop - (spec.offset : Int)).toNat } := by
  unfold StoreQuery.ofSpec
  rw [hfilter]
  dsimp only
  rw [htranslated]
  rfl

/-- A specification that a store reads as the engine does. -/
structure Readable (spec : FetchSpec) (documents : List Json) : Prop where
  bounds : spec.HasBounds
  isLocal : ∀ filter, spec.filter = some filter → filter.isLocal = true
  plain : ∀ filter, spec.filter = some filter → filter.isPlainFilter = true
  translated : ∀ filter, spec.filter = some filter → ∃ clause, ofFilter filter = .ok clause
  keys : ∀ term ∈ spec.ordering, term.expression.isPlainOperand = true
  /-- What an exact selector accepts passes. -/
  exact : ∀ filter clause, spec.filter = some filter → ofFilter filter = .ok clause →
    clause.isExact = true → ∀ d ∈ documents, clause.judge (storedOf d) = .ok true →
      spec.passes (Value.ofJson d) = true
  /-- What passes has keys to be sorted by. -/
  good : ∀ d ∈ documents, spec.passes (Value.ofJson d) = true →
    GoodKeys spec.ordering (.detached (Value.ofJson d))

variable {spec : FetchSpec} {documents : List Json}

/-- The clause that a specification is answered by: it accepts what passes, and nothing else if it
is exact. -/
theorem Readable.exists_clause (h : Readable spec documents) (hdocuments : ∀ d ∈ documents, IsDocument d) :
    ∃ clause : Clause, StoreQuery.ofSpec spec = .ok {
        selector := clause.selector?
        exact := clause.isExact
        sort := spec.ordering.filterMap StoreQuery.sortKey?
        sortable := spec.ordering.all fun term => (StoreQuery.sortKey? term).isSome
        offset := spec.offset
        limit := spec.stop.map fun stop => (stop - (spec.offset : Int)).toNat } ∧
      ∀ d ∈ documents, clause.judge (storedOf d) = .ok (accepted clause (storedOf d)) ∧
        (spec.passes (Value.ofJson d) = true → accepted clause (storedOf d) = true) ∧
        (clause.isExact = true → accepted clause (storedOf d) = true →
          spec.passes (Value.ofJson d) = true) := by
  cases hfilter : spec.filter with
  | none =>
    refine ⟨.const true, ?_, fun d hd => ⟨rfl, fun _ => rfl, fun _ _ => ?_⟩⟩
    · exact StoreQuery.ofSpec_unfiltered hfilter
    · rw [FetchSpec.passes, hfilter]
  | some filter =>
    obtain ⟨clause, hclause⟩ := h.translated filter hfilter
    have hplain := h.plain filter hfilter
    refine ⟨clause, ofSpec_filtered hfilter hclause,
      fun d hd => ⟨judge_eq_accepted (hdocuments d hd) hplain hclause, ?_, ?_⟩⟩
    · intro hpasses
      rw [FetchSpec.passes, hfilter] at hpasses
      exact accepted_of_holds (hdocuments d hd) (h.isLocal filter hfilter) hplain hclause hpasses
    · intro hexact haccepted
      refine h.exact filter clause hfilter hclause hexact d hd ?_
      rw [judge_eq_accepted (hdocuments d hd) hplain hclause, haccepted]

theorem objects_of_documents (h : ∀ d ∈ documents, IsDocument d) : Objects documents :=
  fun d hd => (h d hd).isObject

/-- The documents of a response, as they were given to the collection. -/
theorem results_respond (h : ∀ d ∈ documents, IsDocument d) (start : Nat) :
    (respond (documents.map storedOf) start).results = documents := by
  show (documents.map storedOf).map _ = documents
  rw [List.map_map]
  exact (List.map_congr_left fun d hd => unstored_storedOf (h d hd)).trans (List.map_id _)

/-- A response of all accepted documents. -/
theorem answers_accepted (hdocuments : ∀ d ∈ documents, IsDocument d) {p : Json → Bool}
    (hpass : ∀ d ∈ documents, spec.passes (Value.ofJson d) = true → p d = true) :
    Answers spec documents (respond ((documents.filter p).map storedOf) 0) := by
  have hfound : ∀ d ∈ documents.filter p, IsDocument d := fun d hd =>
    hdocuments d (List.mem_filter.mp hd).1
  have hresults := results_respond hfound 0
  have hboth : (documents.filter fun d => spec.passes (Value.ofJson d)) =
      (documents.filter p).filter fun d => spec.passes (Value.ofJson d) := by
    rw [List.filter_filter]
    refine List.filter_congr fun d hd => ?_
    cases hd' : spec.passes (Value.ofJson d) with
    | false => rfl
    | true => rw [hpass d hd hd', Bool.and_self]
  refine answers_of_sublist (objects_of_documents hdocuments) ?_ ?_ rfl
  · rw [hresults]
    exact List.filter_sublist
  · rw [hresults, hboth]
    exact List.filter_sublist

/-- A response of the documents that pass, sorted and cut. -/
theorem answers_window (h : Readable spec documents)
    (hdocuments : ∀ d ∈ documents, IsDocument d)
    (hfields : spec.ordering.all fun term => (StoreQuery.sortKey? term).isSome) {p : Json → Bool}
    (hpass : ∀ d ∈ documents, p d = spec.passes (Value.ofJson d)) :
    Answers spec documents (respond
      (Collection.window spec.offset
        (spec.stop.map fun stop => (stop - (spec.offset : Int)).toNat)
        (sortDocuments (spec.ordering.filterMap StoreQuery.sortKey?)
          ((documents.filter p).map storedOf)))
      (min spec.offset ((documents.filter p).map storedOf).length)) := by
  have hfound : ∀ d ∈ documents.filter p, IsDocument d := fun d hd =>
    hdocuments d (List.mem_filter.mp hd).1
  have hsorted : ∀ d ∈ sortedDocuments spec.ordering (documents.filter p), IsDocument d :=
    fun d hd => hfound d (Sorting.mem_sortBy.mp hd)
  intro id s
  have hitems : (documents.filter p).map (documentScope id s) =
      (documents.map (documentScope id s)).filter fun t => spec.passes t.value := by
    rw [List.filter_map]
    refine congrArg (List.map (documentScope id s)) (List.filter_congr fun d hd => ?_)
    exact hpass d hd
  have hgood : ∀ t ∈ (documents.filter p).map (documentScope id s), GoodKeys spec.ordering t := by
    intro t ht
    obtain ⟨d, hd, rfl⟩ := List.mem_map.mp ht
    obtain ⟨hd, hpd⟩ := List.mem_filter.mp hd
    exact h.good d hd ((hpass d hd).symm.trans hpd)
  -- what is given, as items of the pipeline
  have hgiven : (Collection.window spec.offset
      (spec.stop.map fun stop => (stop - (spec.offset : Int)).toNat)
      (sortDocuments (spec.ordering.filterMap StoreQuery.sortKey?)
        ((documents.filter p).map storedOf))).map (fun d => documentScope id s (unstored d).1) =
      spec.windowed (sorted spec.ordering ((documents.filter p).map (documentScope id s))) := by
    rw [sortDocuments_eq_sortedDocuments hfound h.keys hfields, window_eq h.bounds, List.map_map,
      ← map_sortedDocuments]
    refine congrArg spec.windowed (List.map_congr_left fun d hd => ?_)
    exact congrArg (documentScope id s) (unstored_storedOf (hsorted d hd))
  have hresults : (respond _ (min spec.offset ((documents.filter p).map storedOf).length)).results.map
      (documentScope id s) = _ := (List.map_map ..).trans hgiven
  rw [hresults]
  refine .exact (fun _ => whole_documents (objects_of_documents hdocuments) id s) ?_
    (Nat.min_le_left _ _) fun hne => ?_
  · rw [sorted_sublist hgood (spec.windowed_sublist _), hitems]
  · -- what is left out in front is there to be left out
    have hle := FetchSpec.offset_le_length h.bounds hne
    change spec.offset ≤ (Sorting.sortBy _ _).length at hle
    rw [Sorting.length_sortBy, List.length_map] at hle
    rw [List.length_map]
    exact Nat.min_eq_left hle

/-- **A collection answers every specification that it reads as the engine does.** -/
theorem answers_fetch (h : Readable spec documents)
    (hdocuments : ∀ d ∈ documents, IsDocument d) (pushdown : Bool) :
    ∃ response, (⟨pushdown, documents.map storedOf⟩ : Collection).fetch spec = .ok response ∧
      Answers spec documents response := by
  obtain ⟨clause, hquery, hclause⟩ := h.exists_clause hdocuments
  rw [Collection.fetch, hquery]
  refine ⟨_, answer_eq rfl (fun d hd => (hclause d hd).1) pushdown, ?_⟩
  split
  · next hpush =>
    simp only [Bool.and_eq_true] at hpush
    obtain ⟨⟨-, hexact⟩, hfields⟩ := hpush
    refine answers_window h hdocuments hfields fun d hd => ?_
    rw [Bool.eq_iff_iff]
    exact ⟨(hclause d hd).2.2 hexact, (hclause d hd).2.1⟩
  · exact answers_accepted hdocuments fun d hd => (hclause d hd).2.1

theorem sortedDocuments_nil (documents : List Json) : sortedDocuments [] documents = documents := by
  have hweak : Sorting.Weak (fun d e => Local.before [] (Value.ofJson d) (Value.ofJson e))
      fun _ => True := ⟨fun _ _ h => (nomatch h), fun _ _ _ h => (nomatch h)⟩
  exact Sorting.sortBy_eq_self hweak (fun _ _ => trivial) (List.pairwise_of_forall fun _ _ => rfl)

/-- A collection answers filters alike that are alike for the store. -/
theorem fetch_congr {F G : Operation} (h : ofFilter F = ofFilter G) (c : Collection) :
    c.fetch (.filtered F) = c.fetch (.filtered G) := by
  have hquery : StoreQuery.ofSpec (.filtered F) = StoreQuery.ofSpec (.filtered G) := by
    show (ofFilter F >>= _) = (ofFilter G >>= _)
    rw [h]
    rfl
  rw [Collection.fetch, Collection.fetch, hquery]

/-- A collection answers by the clause of the filter. -/
theorem fetch_eq {filter : Operation} {clause : Clause} (hfilter : spec.filter = some filter)
    (htranslated : ofFilter filter = .ok clause)
    (hjudge : ∀ d ∈ documents, clause.judge (storedOf d) = .ok (accepted clause (storedOf d)))
    (pushdown : Bool) : (⟨pushdown, documents.map storedOf⟩ : Collection).fetch spec = .ok (
      if pushdown && clause.isExact &&
          spec.ordering.all fun term => (StoreQuery.sortKey? term).isSome then
        respond (Collection.window spec.offset
          (spec.stop.map fun stop => (stop - (spec.offset : Int)).toNat)
          (sortDocuments (spec.ordering.filterMap StoreQuery.sortKey?)
            ((documents.filter fun d => accepted clause (storedOf d)).map storedOf)))
          (min spec.offset
            ((documents.filter fun d => accepted clause (storedOf d)).map storedOf).length)
      else respond ((documents.filter fun d => accepted clause (storedOf d)).map storedOf) 0) := by
  rw [Collection.fetch, ofSpec_filtered hfilter htranslated]
  exact answer_eq rfl hjudge pushdown

/-- A collection answers a filter with every document that its selector accepts, in their order. -/
theorem fetch_filtered_of_judge (hdocuments : ∀ d ∈ documents, IsDocument d) {filter : Operation}
    {clause : Clause} (htranslated : ofFilter filter = .ok clause)
    (hjudge : ∀ d ∈ documents, clause.judge (storedOf d) = .ok (accepted clause (storedOf d)))
    (pushdown : Bool) :
    (⟨pushdown, documents.map storedOf⟩ : Collection).fetch (.filtered filter) =
      .ok (respond ((documents.filter fun d => accepted clause (storedOf d)).map storedOf) 0) := by
  refine (fetch_eq rfl htranslated hjudge pushdown).trans ?_
  -- no order and no window: sorting and cutting leave what was found
  have hsorted := @sortDocuments_eq_sortedDocuments []
    (documents.filter fun d => accepted clause (storedOf d))
    (fun d hd => hdocuments d (List.mem_filter.mp hd).1) (fun _ h => absurd h List.not_mem_nil) rfl
  rw [sortedDocuments_nil] at hsorted
  have hoffset : (FetchSpec.filtered filter).offset = 0 := rfl
  split
  · rw [hoffset, Nat.zero_min]
    exact congrArg (fun ds => Except.ok (respond ds 0)) hsorted
  · rfl

theorem fetch_filtered (hdocuments : ∀ d ∈ documents, IsDocument d) {filter : Operation}
    {clause : Clause} (hplain : filter.isPlainFilter = true)
    (htranslated : ofFilter filter = .ok clause) (pushdown : Bool) :
    (⟨pushdown, documents.map storedOf⟩ : Collection).fetch (.filtered filter) =
      .ok (respond ((documents.filter fun d => accepted clause (storedOf d)).map storedOf) 0) :=
  fetch_filtered_of_judge hdocuments htranslated
    (fun d hd => judge_eq_accepted (hdocuments d hd) hplain htranslated) pushdown

end Pushdown
end DocQuery
