import DocQuery.Proofs.Join.Fetch
import DocQuery.Proofs.Query.Pushdown
import DocQuery.Proofs.Store.Ids

/-!
# Joins over values of a query

A query can join documents to the elements of a parameter or of an array that is written in it:
`$a[]{"hit": *[c == ^.k]}`. Such values were read from no source, so each of them is all that is
known of its siblings. What is fetched for the first element serves every other one all the same,
and **an element finds a document only if the first element matches it too**
(`Query.result_elements`).
-/

set_option autoImplicit false

namespace DocQuery

open Operation Engine

/-! ## Comparing two attributes -/

namespace Join

/-- A comparison of attributes of a candidate with attributes of the enclosing value. -/
def comparison (op : BinaryOp) (c k : List String) : Operation :=
  .binary op (.attrs c) (.accessor (.parent :: k.map .attr))

/-- The documents for which the comparison is exactly `true` within a value. -/
def matching (op : BinaryOp) (c k : List String) (documents : List Json) (e : Json) : List Json :=
  documents.filter fun d => Operator.holds op ((Value.ofJson d).follow c) ((Value.ofJson e).follow k)

variable {op : BinaryOp} {c k : List String} {siblings : List Value} {p d : Value}

theorem isFree_attrs (c : List String) : (attrs c).isFree = true := by
  show (attributeNames? (c.map .attr)).isSome = true
  rw [attributeNames?_map]
  rfl

theorem outerOperand?_attrs (hk : k ≠ []) :
    (Operation.accessor (.parent :: k.map .attr)).outerOperand? = some k := by
  cases k with
  | nil => exact absurd rfl hk
  | cons name k => exact attributeNames?_map (name :: k)

theorem isJoinFilter_comparison (hop : op = .eq ∨ op = .member) (hk : k ≠ []) :
    IsJoinFilter siblings true (comparison op c k) := by
  have hside : ((attrs c).outerOperand?.isSome &&
      (Operation.accessor (.parent :: k.map .attr)).isFree || (attrs c).isFree &&
        (Operation.accessor (.parent :: k.map .attr)).outerOperand?.isSome) = true := by
    rw [isFree_attrs, outerOperand?_attrs hk, Option.isSome_some, Bool.and_self, Bool.or_true]
  rcases hop with rfl | rfl
  · exact .inr ⟨hside, nofun⟩
  · exact .inr ⟨hside, nofun⟩

theorem within_comparison : (comparison op c k).within isInnerOrOuter (fun _ => false) = true := by
  have hinner : isInner (c.map .attr) = true := isFree_attrs c
  have houter : outerNames? (.parent :: k.map .attr) = some k := attributeNames?_map k
  have hc : isInnerOrOuter (c.map .attr) = true := by
    rw [isInnerOrOuter, hinner, Bool.true_or]
  have hk : isInnerOrOuter (.parent :: k.map .attr) = true := by
    rw [isInnerOrOuter, houter, Option.isSome_some, Bool.or_true]
  exact Bool.and_eq_true_iff.mpr ⟨hc, hk⟩

theorem eval_comparison : Correlated.eval p (comparison op c k) d =
    Operator.apply op (d.follow c) (p.follow k) := by
  have hlhs : Correlated.eval p (attrs c) d = .ok (d.follow c) :=
    Correlated.eval_inner (attributeNames?_map c) d
  have hrhs : Correlated.eval p (.accessor (.parent :: k.map .attr)) d = .ok (p.follow k) := by
    have hsome : outerNames? (.parent :: k.map .attr) = some k := attributeNames?_map k
    rw [Correlated.eval, hsome]
  rw [comparison, Correlated.eval, hlhs, hrhs]
  rfl

theorem holds_comparison : Correlated.holds p (comparison op c k) d =
    Operator.holds op (d.follow c) (p.follow k) := by
  rw [Bool.eq_iff_iff, Correlated.holds_iff, eval_comparison, Operator.holds]
  split
  · next h => simp [h]
  · next hne => simpa using hne

/-! ## A value without siblings -/

/-- What a comparison is widened to. -/
def widenComparison (op : BinaryOp) (c : Operation) (values : List Value) : Operation :=
  match op with
  | .member => widenMember c values
  | _ => widenEq c values

theorem generalize_comparison (hop : op = .eq ∨ op = .member) (hk : k ≠ []) {context : Context}
    {s : Scope} (hsiblings : siblings? context s = some siblings) :
    generalize context s (comparison op c k) =
      .ok (some (widenComparison op (.attrs c) (valuesAt siblings k))) := by
  have houter := outerOperand?_attrs hk
  rcases hop with rfl | rfl
  · rw [comparison, generalize, isParentAccessor_of_isFree (isFree_attrs c),
      isParentAccessor_of_outer houter, joinValues_of_outer hsiblings houter]
    rfl
  · rw [comparison, generalize, isParentAccessor_of_isFree (isFree_attrs c),
      isParentAccessor_of_outer houter, joinValues_of_outer hsiblings houter]
    rfl

/-- A value that was read from no source is fetched for alone. -/
theorem yields_finish_alone (hop : op = .eq ∨ op = .member) (hk : k ≠ []) {s : Scope} {σ : Session}
    (hsource : s.source = none) :
    (finish s (.filtered (comparison op c k))).Yields σ
      (.filtered (widenComparison op (.attrs c) (valuesAt [s.value] k))) σ := by
  have hsiblings : siblings? σ.context s = some [s.value] := by
    unfold siblings?
    rw [hsource]
    rfl
  have hgeneralize := generalize_comparison (c := c) hop hk hsiblings
  exact yields_finish_widened hgeneralize
    (widens_of_generalize hsiblings (isJoinFilter_comparison hop hk) hgeneralize)

theorem fieldName?_attrs (hc : c ≠ []) : ∃ field, (attrs c).fieldName? = some field := by
  cases c with
  | nil => exact absurd rfl hc
  | cons name c =>
    refine ⟨String.intercalate "." (name :: c), ?_⟩
    show (attributeNames? ((name :: c).map .attr)).map _ = _
    rw [attributeNames?_map]
    rfl

open Clause in
/-- The selector of a widened comparison accepts nothing else. -/
theorem isExact_widenComparison (hc : c ≠ []) {values : List Value} {clause : Clause}
    (h : ofFilter (widenComparison op (.attrs c) values) = .ok clause) :
    clause.isExact = true := by
  obtain ⟨field, hfield⟩ := fieldName?_attrs hc
  have hoperand : Operand.ofOperation (attrs c) = .field field := by
    rw [Operand.ofOperation, hfield]
  unfold widenComparison at h
  split at h
  · unfold widenMember at h
    dsimp only at h
    split at h
    · cases h
      rfl
    · cases h
      exact isExact_member_literal hoperand _
  · exact Pushdown.isExact_widenEq hoperand h

/-- The values of the one sibling there is. -/
theorem valuesAt_alone (p : Value) (k : List String) :
    p.follow k = .null ∧ valuesAt [p] k = [] ∨
      p.follow k ≠ .null ∧ valuesAt [p] k = [p.follow k] := by
  by_cases hnull : p.follow k = .null
  · refine .inl ⟨hnull, ?_⟩
    rw [valuesAt, List.map_cons, hnull]
    rfl
  · refine .inr ⟨hnull, ?_⟩
    rw [valuesAt, List.map_cons, List.map_nil, List.filter_cons, Value.isNull_eq_false hnull]
    rfl

theorem eval_literal_comparison {outer a v : Value} {c : Operation}
    (ha : Correlated.eval outer c d = .ok a) :
    Correlated.eval outer (.binary op c (.literal v)) d = Operator.apply op a v := by
  rw [Correlated.eval, ha]
  rfl

theorem eq_null_of_membership {a q v : Value} (hread : q.IsRead) (hq : q ≠ .null)
    (harray : ¬∃ items, q = .array items) (h : Operator.membership a q = .ok v) :
    a = .null ∧ v = .null := by
  by_cases ha : a = .null
  · rw [ha, Operator.membership_null_left] at h
    cases h
    exact ⟨ha, rfl⟩
  · unfold Operator.membership at h
    rw [Value.isNull_eq_false ha, Value.isNull_eq_false hq] at h
    cases q with
    | array items => exact absurd ⟨items, rfl⟩ harray
    | path pattern => exact absurd rfl (hread.ne_path pattern)
    | _ => cases h

/-- Widened for one value alone, membership in it is `true` where it was. -/
theorem eval_widenMember_alone {outer a v w : Value} {lhs : Operation} (hread : w.IsRead)
    (hw : w ≠ .null) (ha : Correlated.eval outer lhs d = .ok a)
    (h : Operator.membership a w = .ok v) :
    ∃ v', Correlated.eval outer (widenMember lhs [w]) d = .ok v' ∧
      (v' = .bool true ↔ v = .bool true) := by
  by_cases harray : ∃ items, w = .array items
  · obtain ⟨items, rfl⟩ := harray
    have hspread : [Value.array items].flatMap spread = items := by
      rw [List.flatMap_singleton, spread]
    rw [widenMember, hspread]
    cases items with
    | nil =>
      -- nothing is in an empty array, and what is widened says so of null too
      refine ⟨.bool false, rfl, ?_⟩
      by_cases hnull : a = .null
      · rw [hnull, Operator.membership_null_left] at h
        cases h
        simp
      · rw [Operator.membership_items hnull fun _ h => absurd h List.not_mem_nil] at h
        cases h
        simp
    | cons item items => exact ⟨v, (eval_literal_comparison ha).trans h, Iff.rfl⟩
  · -- to ask for something in what is no array is an error
    obtain ⟨rfl, rfl⟩ := eq_null_of_membership hread hw harray h
    have hspread : [w].flatMap spread = [w] := by
      rw [List.flatMap_singleton, spread]
      exact fun items hitems => harray ⟨items, hitems⟩
    rw [widenMember, hspread]
    exact ⟨.null, (eval_literal_comparison ha).trans rfl, Iff.rfl⟩

/-- Widened for one value alone, a comparison is `true` where it was for that value. -/
theorem eval_widenComparison_alone (hop : op = .eq ∨ op = .member) (hread : p.IsRead)
    {outer v : Value} (heval : Correlated.eval p (comparison op c k) d = .ok v) :
    ∃ w, Correlated.eval outer (widenComparison op (.attrs c) (valuesAt [p] k)) d = .ok w ∧
      (w = .bool true ↔ v = .bool true) := by
  have ha : Correlated.eval outer (attrs c) d = .ok (d.follow c) := by
    have hnone : outerNames? (c.map .attr) = none := by cases c <;> rfl
    rw [attrs, Correlated.eval, hnone, attributeNames?_map]
    rfl
  rw [eval_comparison] at heval
  rcases valuesAt_alone p k with ⟨hnull, hvalues⟩ | ⟨hne, hvalues⟩
  · -- nothing is compared with null
    rw [hnull] at heval
    rw [hvalues]
    rcases hop with rfl | rfl
    · refine ⟨.bool false, rfl, ?_⟩
      cases heval
      simp [Value.equals, Value.isNull, Operator.truth]
    · refine ⟨.bool false, rfl, ?_⟩
      change Operator.membership _ .null = _ at heval
      rw [Operator.membership_null_right] at heval
      cases heval
      simp
  · rw [hvalues]
    rcases hop with rfl | rfl
    · exact ⟨v, (eval_literal_comparison ha).trans heval, Iff.rfl⟩
    · exact eval_widenMember_alone (hread.follow k) hne ha heval

/-! ## What is fetched for one value -/

open Clause Collection Pushdown

theorem isPlainFilter_comparison (hop : op = .eq ∨ op = .member) (hc : isPlainPath c = true) :
    (comparison op c k).isPlainFilter = true := by
  have hlhs : (attrs c).isPlainOperand = true := by
    rw [attrs, isPlainOperand, attributeNames?_map]
    exact hc
  rcases hop with rfl | rfl
  · exact Bool.and_eq_true_iff.mpr ⟨hlhs, rfl⟩
  · exact Bool.and_eq_true_iff.mpr ⟨hlhs, rfl⟩

/-- A collection gives for one value what matches it. -/
theorem fetch_comparison_alone {documents : List Json} {e : Json}
    (hdocuments : ∀ d ∈ documents, IsDocument d) (hop : op = .eq ∨ op = .member) (hc : c ≠ [])
    (hplain : isPlainPath c = true) (hk : k ≠ []) (hjson : (Value.ofJson e).isJson = true)
    (heval : ∀ d ∈ documents, ∃ v, Correlated.eval (.ofJson e) (comparison op c k) (.ofJson d) = .ok v)
    (pushdown : Bool) :
    ∃ response, (⟨pushdown, documents.map storedOf⟩ : Collection).fetch (.filtered
        (widenComparison op (.attrs c) (valuesAt [.ofJson e] k))) = .ok response ∧
      response.results = matching op c k documents e := by
  have hsiblings : siblings? .empty (.detached (.ofJson e)) = some [Value.ofJson e] := rfl
  have hwidens := widens_of_generalize hsiblings (@isJoinFilter_comparison op c k _ hop hk)
    (generalize_comparison hop hk hsiblings)
  have hplain' := isPlainFilter_of_widens hwidens (fun v hv => List.mem_singleton.mp hv ▸ hjson)
    (isPlainFilter_comparison hop hplain)
  obtain ⟨clause, hclause⟩ := translated_of_widens hwidens (by
    rcases hop with rfl | rfl <;> exact ⟨_, rfl⟩)
  refine ⟨_, fetch_filtered hdocuments hplain' hclause pushdown, ?_⟩
  rw [results_respond fun d hd => hdocuments d (List.mem_filter.mp hd).1, matching]
  refine List.filter_congr fun d hd => ?_
  obtain ⟨v, hv⟩ := heval d hd
  obtain ⟨w, hw, hiff⟩ := @eval_widenComparison_alone op c k _ _ hop (Value.isRead_ofJson e) .null _ hv
  rw [accepted_eq_holds (hdocuments d hd) (isFree_of_widens hwidens) hplain' hclause
    (isExact_widenComparison hc hclause) hw, ← holds_comparison, Bool.eq_iff_iff,
    Correlated.holds_iff, Correlated.holds_iff, hv, hw, Except.ok.injEq, Except.ok.injEq]
  exact hiff

end Join

/-! ## Running -/

namespace Local

variable {fetcher : Fetcher} {s : Scope} {σ τ : Session} {r : Scoped} {v : Value}

theorem source_resolve {path : List PathStep} {names : List String}
    (h : attributeNames? path = some names) (s : Scope) : (s.resolve path).source = s.source := by
  induction path generalizing s names with
  | nil => rfl
  | cons step steps ih =>
    cases step with
    | parent => cases h
    | attr name =>
      obtain ⟨rest, hrest, -⟩ := Option.map_eq_some_iff.mp h
      rw [Scope.resolve]
      split
      · rfl
      · exact ih hrest (s.attr name)

/-- What a value of no source is made into is of no source. -/
theorem source_scopeOf (hs : s.source = none) :
    ∀ {o : Operation}, o.isLocal = true → (scopeOf o s v).source = none
  | .filter condition, h => source_scopeOf hs (o := condition) h
  | .accessor path, h => by
    obtain ⟨names, hnames⟩ := Option.isSome_iff_exists.mp h
    exact (source_resolve hnames s).trans hs
  | .binary _ _ _, _ | .not _, _ | .literal _, _ => rfl
  | .object _, _ | .array _, _ | .call _ _, _ | .assignment _ _, _ | .splat, _ | .subscript _, _
  | .range _ _ _, _ | .ordering _, _ | .sortDirection _, _ => hs
  | .source _, h | .pipe _ _, h | .mapJoin _, h => by
    cases h

/-- A pipeline that begins with a value applies its stages to that. -/
theorem yields_run_value {o : Operation} (h : o.isLocal = true) {rest : List Operation} :
    (run fetcher (o :: rest) s).Yields σ r τ ↔ ∃ v, eval o s.value = .ok v ∧
      (applyStages fetcher rest (.one (scopeOf o s v)) s).Yields σ r τ := by
  have hrun : run fetcher (o :: rest) s =
      (exec fetcher o s >>= fun input => applyStages fetcher rest input s) := by
    cases o with
    | source id => cases h
    | _ => rfl
  rw [hrun, Run.yields_bind]
  simp only [yields_exec h]
  constructor
  · rintro ⟨_, _, ⟨rfl, v, hv, rfl⟩, hrest⟩
    exact ⟨v, hv, hrest⟩
  · rintro ⟨v, hv, hrest⟩
    exact ⟨_, σ, ⟨rfl, v, hv, rfl⟩, hrest⟩

/-- Opening an array keeps all of its elements. -/
theorem step_open {vs : List Value} (h : s.value = .array vs) :
    Step (.filter (.literal (.bool true))) (.one s) r ↔
      r = .many (Scoped.elementsOf s vs) s.start := by
  have hcandidates : (Scoped.one s).candidates = (Scoped.elementsOf s vs, s.start) := by
    rw [Scoped.candidates, h]
  rw [Step, hcandidates]
  have hall : ((Scoped.elementsOf s vs).filter fun t => holds (.literal (.bool true)) t.value) =
      Scoped.elementsOf s vs := List.filter_eq_self.mpr fun _ _ => rfl
  rw [hall]
  exact ⟨fun hr => hr.2, fun hr => ⟨fun _ _ => ⟨_, rfl⟩, hr⟩⟩

end Local

/-! ## Queries -/

namespace Query

open Join Local Collection

variable {q : Query} {documents elements found : List Json} {o : Operation} {op : BinaryOp}
  {c k : List String} {id : SourceId} {hit : String} {label name : Option String} {result : Json}

/-- What an element of the result is, given the documents that are looked among. -/
def elementHits (op : BinaryOp) (c k : List String) (hit : String) (found : List Json) (e : Json) :
    Value :=
  .object [(hit, .array ((matching op c k found e).map .ofJson))]

theorem hits_comparison (e : Json) :
    Correlated.hits hit (comparison op c k) (found.map .ofJson) (.ofJson e) =
      elementHits op c k hit found e := by
  rw [Correlated.hits, List.filter_map, elementHits, matching]
  simp only [Function.comp_def, holds_comparison]

/-- Behind an array that needs nothing fetched, an open filter is left out: the stages behind it read
the elements. -/
theorem yields_pipe_elements {fetcher : Fetcher} {stages : List Operation} {values : List Value}
    {r : Scoped} {τ : Session} (hlocal : o.isLocal = true)
    (helements : eval o (.object []) = .ok (.array values)) :
    (exec fetcher (.pipe (o :: .filter (.literal (.bool true)) :: stages) name) .root).Yields
        .empty r τ ↔
      (applyStages fetcher stages (.many (Scoped.elementsOf (scopeOf o .root (.array values)) values)
        (scopeOf o .root (.array values)).start) .root).Yields .empty r τ := by
  have hvalue : (scopeOf o .root (.array values)).value = .array values :=
    value_scopeOf hlocal helements
  rw [yields_pipe, yields_run_value hlocal]
  constructor
  · rintro ⟨v, hv, hrest⟩
    cases hv.symm.trans helements
    obtain ⟨next, hstep, hrest⟩ := (yields_applyStages_cons rfl).mp hrest
    obtain rfl := (step_open hvalue).mp hstep
    exact hrest
  · intro hrest
    exact ⟨_, helements, (yields_applyStages_cons rfl).mpr
      ⟨_, (step_open hvalue).mpr rfl, hrest⟩⟩

/-- The elements look among what is fetched for the first of them. -/
theorem result_elements_found {fetcher : Fetcher} (found : List Json)
    (hop : op = .eq ∨ op = .member) (hk : k ≠ [])
    (hplan : q.operation = .ok (.pipe [o, .filter (.literal (.bool true)),
      .joined hit id (comparison op c k) label] name))
    (hlocal : o.isLocal = true)
    (helements : eval o (.object []) = .ok (.array (elements.map .ofJson)))
    (hfetch : ∀ first ∈ elements.head?, ∃ response, fetcher 0 (.filtered
      (widenComparison op (.attrs c) (valuesAt [.ofJson first] k))) = .ok response ∧
        response.results = found) :
    q.result fetcher = .ok result ↔
      (∀ e ∈ elements, ∀ d ∈ found,
        ∃ v, Correlated.eval (.ofJson e) (comparison op c k) (.ofJson d) = .ok v) ∧
      result = (Value.array (elements.map (elementHits op c k hit found))).toJson := by
  let s : Scope := scopeOf o .root (.array (elements.map .ofJson))
  have hsource : s.source = none := source_scopeOf rfl hlocal
  have hjoined := @Correlated.exists_projected_iff_found fetcher .root .empty (fun _ => false)
    (comparison op c k) id hit label (Scoped.elementsOf s (elements.map .ofJson)) (found.map .ofJson)
    s.start (fun v => result = v.toJson) rfl (fun first hfirst => ?_) within_comparison
  · have hmembers : (Scoped.elementsOf s (elements.map .ofJson)).map (fun t =>
        Correlated.hits hit (comparison op c k) (found.map .ofJson) t.value) =
          elements.map (elementHits op c k hit found) := by
      rw [Scoped.elementsOf, List.map_map, List.map_map]
      exact List.map_congr_left fun e _ => hits_comparison e
    rw [result_eq_ok hplan]
    simp only [yields_pipe_elements hlocal helements]
    rw [hjoined, hmembers]
    simp only [Scoped.elementsOf, List.forall_mem_map]
    exact Iff.rfl
  · rw [Scoped.elementsOf, List.map_map, List.head?_map] at hfirst
    obtain ⟨e, he, rfl⟩ := Option.map_eq_some_iff.mp hfirst
    obtain ⟨response, hresponse, rfl⟩ := hfetch e he
    have hsource' : (s.element (.ofJson e)).source = none := hsource
    exact ⟨_, response, yields_finish_alone hop hk hsource', hresponse, rfl,
      fun σ => σ.context.source? id = some ⟨response.results.map .ofJson, response.start⟩,
      source?_store _ _ _, fun _ h => h, fun h => absurd h Bool.false_ne_true⟩

/-- The results tell how many documents each element finds. -/
theorem length_matching_of_toJson {found' : List Json}
    (h : (Value.array (elements.map (elementHits op c k hit found))).toJson =
      (Value.array (elements.map (elementHits op c k hit found'))).toJson) :
    ∀ e ∈ elements, (matching op c k found e).length = (matching op c k found' e).length := by
  simp only [Value.toJson, Value.toItems_eq_map, List.map_map, Json.arr.injEq, List.map_inj_left]
    at h
  intro e he
  have hfields := h e he
  simp only [Function.comp_def, elementHits, Value.toJson, Value.toFields, Value.toItems_eq_map,
    Json.obj.injEq, List.cons.injEq, Prod.mk.injEq, Json.arr.injEq, and_true, true_and] at hfields
  simpa using congrArg List.length hfields

theorem matching_matching (first e : Json) :
    matching op c k (matching op c k documents first) e = matching op c k documents e ↔
      ∀ d ∈ matching op c k documents e, d ∈ matching op c k documents first := by
  constructor
  · intro h d hd
    rw [← h] at hd
    exact (List.mem_filter.mp hd).1
  · intro h
    unfold matching at h ⊢
    rw [List.filter_filter]
    refine List.filter_congr fun d hd => ?_
    cases he : Operator.holds op ((Value.ofJson d).follow c) ((Value.ofJson e).follow k) with
    | false => rfl
    | true =>
      have hfirst := (List.mem_filter.mp (h d (List.mem_filter.mpr ⟨hd, he⟩))).2
      rw [hfirst, Bool.and_self]

/-- **A fetch for elements of a query's own serves the first of them.** Where the query succeeds over
all documents, each element finds all documents that match it. Over a collection it finds those among
the documents that match the first element. So both give the same exactly when every document that
matches some element matches the first one as well. -/
theorem result_elements (hdocuments : ∀ d ∈ documents, IsDocument d)
    (hdistinct : DistinctIds documents) (hop : op = .eq ∨ op = .member) (hc : c ≠ [])
    (hplain : isPlainPath c = true) (hk : k ≠ [])
    (hplan : q.operation = .ok (.pipe [o, .filter (.literal (.bool true)),
      .joined hit id (comparison op c k) label] name))
    (hlocal : o.isLocal = true)
    (helements : eval o (.object []) = .ok (.array (elements.map .ofJson)))
    (hjson : ∀ e ∈ elements, (Value.ofJson e).isJson = true)
    (hscan : q.result (.fullScan documents) = .ok result) :
    result = (Value.array (elements.map (elementHits op c k hit documents))).toJson ∧
    ∀ pushdown, ∃ collection, ofDocuments pushdown documents = .ok collection ∧
      q.result collection.fetcher = .ok (Value.array (elements.map (elementHits op c k hit
        ((elements.head?.map (matching op c k documents)).getD [])))).toJson ∧
      (q.result collection.fetcher = .ok result ↔ ∀ first ∈ elements.head?, ∀ e ∈ elements,
        ∀ d ∈ matching op c k documents e, d ∈ matching op c k documents first) := by
  obtain ⟨heval, hresult⟩ := (result_elements_found documents hop hk hplan hlocal
    helements fun _ _ => ⟨_, rfl, rfl⟩).mp hscan
  refine ⟨hresult, fun pushdown => ?_⟩
  have hfetch : ∀ first ∈ elements.head?, ∃ response,
      (⟨pushdown, documents.map storedOf⟩ : Collection).fetcher 0 (.filtered
        (widenComparison op (.attrs c) (valuesAt [.ofJson first] k))) = .ok response ∧
      response.results = (elements.head?.map (matching op c k documents)).getD [] := by
    intro first hfirst
    have hmem := List.mem_of_mem_head? hfirst
    obtain ⟨response, hresponse, hfound⟩ := fetch_comparison_alone hdocuments hop hc hplain hk
      (hjson first hmem) (heval first hmem) pushdown
    refine ⟨response, Pushdown.fetcher_eq_ok hresponse 0, ?_⟩
    rw [hfound, Option.mem_def.mp hfirst]
    rfl
  have hcollection := (result_elements_found _ hop hk hplan hlocal helements hfetch).mpr
    ⟨fun e he d hd => heval e he d ?_, rfl⟩
  · refine ⟨_, ofDocuments_eq hdocuments hdistinct pushdown, hcollection, ?_⟩
    rw [hcollection, hresult, Except.ok.injEq]
    cases hhead : elements.head? with
    | none =>
      rw [List.head?_eq_none_iff.mp hhead]
      simp
    | some first =>
      simp only [Option.map_some, Option.getD_some, Option.mem_def, Option.some.injEq, forall_eq']
      constructor
      · intro h e he
        refine (matching_matching first e).mp ?_
        refine (List.filter_sublist.filter _).eq_of_length ?_
        exact length_matching_of_toJson h e he
      · intro h
        refine congrArg (fun vs => (Value.array vs).toJson) (List.map_congr_left fun e he => ?_)
        rw [elementHits, elementHits, (matching_matching first e).mpr (h e he)]
  · cases hhead : elements.head? with
    | none =>
      rw [hhead] at hd
      exact absurd hd List.not_mem_nil
    | some first =>
      rw [hhead] at hd
      exact (List.mem_filter.mp hd).1

/-- Two lists of numbers, of which the second is part of the first. -/
theorem result_elements_member :
    ∃ (q : Query) (documents elements : List Json), elements = [.obj [("k", .arr [.int 1, .int 2])],
        .obj [("k", .arr [.int 2])]] ∧
      q.operation = .ok (.pipe [.literal (.array (elements.map .ofJson)),
        .filter (.literal (.bool true)), .joined "hit" 1 (comparison .member ["c"] ["k"]) none] none) ∧
      documents = [.obj [("_id", .str "a"), ("c", .int 1)], .obj [("_id", .str "b"), ("c", .int 2)],
        .obj [("_id", .str "d"), ("c", .int 3)]] ∧
      ∀ pushdown, ∃ c, ofDocuments pushdown documents = .ok c ∧
        q.result c.fetcher = .ok (.arr [
          .obj [("hit", .arr [.obj [("_id", .str "a"), ("c", .int 1)],
            .obj [("_id", .str "b"), ("c", .int 2)]])],
          .obj [("hit", .arr [.obj [("_id", .str "b"), ("c", .int 2)]])]]) := by
  let elements : List Json := [.obj [("k", .arr [.int 1, .int 2])], .obj [("k", .arr [.int 2])]]
  let documents : List Json := [.obj [("_id", .str "a"), ("c", .int 1)],
    .obj [("_id", .str "b"), ("c", .int 2)], .obj [("_id", .str "d"), ("c", .int 3)]]
  let q : Query := ⟨.pipe (.pipe (.param "a") (.constraint none)) (.object [.binary .colon
    (.string "hit") (.filtered (.binary .member (.attr "c") (.dot .parent (.attr "k"))))]),
    [("a", .arr elements)], none⟩
  have hplan : q.operation = .ok (.pipe [.literal (.array (elements.map .ofJson)),
      .filter (.literal (.bool true)), .joined "hit" 1 (comparison .member ["c"] ["k"]) none]
        none) := by
    with_unfolding_all rfl
  have hdocuments : ∀ d ∈ documents, IsDocument d := by decide
  refine ⟨q, documents, elements, rfl, hplan, rfl, fun pushdown => ?_⟩
  obtain ⟨c, hc, -, hiff⟩ := (result_elements hdocuments (by decide) (.inr rfl)
    (by decide) (by decide) (by decide) hplan rfl rfl (by decide)
    (by with_unfolding_all rfl)).2 pushdown
  refine ⟨c, hc, hiff.mpr ?_⟩
  -- what is in the second list is in the first one
  have hfirst : matching .member ["c"] ["k"] documents (.obj [("k", .arr [.int 1, .int 2])]) =
      [.obj [("_id", .str "a"), ("c", .int 1)], .obj [("_id", .str "b"), ("c", .int 2)]] := by
    with_unfolding_all rfl
  have hsecond : matching .member ["c"] ["k"] documents (.obj [("k", .arr [.int 2])]) =
      [.obj [("_id", .str "b"), ("c", .int 2)]] := by
    with_unfolding_all rfl
  intro first hhead e he d hd
  cases hhead
  rcases List.mem_cons.mp he with rfl | he
  · exact hd
  · rw [List.mem_singleton.mp he, hsecond] at hd
    rw [hfirst]
    exact List.mem_cons_of_mem _ hd

/-- The second element finds nothing, for its document does not match the first one. -/
theorem result_elements_missed :
    ∃ (q : Query) (documents elements : List Json) (c : Collection),
      elements = [.obj [("k", .int 1)], .obj [("k", .int 2)]] ∧
      q.operation = .ok (.pipe [.literal (.array (elements.map .ofJson)),
        .filter (.literal (.bool true)), .joined "hit" 1 (comparison .eq ["c"] ["k"]) none] none) ∧
      documents = [.obj [("_id", .str "d1"), ("c", .int 1)],
        .obj [("_id", .str "d2"), ("c", .int 2)]] ∧ DistinctIds documents ∧
      ofDocuments true documents = .ok c ∧
      q.result (.fullScan documents) = .ok (.arr [
        .obj [("hit", .arr [.obj [("_id", .str "d1"), ("c", .int 1)]])],
        .obj [("hit", .arr [.obj [("_id", .str "d2"), ("c", .int 2)]])]]) ∧
      q.result c.fetcher = .ok (.arr [
        .obj [("hit", .arr [.obj [("_id", .str "d1"), ("c", .int 1)]])],
        .obj [("hit", .arr [])]]) := by
  refine ⟨⟨.pipe (.pipe (.param "a") (.constraint none)) (.object [.binary .colon
    (.string "hit") (.filtered (.binary .equals (.attr "c") (.dot .parent (.attr "k"))))]),
    [("a", .arr [.obj [("k", .int 1)], .obj [("k", .int 2)]])], none⟩, _, _, _, rfl,
    by with_unfolding_all rfl, rfl, by decide, rfl, ?_, ?_⟩
  · with_unfolding_all rfl
  · with_unfolding_all rfl

end Query
end DocQuery
