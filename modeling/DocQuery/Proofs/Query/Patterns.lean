import DocQuery.Proofs.Query.Elements
import DocQuery.Proofs.Store.Inserts
import DocQuery.Proofs.Text.Dotted

/-!
# Joins with path patterns

A query can make path patterns of its own and look for the documents whose id lies in one of them:
`{"p": path(t)} | {"hit": *[_id in ^.p]}`. For the engine a pattern that is read from the enclosing
value is a pattern. For what is fetched it becomes a literal of the widened filter, and **a store
reads a path pattern among its literals as its text** (`Patterns.ofFilter_widened`). So a collection
gives the documents that have the text of a pattern for their id (`Patterns.fetch_widened`), and
those that merely lie in a pattern are lost (`Query.result_patterns`).
-/

set_option autoImplicit false

namespace DocQuery

open Operation Engine

/-! ## One value -/

namespace Query

open Join Local

variable {q : Query} {o : Operation} {op : BinaryOp} {c k : List String} {id : SourceId}
  {hit : String} {label name : Option String} {result : Json} {v : Value}

/-- Behind a value that needs nothing fetched, a projection runs in the scope of the value. -/
theorem yields_pipe_single {fetcher : Fetcher} {members : List Member} {r : Scoped} {τ : Session}
    (hlocal : o.isLocal = true) (hvalue : eval o (.object []) = .ok v) :
    (exec fetcher (.pipe [o, .object members] name) .root).Yields .empty r τ ↔
      (exec fetcher (.object members) (scopeOf o .root v)).Yields .empty r τ := by
  have hstage : applyStages fetcher [.object members] (.one (scopeOf o .root v)) .root =
      exec fetcher (.object members) (scopeOf o .root v) := by
    rw [applyStages_cons]
    exact bind_pure _
  rw [yields_pipe, yields_run_value hlocal, ← hstage]
  constructor
  · rintro ⟨w, hw, hrest⟩
    cases hw.symm.trans hvalue
    exact hrest
  · exact fun hrest => ⟨v, hvalue, hrest⟩

/-- A value looks among what is fetched for it. -/
theorem result_single {fetcher : Fetcher} {found : List Json} (hop : op = .eq ∨ op = .member)
    (hk : k ≠ [])
    (hplan : q.operation = .ok (.pipe [o, .joined hit id (comparison op c k) label] name))
    (hlocal : o.isLocal = true) (hvalue : eval o (.object []) = .ok v)
    (hfetch : ∃ response, fetcher 0 (.filtered
      (widenComparison op (.attrs c) (valuesAt [v] k))) = .ok response ∧
        response.results = found) :
    q.result fetcher = .ok result ↔
      (∀ d ∈ found, ∃ w, Correlated.eval v (comparison op c k) (.ofJson d) = .ok w) ∧
      result = (Correlated.hits hit (comparison op c k) (found.map .ofJson) v).toJson := by
  obtain ⟨response, hresponse, rfl⟩ := hfetch
  let s : Scope := scopeOf o .root v
  have hs : s.value = v := value_scopeOf hlocal hvalue
  have hfinish := @yields_finish_alone op c k hop hk s .empty (source_scopeOf rfl hlocal)
  rw [hs] at hfinish
  have hjoined := @Correlated.exists_joined_iff_found fetcher s .empty (comparison op c k) id hit
    label _ response (fun w => result = w.toJson) rfl hfinish hresponse within_comparison
  rw [hs, List.forall_mem_map] at hjoined
  rw [result_eq_ok hplan, ← hjoined]
  simp only [Operation.joined, yields_pipe_single hlocal hvalue]
  exact Iff.rfl

/-! ## Path patterns -/

/-- The path patterns that a query makes: a single one or an array of them. -/
inductive Patterns where
  | one (text : String)
  | many (texts : List String)

namespace Patterns

/-- The texts that the patterns are made from. -/
def texts : Patterns → List String
  | one t => [t]
  | many ts => ts

/-- `path(t)`. -/
def pathNode (t : String) : Node := .functionCall "path" [.string t]

def pathCall (t : String) : Operation := .call .path [.literal (.string t)]

def node : Patterns → Node
  | one t => pathNode t
  | many ts => .array (ts.map pathNode)

def operation : Patterns → Operation
  | one t => pathCall t
  | many ts => .array (ts.map pathCall)

def value : Patterns → Value
  | one t => .path (.parse t)
  | many ts => .array (ts.map fun t => .path (.parse t))

variable (p : Patterns)

/-- The query `{"p": …} | {"hit": *[_id in ^.p]}`. -/
def query : Query where
  tree := .pipe (.object [.binary .colon (.string "p") p.node])
    (.object [.binary .colon (.string "hit")
      (.filtered (.binary .member (.attr "_id") (.dot .parent (.attr "p"))))])
  params := []
  globalFilter := none

/-- Whether the id of a document lies in one of the patterns. -/
def contains (document : Json) : Bool :=
  (Collection.stringId? document).any fun id =>
    p.texts.any fun t => (Path.parse t).contains (Path.parse id)

/-- Whether the id of a document is the text of one of the patterns. -/
def spells (document : Json) : Bool := (Collection.stringId? document).any p.texts.contains

/-- The result with the documents that are found. -/
def answer (found : List Json) : Json := (Value.object [("hit", .array (found.map .ofJson))]).toJson

/-! ### Making them -/

theorem compose_node : Planner.compose [] p.node = pure p.operation := by
  have hall (ts : List String) :
      Planner.composeAll [] (ts.map pathNode) = pure (ts.map pathCall) := by
    induction ts with
    | nil => rw [List.map_nil, Planner.composeAll, List.map_nil]
    | cons t ts ih =>
      rw [List.map_cons, Planner.composeAll, ih]
      rfl
  cases p with
  | one t => rfl
  | many ts =>
    rw [node, Planner.compose, hall]
    rfl

theorem operation_query : p.query.operation = .ok (.pipe [.object [.assignment "p" p.operation],
    .joined "hit" 1 (comparison .member ["_id"] ["p"]) none] none) := by
  unfold query Query.operation plan
  simp only [Planner.compose, Planner.composeAll, compose_node]
  rfl

theorem isLocal_operation : p.operation.isLocal = true := by
  cases p with
  | one t => rfl
  | many ts =>
    show allLocal (ts.map pathCall) = true
    induction ts with
    | nil => rfl
    | cons t ts ih => exact ih

theorem eval_operation (v : Value) : eval p.operation v = .ok p.value := by
  cases p with
  | one t => rfl
  | many ts =>
    have hall : evalAll (ts.map pathCall) v = .ok (ts.map fun t => .path (.parse t)) := by
      induction ts with
      | nil => rfl
      | cons t ts ih =>
        rw [List.map_cons, evalAll, ih]
        rfl
    rw [operation, eval, hall]
    rfl

theorem eval_object (v : Value) :
    eval (.object [.assignment "p" p.operation]) v = .ok (.object [("p", p.value)]) := by
  rw [eval, evalMembers, eval_operation]
  cases p <;> rfl

theorem isLocal_object : (Operation.object [.assignment "p" p.operation]).isLocal = true := by
  rw [isLocal, membersLocal, isLocal_operation]
  rfl

/-! ### Looking in them -/

/-- A text is equal to no path, so it is found among paths only where it lies in one. -/
theorem inItems_paths (id : String) (ts : List String) :
    Operator.inItems (.string id) (ts.map fun t => .path (.parse t)) =
      .ok (ts.any fun t => (Path.parse t).contains (Path.parse id)) := by
  induction ts with
  | nil => rfl
  | cons t ts ih =>
    have hne : (Value.string id).looseEq (.path (.parse t)) = false := rfl
    have hpattern : Operator.inPattern (.parse t) (.string id) =
        .ok ((Path.parse t).contains (Path.parse id)) := rfl
    rw [List.map_cons, Operator.inItems.eq_def, List.any_cons]
    dsimp only
    rw [hne, hpattern, ih]
    cases (Path.parse t).contains (Path.parse id) <;> rfl

theorem membership_value (id : String) : Operator.membership (.string id) p.value =
    .ok (.bool (p.texts.any fun t => (Path.parse t).contains (Path.parse id))) := by
  cases p with
  | one t =>
    show Except.ok (Value.bool ((Path.parse t).contains (Path.parse id))) = _
    rw [texts, List.any_cons, List.any_nil, Bool.or_false]
  | many ts =>
    show (Operator.inItems (.string id) _).map Value.bool = _
    rw [inItems_paths]
    rfl

theorem follow_id {document : Json} {id : String} (h : Collection.stringId? document = some id) :
    (Value.ofJson document).follow ["_id"] = .string id := by
  show (Value.ofJson? (some document)).getD "_id" = _
  rw [Value.getD_ofJson?, Option.bind_some, Collection.get?_of_stringId? h]
  rfl

/-- The filter that the documents are fetched by. -/
def widened : Operation :=
  widenComparison .member (attrs ["_id"]) (valuesAt [.object [("p", p.value)]] ["p"])

/-- **Among the documents that are fetched for them, the patterns find those they contain.** -/
theorem result_found {fetcher : Fetcher} {found : List Json}
    (hids : ∀ d ∈ found, (Collection.stringId? d).isSome = true)
    (hfetch : ∃ response, fetcher 0 (.filtered p.widened) = .ok response ∧
      response.results = found) :
    p.query.result fetcher = .ok (answer (found.filter p.contains)) := by
  have heval : ∀ d ∈ found, Correlated.eval (.object [("p", p.value)])
      (comparison .member ["_id"] ["p"]) (.ofJson d) = .ok (.bool (p.contains d)) := by
    intro d hd
    obtain ⟨id, hid⟩ := Option.isSome_iff_exists.mp (hids d hd)
    rw [eval_comparison, follow_id hid, contains, hid]
    exact p.membership_value id
  have hfilter : (found.map Value.ofJson).filter (Correlated.holds (.object [("p", p.value)])
      (comparison .member ["_id"] ["p"])) = (found.filter p.contains).map .ofJson := by
    rw [List.filter_map]
    refine congrArg (List.map Value.ofJson) (List.filter_congr fun d hd => ?_)
    exact Correlated.holds_eq (heval d hd)
  refine (result_single (.inr rfl) (List.cons_ne_nil _ _) p.operation_query p.isLocal_object
    (p.eval_object _) hfetch).mpr ⟨fun d hd => ⟨_, heval d hd⟩, ?_⟩
  rw [Correlated.hits, hfilter, answer]

/-! ### What a store makes of them -/

open Clause Collection

/-- A store reads the values that a field may have as their JSON. -/
theorem ofFilter_items {lhs : Operation} {field : String}
    (hlhs : Operand.ofOperation lhs = .field field) {items items' : List Value}
    (h : items.map Value.toJson = items'.map Value.toJson) :
    ofFilter (widenMember lhs [.array items]) = ofFilter (widenMember lhs [.array items']) := by
  have hread : ∀ items : List Value, ofFilter (widenMember lhs [.array items]) =
      .ok (if (items.map Value.toJson).isEmpty then .const false
        else exactly (on field (on "$in" (.arr (items.map Value.toJson))))) := by
    intro items
    have hspread : [Value.array items].flatMap spread = items := by
      rw [List.flatMap_singleton, spread]
    rw [widenMember, hspread]
    cases items with
    | nil => rfl
    | cons item items =>
      show Except.ok (memberOf lhs (.literal (.array (item :: items)))) = _
      unfold memberOf
      rw [hlhs]
      rfl
  rw [hread, hread, h]

/-- An object that has the texts in the place of the patterns. -/
def textObject : Json := .obj [("p", .arr (p.texts.map .str))]

/-- **A store reads a path pattern as its text.** -/
theorem ofFilter_widened : ofFilter p.widened = ofFilter (widenComparison .member (attrs ["_id"])
    (valuesAt [.ofJson p.textObject] ["p"])) := by
  have hpaths : p.widened = widenMember (attrs ["_id"])
      [.array (p.texts.map fun t => .path (.parse t))] := by
    cases p <;> rfl
  have htexts : widenComparison .member (attrs ["_id"]) (valuesAt [.ofJson p.textObject] ["p"]) =
      widenMember (attrs ["_id"]) [.array (Value.ofItems (p.texts.map .str))] := rfl
  rw [hpaths, htexts, Value.ofItems_eq_map]
  refine ofFilter_items Pushdown.operand_id ?_
  rw [List.map_map, List.map_map, List.map_map]
  exact List.map_congr_left fun t _ => congrArg Json.str (Path.text_parse t)

theorem membership_texts (id : String) (ts : List String) :
    Operator.membership (.string id) (.array (ts.map .string)) = .ok (.bool (ts.contains id)) := by
  have hitems : Operator.inItems (.string id) (ts.map .string) =
      .ok ((ts.map .string).any (Value.string id).looseEq) := by
    refine Operator.inItems_eq_any fun c hc p => ?_
    obtain ⟨t, -, rfl⟩ := List.mem_map.mp hc
    exact nofun
  show (Operator.inItems (.string id) (ts.map .string)).map Value.bool = _
  rw [hitems, List.any_map, List.contains_eq_any_beq]
  rfl

/-- The texts are for the ids to be equal to. -/
theorem eval_textObject {document : Json} {id : String} (h : stringId? document = some id) :
    Correlated.eval (.ofJson p.textObject) (comparison .member ["_id"] ["p"]) (.ofJson document) =
      .ok (.bool (p.spells document)) := by
  have htexts : (Value.ofJson p.textObject).follow ["p"] = .array (p.texts.map .string) := by
    show Value.array (Value.ofItems (p.texts.map .str)) = _
    rw [Value.ofItems_eq_map, List.map_map]
    rfl
  rw [eval_comparison, follow_id h, htexts, spells, h]
  exact membership_texts id p.texts

theorem isJson_textObject : (Value.ofJson p.textObject).isJson = true := by
  have htexts : Value.allJson (Value.ofItems (p.texts.map .str)) = true := by
    rw [Value.ofItems_eq_map, List.map_map]
    refine Value.allJson_of_forall fun v hv => ?_
    obtain ⟨t, -, rfl⟩ := List.mem_map.mp hv
    rfl
  exact Bool.and_eq_true_iff.mpr ⟨htexts, rfl⟩

/-- **A collection gives for path patterns the documents whose ids are their texts.** -/
theorem fetch_widened {documents : List Json} (hdocuments : ∀ d ∈ documents, IsDocument d)
    (hids : ∀ d ∈ documents, (stringId? d).isSome = true) (pushdown : Bool) :
    ∃ response, (⟨pushdown, documents.map storedOf⟩ : Collection).fetch (.filtered p.widened) =
      .ok response ∧ response.results = documents.filter p.spells := by
  have heval : ∀ d ∈ documents, Correlated.eval (.ofJson p.textObject)
      (comparison .member ["_id"] ["p"]) (.ofJson d) = .ok (.bool (p.spells d)) := by
    intro d hd
    obtain ⟨id, hid⟩ := Option.isSome_iff_exists.mp (hids d hd)
    exact p.eval_textObject hid
  have hplain : isPlainPath ["_id"] = true := by decide
  obtain ⟨response, hresponse, hresults⟩ := fetch_comparison_alone hdocuments (.inr rfl)
    (List.cons_ne_nil _ _) hplain (List.cons_ne_nil _ _) p.isJson_textObject
    (fun d hd => ⟨_, heval d hd⟩) pushdown
  refine ⟨response, (Pushdown.fetch_congr p.ofFilter_widened _).trans hresponse, hresults.trans ?_⟩
  refine List.filter_congr fun d hd => ?_
  rw [← holds_comparison]
  exact Correlated.holds_eq (heval d hd)

theorem length_of_answer {found found' : List Json} (h : answer found = answer found') :
    found.length = found'.length := by
  simp only [answer, Value.toJson, Value.toFields, Value.toItems_eq_map, Json.obj.injEq,
    List.cons.injEq, Prod.mk.injEq, Json.arr.injEq, and_true, true_and] at h
  simpa using congrArg List.length h

theorem contains_bare : p.contains ∘ bare = p.contains :=
  funext fun d => by rw [Function.comp_apply, contains, stringId?_bare, ← contains]

theorem spells_bare : p.spells ∘ bare = p.spells :=
  funext fun d => by rw [Function.comp_apply, spells, stringId?_bare, ← spells]

/-- What is in the store's own field of the documents makes no difference. -/
theorem fetch_bare {documents : List Json} (hobjects : ∀ d ∈ documents, ∃ fields, d = .obj fields)
    (hids : ∀ d ∈ documents, (stringId? d).isSome = true) (pushdown : Bool) :
    ∃ response, (⟨pushdown, documents.map storedOf⟩ : Collection).fetch (.filtered p.widened) =
      .ok response ∧ response.results = (documents.filter p.spells).map bare := by
  have hstored : documents.map storedOf = (documents.map bare).map storedOf := by
    rw [List.map_map]
    exact List.map_congr_left fun d _ => (storedOf_bare d).symm
  have hfilter : (documents.map bare).filter p.spells = (documents.filter p.spells).map bare := by
    rw [List.filter_map, p.spells_bare]
  rw [hstored, ← hfilter]
  refine p.fetch_widened (List.forall_mem_map.mpr fun d hd => ?_)
    (List.forall_mem_map.mpr fun d hd => ?_) pushdown
  · obtain ⟨fields, rfl⟩ := hobjects d hd
    exact isDocument_bare fields
  · rw [stringId?_bare]
    exact hids d hd

end Patterns

open Collection in
/-- **A collection mistakes path patterns for their texts.** For patterns that the query has made,
the full scan finds the documents whose ids lie in one of them. A collection finds, among these,
just those whose id is the text of a pattern. So both give the same documents exactly when each
document that lies in a pattern is spelled like one. -/
theorem result_patterns (p : Patterns) {documents : List Json}
    (hobjects : ∀ d ∈ documents, ∃ fields, d = .obj fields)
    (hids : ∀ d ∈ documents, (stringId? d).isSome = true)
    (hdistinct : (documents.map stringId?).Nodup) :
    p.query.result (.fullScan documents) = .ok (Patterns.answer (documents.filter p.contains)) ∧
    ∀ pushdown, ∃ collection, ofDocuments pushdown documents = .ok collection ∧
      p.query.result collection.fetcher = .ok (Patterns.answer
        (((documents.filter p.contains).filter p.spells).map bare)) ∧
      ((∀ d ∈ documents, IsDocument d) →
        (p.query.result collection.fetcher = p.query.result (.fullScan documents) ↔
          ∀ d ∈ documents, p.contains d = true → p.spells d = true)) := by
  have hscan : p.query.result (.fullScan documents) =
      .ok (Patterns.answer (documents.filter p.contains)) :=
    p.result_found hids ⟨_, rfl, rfl⟩
  have hids' := distinctIds_of_nodup hdistinct
  refine ⟨hscan, fun pushdown => ⟨_, ofDocuments_objects hobjects hids' pushdown, ?_⟩⟩
  have hcollection : p.query.result (⟨pushdown, documents.map storedOf⟩ : Collection).fetcher =
      .ok (Patterns.answer (((documents.filter p.contains).filter p.spells).map bare)) := by
    obtain ⟨response, hresponse, hresults⟩ := p.fetch_bare hobjects hids pushdown
    have hfound : ∀ d ∈ (documents.filter p.spells).map bare, (stringId? d).isSome = true := by
      intro d hd
      obtain ⟨e, he, rfl⟩ := List.mem_map.mp hd
      rw [stringId?_bare]
      exact hids e (List.mem_filter.mp he).1
    rw [p.result_found hfound ⟨response, Pushdown.fetcher_eq_ok hresponse 0, hresults⟩,
      List.filter_map, p.contains_bare, Sorting.filter_comm]
  refine ⟨hcollection, fun hdocuments => ?_⟩
  have hbare : ((documents.filter p.contains).filter p.spells).map bare =
      (documents.filter p.contains).filter p.spells := by
    refine (List.map_congr_left fun d hd => ?_).trans (List.map_id _)
    exact bare_eq_self (hdocuments d (List.mem_filter.mp (List.mem_filter.mp hd).1).1)
  rw [hcollection, hscan, hbare, Except.ok.injEq]
  constructor
  · intro h d hd hcontains
    have hlength := List.length_filter_eq_length_iff.mp (Patterns.length_of_answer h)
    exact hlength d (List.mem_filter.mpr ⟨hd, hcontains⟩)
  · intro h
    rw [List.filter_eq_self.mpr fun d hd =>
      h d (List.mem_filter.mp hd).1 (List.mem_filter.mp hd).2]

/-- A document that is spelled like the pattern it lies in is found by both. -/
theorem result_patterns_spelled : ∃ (p : Patterns) (documents : List Json),
    p = .many ["a.**", "b"] ∧
    documents = [.obj [("_id", .str "a.**")], .obj [("_id", .str "b")]] ∧
    p.query.result (.fullScan documents) =
      .ok (.obj [("hit", .arr [.obj [("_id", .str "a.**")]])]) ∧
    ∀ pushdown, ∃ c, Collection.ofDocuments pushdown documents = .ok c ∧
      p.query.result c.fetcher = .ok (.obj [("hit", .arr [.obj [("_id", .str "a.**")]])]) := by
  let p : Patterns := .many ["a.**", "b"]
  let documents : List Json := [.obj [("_id", .str "a.**")], .obj [("_id", .str "b")]]
  have hdocuments : ∀ d ∈ documents, Collection.IsDocument d := by decide
  have hspelled : ∀ d ∈ documents, p.contains d = true → p.spells d = true := by decide
  have hanswer : Patterns.answer (documents.filter p.contains) =
      .obj [("hit", .arr [.obj [("_id", .str "a.**")]])] := by
    with_unfolding_all rfl
  obtain ⟨hscan, hcollections⟩ := result_patterns p (fun d hd => (hdocuments d hd).isObject)
    (by decide) (by decide)
  rw [hanswer] at hscan
  refine ⟨p, documents, rfl, rfl, hscan, fun pushdown => ?_⟩
  obtain ⟨c, hc, -, hiff⟩ := hcollections pushdown
  exact ⟨c, hc, ((hiff hdocuments).mpr hspelled).trans hscan⟩

/-- A document that lies in the pattern is lost over a collection. -/
theorem result_patterns_lost :
    ∃ c, Collection.ofDocuments true [.obj [("_id", .str "a.x")], .obj [("_id", .str "b")]] = .ok c ∧
      (Patterns.one "a.*").query.result
          (.fullScan [.obj [("_id", .str "a.x")], .obj [("_id", .str "b")]]) =
        .ok (.obj [("hit", .arr [.obj [("_id", .str "a.x")]])]) ∧
      (Patterns.one "a.*").query.result c.fetcher = .ok (.obj [("hit", .arr [])]) :=
  ⟨_, rfl, by with_unfolding_all rfl, by with_unfolding_all rfl⟩

end Query
end DocQuery
