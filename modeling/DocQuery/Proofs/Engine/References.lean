import DocQuery.Proofs.Engine.Stages
import DocQuery.Proofs.Fetch.Window
import DocQuery.Proofs.Value.References

/-!
# Following references

What the two pipelines do that references are planned as. A reference at the end of a path is
followed with a filter behind a source: over a source that is at hand that gives the document found
in it (`yields_single`); before that it is fetched, for all the documents around at once, by the ids
that the path leads to in any of them (`yields_fetch_referred`). All other references are followed
with a join, which is fetched by the ids that its inner pipeline gives (`yields_compileStages_join`).
-/

set_option autoImplicit false

namespace DocQuery

/-! ## Accessors -/

namespace Operation

/-- An accessor of attributes. -/
def attrs (path : List String) : Operation := .accessor (path.map .attr)

theorem attributeNames?_map (path : List String) :
    attributeNames? (path.map .attr) = some path := by
  induction path with
  | nil => rfl
  | cons name path ih => simp [attributeNames?, ih]

theorem isLocal_attrs (path : List String) : (attrs path).isLocal = true := by
  simp [attrs, isLocal, attributeNames?_map]

end Operation

theorem Scope.value_resolve_attrs (s : Scope) (path : List String) :
    (s.resolve (path.map .attr)).value = s.value.follow path :=
  s.value_resolve (Operation.attributeNames?_map path)

theorem Value.follow_flatten (v : Value) (paths : List (List String)) :
    v.follow paths.flatten = paths.foldl Value.follow v := by
  rw [Value.follow, List.foldl_flatten]
  rfl

namespace Local

open Operation

theorem eval_attrs (path : List String) (v : Value) :
    eval (attrs path) v = .ok (v.follow path) := by
  rw [attrs, eval, attributeNames?_map]
  rfl

theorem value_mapped_attrs (path : List String) (s : Scope) :
    (mapped (attrs path) s).value = s.value.follow path := by
  rw [mapped_eq (eval_attrs path s.value)]
  exact s.value_resolve_attrs path

/-- Accessors behind a single value. -/
theorem steps_attrs_one (paths : List (List String)) (s : Scope) :
    ∃ t, Steps (paths.map attrs) (.one s) (.one t) ∧ t.value = s.value.follow paths.flatten := by
  induction paths generalizing s with
  | nil => exact ⟨s, rfl, rfl⟩
  | cons path paths ih =>
    obtain ⟨t, hsteps, ht⟩ := ih (mapped (attrs path) s)
    refine ⟨t, ⟨_, (step_one rfl).mpr ⟨?_, rfl⟩, hsteps⟩, ?_⟩
    · intro u hu
      exact ⟨_, eval_attrs path u.value⟩
    · rw [ht, value_mapped_attrs, Value.follow_flatten, Value.follow_flatten]
      rfl

/-- Accessors behind several values. -/
theorem steps_attrs_many (paths : List (List String)) (items : List Scope) (start : Nat) :
    ∃ items', Steps (paths.map attrs) (.many items start) (.many items' start) ∧
      items'.map (·.value) = items.map (·.value.follow paths.flatten) := by
  induction paths generalizing items with
  | nil => exact ⟨items, rfl, rfl⟩
  | cons path paths ih =>
    obtain ⟨items', hsteps, hitems⟩ := ih (items.map (mapped (attrs path)))
    refine ⟨items', ⟨_, (step_many rfl).mpr ⟨?_, rfl⟩, hsteps⟩, ?_⟩
    · intro u hu
      exact ⟨_, eval_attrs path u.value⟩
    · rw [hitems, List.map_map]
      refine List.map_congr_left fun s _ => ?_
      show (mapped (attrs path) s).value.follow _ = _
      rw [value_mapped_attrs, Value.follow_flatten, Value.follow_flatten]
      rfl

theorem isLocalStage_attrs (paths : List (List String)) :
    ∀ stage ∈ paths.map attrs, stage.isLocalStage = true := by
  intro stage hstage
  obtain ⟨path, -, rfl⟩ := List.mem_map.mp hstage
  exact isLocal_attrs path

/-- A path reshapes values, so nothing behind it is asked for. -/
theorem filter_ofStages_attrs_cons (path : List String) (rest : List Operation) :
    (FetchSpec.ofStages (attrs path :: rest)).filter = none :=
  (FetchSpec.isWindow_project (FetchSpec.ofStages rest)).filter

theorem filter_ofStages_attrs (paths : List (List String)) :
    (FetchSpec.ofStages (paths.map attrs)).filter = none := by
  cases paths with
  | nil => rfl
  | cons path paths => exact filter_ofStages_attrs_cons path _

theorem isFoldable_attrs (paths : List (List String)) :
    ∀ stage ∈ paths.map attrs, isFoldable stage = true :=
  fun stage hstage => isFoldable_of_isLocalStage (isLocalStage_attrs paths stage hstage)

end Local

/-! ## The pipelines -/

namespace Operation

/-- The reference at the end of a path, from inside the source that it is looked for in. -/
def reference (path : List String) : Operation :=
  .accessor (.parent :: path.map .attr ++ [.attr "_ref"])

/-- The first document with the id of a reference. -/
def isReferred (path : List String) : Operation := .binary .eq (reference path) (.attr "_id")

/-- The stages behind the source of a reference: the document, and others behind it. -/
def referred (path : List String) (rest : List Operation) : List Operation :=
  .filter (isReferred path) :: .subscript ⟨0, 1, true⟩ :: rest

/-- The document, and what paths lead to in it. -/
def single (path : List String) (paths : List (List String)) : List Operation :=
  referred path (paths.map attrs)

end Operation

namespace Engine

open Run Local Operation

variable {fetcher : Fetcher} {σ τ : Session} {s t : Scope} {r : Scoped} {input : Scoped}
  {base : Scope} {rest : List Operation}

theorem yields_applyStages_filter {condition : Operation} :
    (applyStages fetcher (.filter condition :: rest) input base).Yields σ r τ ↔
      ∃ next ρ, (filterScopes (fun s => exec fetcher condition s) input).Yields σ next ρ ∧
        (applyStages fetcher rest next base).Yields ρ r τ := by
  rw [applyStages_cons]
  exact yields_bind

theorem yields_applyStages_mapJoin {stages : List Operation} :
    (applyStages fetcher (.mapJoin stages :: rest) input base).Yields σ r τ ↔
      ∃ ids ρ, (run fetcher stages base).Yields σ ids ρ ∧
        (applyStages fetcher rest ((input.joinOwner base).lookupAll ids.value) base).Yields
          ρ r τ := by
  rw [applyStages_cons]
  show (run fetcher stages base >>= fun ids =>
    pure ((input.joinOwner base).lookupAll ids.value) >>= fun next =>
      applyStages fetcher rest next base).Yields σ r τ ↔ _
  simp only [yields_bind, yields_pure]
  constructor
  · rintro ⟨ids, ρ, hids, _, _, ⟨rfl, rfl⟩, hrest⟩
    exact ⟨ids, _, hids, hrest⟩
  · rintro ⟨ids, ρ, hids, hrest⟩
    exact ⟨ids, ρ, hids, _, _, ⟨rfl, rfl⟩, hrest⟩

theorem yields_applyStages_object {members : List Member} :
    (applyStages fetcher (.object members :: rest) input base).Yields σ r τ ↔
      ∃ next ρ, (mapScopes (fun s => exec fetcher (.object members) s) input).Yields σ next ρ ∧
        (applyStages fetcher rest next base).Yields ρ r τ := by
  rw [applyStages_cons]
  exact yields_bind

/-- A map whose steps keep an invariant of the session, seen through a projection. -/
theorem yields_mapM_of {α β γ : Type} {f : α → Run β} {p : β → γ} {g : α → γ}
    {Inv : Session → Prop} {xs : List α}
    (h : ∀ x ∈ xs, ∀ σ, Inv σ → ∃ y τ, (f x).Yields σ y τ ∧ p y = g x ∧ Inv τ) (hσ : Inv σ) :
    ∃ ys τ, (xs.mapM f).Yields σ ys τ ∧ ys.map p = xs.map g ∧ Inv τ := by
  induction xs generalizing σ with
  | nil => exact ⟨[], σ, yields_pure.mpr ⟨rfl, rfl⟩, rfl, hσ⟩
  | cons x xs ih =>
    obtain ⟨y, ρ, hy, hp, hρ⟩ := h x List.mem_cons_self σ hσ
    obtain ⟨ys, τ, hys, hps, hτ⟩ := ih (fun z hz => h z (List.mem_cons_of_mem x hz)) hρ
    refine ⟨y :: ys, τ, ?_, ?_, hτ⟩
    · rw [List.mapM_cons]
      simp only [yields_bind, yields_pure]
      exact ⟨y, ρ, hy, ys, τ, hys, rfl, rfl⟩
    · rw [List.map_cons, List.map_cons, hp, hps]

/-- A filter whose condition reads and changes nothing of the session. -/
theorem yields_keepScopes_of {f : Scope → Run Scoped} {v : Scope → Value} {items : List Scope}
    (h : ∀ s ∈ items, ∃ r, (f s).Yields σ r σ ∧ r.value = v s) :
    (keepScopes f items).Yields σ (items.filter fun s => (v s).same (.bool true)) σ := by
  induction items with
  | nil => exact yields_pure.mpr ⟨rfl, rfl⟩
  | cons s items ih =>
    obtain ⟨r, hr, hv⟩ := h s List.mem_cons_self
    rw [keepScopes]
    simp only [yields_bind, yields_pure]
    refine ⟨r, σ, hr, _, σ, ih fun t ht => h t (List.mem_cons_of_mem s ht), ?_, rfl⟩
    rw [List.filter_cons, hv]

/-! ## References over a source at hand -/

theorem follow_append_ref (path : List String) (v : Value) :
    v.follow (path ++ ["_ref"]) = v.refAt path := by
  rw [Value.refAt, Value.follow, List.foldl_append]
  rfl

theorem value_resolve_reference (hparent : t.parent = some s) (hs : s.value.isNull = false)
    (path : List String) :
    (t.resolve (.parent :: path.map .attr ++ [.attr "_ref"])).value = s.value.refAt path := by
  have hsteps : path.map PathStep.attr ++ [.attr "_ref"] = (path ++ ["_ref"]).map .attr := by simp
  rw [List.cons_append, Scope.resolve, hparent]
  dsimp only
  rw [hs, hsteps, if_neg (by simp), Scope.value_resolve_attrs, follow_append_ref]

/-- Whether a document of the source is the one referred to. -/
theorem yields_isReferred (hparent : t.parent = some s) (hs : s.value.isNull = false)
    (path : List String) : ∃ r, (exec fetcher (isReferred path) t).Yields σ r σ ∧
      r.value = Operator.truth ((s.value.refAt path).equals (t.value.getD "_id")) := by
  refine ⟨_, yields_binary.mpr ⟨_, σ, _, _, yields_accessor.mpr ⟨rfl, rfl⟩,
    yields_accessor.mpr ⟨rfl, rfl⟩, rfl, rfl⟩, ?_⟩
  have hid : (t.resolve [.attr "_id"]).value = t.value.getD "_id" := t.value_resolve_attrs ["_id"]
  show Operator.truth ((t.resolve _).value.equals (t.resolve _).value) = _
  rw [value_resolve_reference hparent hs path, hid]

variable {id : SourceId} {found : List Value}

/-- A reference over its source. -/
theorem yields_single (hfound : σ.context.source? id = some ⟨found, 0⟩)
    (hs : s.value.isNull = false) (path : List String) (paths : List (List String)) :
    ∃ u, (run fetcher (.source id :: single path paths) s).Yields σ (.one u) σ ∧
      u.value = (Value.firstWithId found (s.value.refAt path)).follow paths.flatten := by
  have hzero : ((0 : Nat) : Int) ≤ maxInt64 := by decide
  let source := sourceScope id s ⟨found, 0⟩
  have hfilter := @yields_keepScopes_of σ (fun t => exec fetcher (isReferred path) t)
    (fun t => Operator.truth ((s.value.refAt path).equals (t.value.getD "_id")))
    (found.map source.element) fun t ht => by
      obtain ⟨d, -, rfl⟩ := List.mem_map.mp ht
      exact yields_isReferred rfl hs path
  have hkept : (found.map source.element).filter (fun t => (Operator.truth
      ((s.value.refAt path).equals (t.value.getD "_id"))).same (.bool true)) =
        (found.filter (Value.hasLooseId (s.value.refAt path))).map source.element := by
    rw [List.filter_map]
    refine congrArg (List.map source.element) (List.filter_congr fun d _ => ?_)
    exact (Operator.same_truth_equals _ _).trans (Value.looseEq_comm _ _).symm
  rw [hkept] at hfilter
  -- the first of those that are kept
  have hfirst : (Scoped.many ((found.filter (Value.hasLooseId (s.value.refAt path))).map
      source.element) 0).subscript ⟨0, 1, true⟩ =
        .one (((found.find? (Value.hasLooseId (s.value.refAt path))).map source.element).getD
          (.detached .null)) := by
    rw [Scoped.subscript_index hzero (by decide), if_neg (by decide)]
    rw [← List.head?_filter, ← List.head?_map, List.head?_eq_getElem?]
    rfl
  obtain ⟨u, hsteps, hu⟩ := steps_attrs_one paths
    (((found.find? (Value.hasLooseId (s.value.refAt path))).map source.element).getD
      (.detached .null))
  refine ⟨u, (yields_run_known hfound).mpr (yields_applyStages_filter.mpr
    ⟨.many ((found.filter (Value.hasLooseId (s.value.refAt path))).map source.element) 0, σ, ?_,
      (yields_applyStages ?_).mpr ⟨rfl, _, rfl, ?_⟩⟩), ?_⟩
  · exact yields_bind.mpr ⟨_, σ, hfilter, yields_pure.mpr ⟨rfl, rfl⟩⟩
  · intro stage hstage
    rcases List.mem_cons.mp hstage with rfl | hstage
    · rfl
    · exact isLocalStage_attrs paths stage hstage
  · rw [hfirst]
    exact hsteps
  · rw [hu]
    unfold Value.firstWithId
    cases found.find? (Value.hasLooseId (s.value.refAt path)) <;> rfl

theorem value_lookup (id : Value) (hs : s.value = .array found) :
    (s.lookup id).value = Value.firstWithId found id := by
  show (((s.value.asArray?.getD []).find? fun d => _).getD .null) = _
  rw [hs]
  unfold Value.firstWithId
  refine congrArg (fun p => (found.find? p).getD .null) (funext fun d => ?_)
  unfold Value.hasLooseId Value.getD
  cases d.get? "_id" <;> rfl

/-! ## What they fetch -/

variable {siblings : List Value} {response : FetchResponse} {spec spec' : FetchSpec}

/-- A pipeline that fetches its source runs on as it does with the source at hand. -/
theorem yields_run_of_fetched (hnew : σ.context.source? id = none)
    {ρ : Session} (hcompile : (compileStages fetcher rest s).Yields σ spec ρ)
    (hfinish : (finish s spec).Yields ρ spec' ρ)
    (hfetch : fetcher ρ.fetches.length spec' = .ok response)
    (hrun : (run fetcher (.source id :: rest) s).Yields (fetched ρ id spec' response) r τ) :
    (run fetcher (.source id :: rest) s).Yields σ r τ :=
  (yields_run_new hnew).mpr ⟨spec, spec', ρ, ρ, response, hcompile, hfinish, hfetch,
    (yields_run_known (source?_store _ _ _)).mp hrun⟩

/-- The documents fetched along with one, as the places where its values are looked for. -/
theorem siblings_eq {c : Context} {data : SourceData} (hsource : s.source = some id)
    (hdata : c.source? id = some data) (hcomputed : s.computed = false) (hpath : s.path = [])
    (hwhole : ∀ v ∈ data.documents, v.asArray? = none) :
    Join.siblings? c s = some data.documents := by
  unfold Join.siblings?
  rw [hsource, Option.bind_some, hdata]
  dsimp only
  rw [hcomputed, hpath]
  refine congrArg some ?_
  have hflat : ∀ vs : List Value, (∀ v ∈ vs, v.asArray? = none) →
      (vs.flatMap fun v => Join.spread (followPath v [])) = vs := by
    intro vs hvs
    induction vs with
    | nil => rfl
    | cons v vs ih =>
      have hv := hvs v List.mem_cons_self
      have hspread : Join.spread v = [v] := by
        cases v with
        | array items => cases hv
        | _ => rfl
      rw [List.flatMap_cons, ih fun w hw => hvs w (List.mem_cons_of_mem v hw)]
      show Join.spread v ++ vs = _
      rw [hspread]
      rfl
  exact hflat data.documents hwhole

/-- The ids that a reference has in any of the documents. -/
def wantedIds (path : List String) (siblings : List Value) : List Value :=
  (siblings.map (Value.refAt path)).filter (!·.isNull)

theorem joinValues_reference {c : Context} (hsiblings : Join.siblings? c s = some siblings)
    (path : List String) :
    Join.joinValues c s (reference path) = some (wantedIds path siblings) := by
  have hsteps : path.map PathStep.attr ++ [.attr "_ref"] = (path ++ ["_ref"]).map .attr := by simp
  have hvalues : Join.joinValues c s (reference path) =
      Join.valuesFrom c s (path.map .attr ++ [.attr "_ref"]) := by
    cases path <;> rfl
  rw [hvalues, Join.valuesFrom, hsiblings, hsteps]
  refine congrArg (fun vs : List Value => some (vs.filter (!·.isNull))) ?_
  refine List.map_congr_left fun v _ => ?_
  rw [Scope.value_resolve_attrs, follow_append_ref]
  rfl

/-- A reference is fetched for all documents at once, whatever is behind it. -/
theorem yields_fetch_referred (hnew : σ.context.source? id = none)
    (hsiblings : Join.siblings? σ.context s = some siblings) (path : List String)
    (hrest : ∀ stage ∈ rest, isFoldable stage = true)
    (hfetch : fetcher σ.fetches.length
      (.filtered (Join.widenEq (.attr "_id") (wantedIds path siblings))) = .ok response)
    (hrun : (run fetcher (.source id :: referred path rest) s).Yields
      (fetched σ id (.filtered (Join.widenEq (.attr "_id") (wantedIds path siblings))) response)
        r τ) :
    (run fetcher (.source id :: referred path rest) s).Yields σ r τ := by
  have hfoldable : ∀ stage ∈ referred path rest, isFoldable stage = true := by
    intro stage hstage
    rcases List.mem_cons.mp hstage with rfl | hstage
    · rfl
    rcases List.mem_cons.mp hstage with rfl | hstage
    · rfl
    · exact hrest stage hstage
  have hfilter : (FetchSpec.ofStages (referred path rest)).filter = some (isReferred path) := by
    show some _ = _
    rw [FetchSpec.ofStages, (FetchSpec.isWindow_applySubscript _ _).filter]
  have hwidened : ∀ ids, (Join.widenEq (.attr "_id") ids).same (isReferred path) = false := by
    intro ids
    rcases ids with _ | ⟨id, _ | ⟨other, ids⟩⟩
    · rfl
    · simp [Join.widenEq, isReferred, reference, Operation.same, Operation.attr]
    · rfl
  have hcompile : (compileStages fetcher (referred path rest) s).Yields σ
      (.ofStages (referred path rest)) σ := by
    rw [compileStages_eq hfoldable]
    exact yields_pure.mpr ⟨rfl, rfl⟩
  refine yields_run_of_fetched hnew hcompile ?_ hfetch hrun
  have hgeneralize : Join.generalize σ.context s (isReferred path) =
      .ok (some (Join.widenEq (.attr "_id") (wantedIds path siblings))) := by
    show Except.ok ((Join.joinValues σ.context s (reference path)).map _) = _
    rw [joinValues_reference hsiblings]
    rfl
  unfold finish
  rw [hfilter]
  show (Run.context >>= fun c =>
    Run.ofExcept (Join.generalize c s (isReferred path)) >>= _).Yields _ _ _
  simp only [yields_bind, yields_context]
  refine ⟨_, σ, ⟨rfl, rfl⟩, _, σ, yields_ofExcept.mpr ⟨hgeneralize, rfl⟩, ?_⟩
  dsimp only
  rw [hwidened]
  exact yields_pure.mpr ⟨rfl, rfl⟩

/-- A join is fetched by the ids that its inner pipeline finds for all documents at once, and by the
filter of what is behind it. -/
theorem yields_compileStages_join {inner : List Operation} {found : List Scoped} {ρ : Session}
    (hsiblings : Join.siblings? σ.context s = some siblings)
    (hrest : ∀ stage ∈ rest, isFoldable stage = true)
    (hfound : (siblings.mapM fun v => run fetcher inner (.detached v)).Yields σ found ρ) :
    (compileStages fetcher (.mapJoin inner :: rest) s).Yields σ
      (FetchSpec.applyFilter { FetchSpec.everything with filter := (FetchSpec.ofStages rest).filter }
        (idFilter (found.foldl (fun ids r => addIds ids (Join.spread r.value)) []))) ρ := by
  rw [compileStages, compileStages_eq hrest]
  simp only [yields_bind, yields_pure, yields_context]
  refine ⟨_, σ, ⟨rfl, rfl⟩, _, σ, ⟨rfl, rfl⟩, ?_⟩
  rw [hsiblings]
  simp only [yields_bind, yields_pure]
  exact ⟨found, ρ, hfound, rfl, rfl⟩

theorem yields_finish_ids (ids : List Value) :
    (finish s (.filtered (idFilter ids))).Yields σ (.filtered (idFilter ids)) σ := by
  refine (yields_finish fun filter hfilter => ?_).mpr ⟨?_, rfl⟩
  · cases hfilter
    rfl
  · show _ = if _ then _ else _
    split <;> rfl

/-! ## Which ids are wanted -/

theorem mem_addIds {ids vs : List Value} {id : Value} (h : id ∈ addIds ids vs) :
    id ∈ ids ∨ id ∈ vs ∧ id.isTruthy = true := by
  induction vs generalizing ids with
  | nil => exact .inl h
  | cons v vs ih =>
    rw [addIds] at h
    split at h
    · next hnew =>
      rw [Bool.and_eq_true] at hnew
      rcases ih h with h | ⟨h, htruthy⟩
      · rcases List.mem_append.mp h with h | h
        · exact .inl h
        · obtain rfl := List.mem_singleton.mp h
          exact .inr ⟨List.mem_cons_self, hnew.1⟩
      · exact .inr ⟨List.mem_cons_of_mem v h, htruthy⟩
    · rcases ih h with h | ⟨h, htruthy⟩
      · exact .inl h
      · exact .inr ⟨List.mem_cons_of_mem v h, htruthy⟩

/-- A text among the values becomes an id. -/
theorem mem_addIds_of_text {ids vs : List Value} {id : Value} (htext : id.isText = true)
    (h : id ∈ ids ∨ id ∈ vs) : id ∈ addIds ids vs := by
  induction vs generalizing ids with
  | nil => exact h.resolve_right List.not_mem_nil
  | cons v vs ih =>
    rw [addIds]
    split
    · refine ih ?_
      rcases h with h | h
      · exact .inl (List.mem_append_left _ h)
      · rcases List.mem_cons.mp h with rfl | h
        · exact .inl (List.mem_append_right _ List.mem_cons_self)
        · exact .inr h
    · next hold =>
      refine ih ?_
      rcases h with h | h
      · exact .inl h
      · rcases List.mem_cons.mp h with rfl | h
        · -- it is a text, so it was left out because it is an id already
          rw [Value.isTruthy_of_isText htext] at hold
          have hany : ids.any (·.same id) = true := by simpa using hold
          obtain ⟨other, hother, hsame⟩ := List.any_eq_true.mp hany
          rw [Value.eq_of_same_text htext hsame] at hother
          exact .inl hother
        · exact .inr h

theorem foldl_addIds {α : Type} {refs : α → List Value} (xs : List α) {ids : List Value} :
    (∀ id ∈ xs.foldl (fun ids x => addIds ids (refs x)) ids,
      id ∈ ids ∨ ∃ x ∈ xs, id ∈ refs x ∧ id.isTruthy = true) ∧
    ∀ id, id.isText = true → (id ∈ ids ∨ ∃ x ∈ xs, id ∈ refs x) →
      id ∈ xs.foldl (fun ids x => addIds ids (refs x)) ids := by
  induction xs generalizing ids with
  | nil =>
    refine ⟨fun id hid => .inl hid, fun id _ hid => ?_⟩
    rcases hid with hid | ⟨_, hx, -⟩
    · exact hid
    · cases hx
  | cons x xs ih =>
    obtain ⟨hmem, htext⟩ := @ih (addIds ids (refs x))
    constructor
    · intro id hid
      rcases hmem id hid with hid | ⟨y, hy, hid⟩
      · rcases mem_addIds hid with hid | hid
        · exact .inl hid
        · exact .inr ⟨x, List.mem_cons_self, hid⟩
      · exact .inr ⟨y, List.mem_cons_of_mem x hy, hid⟩
    · intro id hid h
      refine htext id hid ?_
      rcases h with h | ⟨y, hy, h⟩
      · exact .inl (mem_addIds_of_text hid (.inl h))
      · rcases List.mem_cons.mp hy with rfl | hy
        · exact .inl (mem_addIds_of_text hid (.inr h))
        · exact .inr ⟨y, hy, h⟩

end Engine
end DocQuery
