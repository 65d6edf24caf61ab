import DocQuery.Proofs.Engine.Quiet
import DocQuery.Proofs.Query.Fetching
import DocQuery.Proofs.Query.Pushdown

/-!
# What a global filter hides

With a global filter a query reads the documents that pass it, and the others leave no trace: **over
two collections with the same passing documents it has the same result, or fails alike**
(`Query.result_hidden`). The two runs are followed side by side (`Hiding.handles`). Their caches hold
different documents, but what a pipeline goes on with behind the filter is the same, and the
specifications of the fetches, which may differ where a join looks at its siblings, do not matter to
a fetcher that gives everything.

The filter has to be closed: it may not ask for references or the enclosing value or read from a
source, so that what it says of a document depends on that document alone (`Closed.exec_eq`). And the
query may not dereference a pipeline, since the documents of such a reference are not filtered.
-/

set_option autoImplicit false

namespace DocQuery

open Operation Planner Run Engine

/-! ## Closed filters in plans -/

namespace Planner

variable {α β : Type} {params : Params} {node : Node} {n n' : SourceId} {o : Operation}

/-- Composition that takes no source. -/
def Steady (x : Plan α) : Prop := ∀ n a n', Gives x n a n' → n' = n ∧ ∀ m, Gives x m a m

theorem steady_pure (a : α) : Steady (pure a : Plan α) := by
  rintro n b n' h
  obtain ⟨rfl, rfl⟩ := gives_pure.mp h
  exact ⟨rfl, fun m => gives_pure.mpr ⟨rfl, rfl⟩⟩

theorem steady_lift (e : Except PlanError α) : Steady (liftM e : Plan α) := by
  rintro n b n' h
  obtain ⟨he, rfl⟩ := gives_lift.mp h
  exact ⟨rfl, fun m => gives_lift.mpr ⟨he, rfl⟩⟩

theorem steady_bind {x : Plan α} {f : α → Plan β} (hx : Steady x)
    (hf : ∀ a n n', Gives x n a n' → Steady (f a)) : Steady (x >>= f) := by
  rintro n b n' h
  obtain ⟨a, m, ha, hb⟩ := gives_bind.mp h
  obtain ⟨rfl, hx⟩ := hx n a m ha
  obtain ⟨rfl, hf⟩ := hf a m m ha m b n' hb
  exact ⟨rfl, fun k => gives_bind.mpr ⟨a, k, hx k, hf k⟩⟩

mutual

/-- A closed syntax tree takes no source, whichever is the next one. -/
theorem steady_compose : ∀ node : Node, node.usesOnly .closed = true →
    Steady (compose params node)
  | .pipe lhs rhs, h | .dot lhs rhs, h | .range lhs rhs _, h => by
    obtain ⟨hl, hr⟩ := Bool.and_eq_true_iff.mp h
    rw [compose]
    exact steady_bind (steady_compose lhs hl) fun _ _ _ _ =>
      steady_bind (steady_compose rhs hr) fun _ _ _ _ => steady_pure _
  | .binary operator lhs rhs, h => by
    obtain ⟨hl, hr⟩ := Bool.and_eq_true_iff.mp h
    rw [compose]
    exact steady_bind (steady_compose lhs hl) fun _ _ _ _ =>
      steady_bind (steady_compose rhs hr) fun _ _ _ _ => steady_lift _
  | .constraint (some operand), h | .not operand, h => by
    have hoperand : operand.usesOnly .closed = true := h
    rw [compose]
    exact steady_bind (steady_compose operand hoperand) fun _ _ _ _ => steady_pure _
  | .postfixed operator operand, h => by
    obtain ⟨hoperand, hfollow⟩ := Bool.and_eq_true_iff.mp h
    rw [compose]
    refine steady_bind (steady_compose operand hoperand) fun o n n' ho => ?_
    cases operator with
    | asc | desc => exact steady_pure _
    | arrow =>
      obtain ⟨haccessor, hpipeline, -⟩ := shape_compose ho
      have hfollow : operand.mayFollow .closed = true := hfollow
      unfold Node.mayFollow at hfollow
      rw [← haccessor, ← hpipeline] at hfollow
      show Steady (dereference o)
      cases o with
      | accessor path => cases hfollow
      | pipe stages name => cases hfollow
      | _ => exact steady_pure _
  | .object members, h => by
    rw [compose]
    exact steady_bind (steady_composeAll members h) fun _ _ _ _ =>
      steady_bind (steady_lift _) fun _ _ _ _ => steady_pure _
  | .array elements, h => by
    rw [compose]
    exact steady_bind (steady_composeAll elements h) fun _ _ _ _ => steady_pure _
  | .subscript value, h => by
    have hvalue : value.usesOnly .closed = true := h
    cases value with
    | range start stop inclusive =>
      obtain ⟨hstart, hstop⟩ := Bool.and_eq_true_iff.mp hvalue
      rw [compose]
      refine steady_bind (steady_compose start hstart) fun _ _ _ _ =>
        steady_bind (steady_lift _) fun _ _ _ _ =>
          steady_bind (steady_compose stop hstop) fun _ _ _ _ =>
            steady_bind (steady_lift _) fun _ _ _ _ => ?_
      cases inclusive
      · exact steady_pure _
      · exact steady_bind (steady_lift _) fun _ _ _ _ => steady_pure _
    | _ =>
      rw [compose]
      · exact steady_bind (steady_compose _ hvalue) fun _ _ _ _ =>
          steady_bind (steady_lift _) fun _ _ _ _ => steady_bind (steady_lift _) fun _ _ _ _ =>
            steady_pure _
      · exact fun _ _ _ h => nomatch h
  | .functionCall name arguments, h => by
    obtain ⟨harguments, -⟩ := Bool.and_eq_true_iff.mp h
    rw [compose]
    exact steady_bind (steady_composeAll arguments harguments) fun _ _ _ _ => steady_lift _
  | .param name, _ => by
    rw [compose]
    split
    · exact steady_pure _
    · intro _ _ _ h
      cases h
  | .everything, h | .parent, h => nomatch h
  | .constraint none, _ | .attr _, _ | .ellipsis, _ | .integer _, _ | .float _, _ | .string _, _
  | .bool _, _ | .null, _ => by
    rw [compose]
    exact steady_pure _

theorem steady_composeAll : ∀ nodes : List Node, Node.usesOnlyAll .closed nodes = true →
    Steady (composeAll params nodes)
  | [], _ => by
    rw [composeAll]
    exact steady_pure _
  | node :: nodes, h => by
    obtain ⟨hnode, hnodes⟩ := Bool.and_eq_true_iff.mp h
    rw [composeAll]
    exact steady_bind (steady_compose node hnode) fun _ _ _ _ =>
      steady_bind (steady_composeAll nodes hnodes) fun _ _ _ _ => steady_pure _

end

end Planner

/-! ## What a closed filter says of a value -/

namespace Closed

variable {fetcher fetcher' : Fetcher} {condition : Operation} {s : Scope} {σ ρ : Session}

/-- The value of a closed operation at a value, asked for on its own. -/
def verdict (condition : Operation) (v : Value) : Except ExecError Value :=
  ((exec (.fullScan []) condition (.detached v)).run.run .empty).1.map Scoped.value

/-- Whether a closed filter keeps a value. -/
def keeps (condition : Operation) (v : Value) : Bool :=
  match verdict condition v with
  | .ok w => w.same (.bool true)
  | .error _ => false

/-- A closed operation gives the same wherever it is asked, and touches nothing. -/
theorem exec_eq (h : condition.Conforms .closed anySource) (hs : s.start = 0) :
    ∃ r, (exec fetcher condition s).run.run σ = (r, σ) ∧
      r.map Scoped.value = verdict condition s.value := by
  have halike : s.Alike false (.detached s.value) := ⟨rfl, hs, fun h => nomatch h⟩
  have hhandles := Handles.of_quiet (f := .closed) rfl rfl rfl (Quiet.untouched σ .empty) fetcher
    (.fullScan []) anySource
  have hrun := tracks_exec hhandles h halike σ .empty ⟨rfl, rfl⟩
  unfold verdict
  generalize (exec fetcher condition s).run.run σ = outcome at hrun ⊢
  generalize (exec (.fullScan []) condition (.detached s.value)).run.run .empty = outcome' at hrun ⊢
  cases hrun with
  | ok hvalue hkeep =>
    obtain ⟨rfl, rfl⟩ := hkeep
    exact ⟨_, rfl, congrArg Except.ok hvalue.value⟩
  | error _ hkeep =>
    obtain ⟨rfl, rfl⟩ := hkeep
    exact ⟨_, rfl, rfl⟩
  | excused hlenient => exact hlenient.elim

theorem yields_exec (h : condition.Conforms .closed anySource) (hs : s.start = 0) {w : Value}
    (hw : verdict condition s.value = .ok w) :
    ∃ r, (exec fetcher condition s).Yields σ r σ ∧ r.value = w := by
  obtain ⟨r, hrun, hr⟩ := @exec_eq fetcher condition s σ h hs
  rw [hw] at hr
  cases r with
  | error e => cases hr
  | ok r =>
    cases hr
    exact ⟨r, hrun, rfl⟩

theorem verdict_of_yields (h : condition.Conforms .closed anySource) (hs : s.start = 0) {r : Scoped}
    {τ : Session} (hr : (exec fetcher condition s).Yields σ r τ) :
    verdict condition s.value = .ok r.value := by
  obtain ⟨found, hrun, hfound⟩ := @exec_eq fetcher condition s σ h hs
  rw [Yields, hrun] at hr
  cases hr
  exact hfound.symm

/-- Where a closed filter was applied to a collection, it was evaluated everywhere. -/
theorem verdicts_of_yields (h : condition.Conforms .closed anySource) (base : Scope)
    {values : List Value} {kept : List Scope} {τ : Session}
    (hkept : (keepScopes (fun s => exec fetcher condition s)
      (Scoped.elementsOf base values)).Yields σ kept τ) :
    ∀ v ∈ values, ∃ w, verdict condition v = .ok w := by
  induction values generalizing σ kept τ with
  | nil => exact fun _ hv => nomatch hv
  | cons v values ih =>
    obtain ⟨r, _, hr, hrest⟩ := yields_bind.mp hkept
    obtain ⟨rest, _, hrest, -⟩ := yields_bind.mp hrest
    exact List.forall_mem_cons.mpr ⟨⟨r.value, verdict_of_yields h rfl hr⟩, ih hrest⟩

/-- A closed filter keeps of a collection what it is true of. -/
theorem yields_keepScopes (h : condition.Conforms .closed anySource) (base : Scope)
    {values : List Value} (hok : ∀ v ∈ values, ∃ w, verdict condition v = .ok w) :
    (keepScopes (fun s => exec fetcher condition s) (Scoped.elementsOf base values)).Yields σ
      (Scoped.elementsOf base (values.filter (keeps condition))) σ := by
  let found : Scope → Value := fun s => (verdict condition s.value).toOption.getD .null
  have hfound : ∀ v ∈ values, ∀ w, verdict condition v = .ok w → found (base.element v) = w := by
    intro v _ w hw
    show (verdict condition v).toOption.getD .null = w
    rw [hw]
    rfl
  have hyields : ∀ s ∈ Scoped.elementsOf base values,
      ∃ r, (exec fetcher condition s).Yields σ r σ ∧ r.value = found s := by
    intro s hs
    obtain ⟨v, hv, rfl⟩ := List.mem_map.mp hs
    obtain ⟨w, hw⟩ := hok v hv
    rw [hfound v hv w hw]
    exact yields_exec h rfl hw
  have hfilter : (Scoped.elementsOf base values).filter (fun s => (found s).same (.bool true)) =
      Scoped.elementsOf base (values.filter (keeps condition)) := by
    unfold Scoped.elementsOf
    rw [List.filter_map]
    refine congrArg _ (List.filter_congr fun v hv => ?_)
    obtain ⟨w, hw⟩ := hok v hv
    rw [Function.comp_apply, hfound v hv w hw, keeps, hw]
  rw [← hfilter]
  exact yields_keepScopes_of hyields

/-- Behind a source that is at hand, a closed filter leaves what it is true of. -/
theorem run_filter (h : condition.Conforms .closed anySource) {id : SourceId} {rest : List Operation}
    {documents : List Value} (hok : ∀ v ∈ documents, ∃ w, verdict condition v = .ok w) :
    (applyStages fetcher (.filter condition :: rest) (.one (sourceScope id s ⟨documents, 0⟩)) s).run.run
        σ =
      (applyStages fetcher rest
        (.many (Scoped.elementsOf (sourceScope id s ⟨[], 0⟩) (documents.filter (keeps condition))) 0)
        s).run.run σ := by
  rw [applyStages_eq_bind]
  have hkept := @yields_keepScopes fetcher condition σ h (sourceScope id s ⟨documents, 0⟩) documents hok
  have hstep : (applyStage fetcher (.filter condition) (.one (sourceScope id s ⟨documents, 0⟩))
      s).Yields σ (.many (Scoped.elementsOf (sourceScope id s ⟨[], 0⟩)
        (documents.filter (keeps condition))) 0) σ :=
    yields_bind.mpr ⟨_, σ, hkept, yields_pure.mpr ⟨rfl, rfl⟩⟩
  exact run_bind_of_yields hstep _

/-- A pipeline of a source and a closed filter, where it succeeds. -/
theorem yields_filter (h : condition.Conforms .closed anySource) {id : SourceId}
    {documents : List Value} {r : Scoped} {τ : Session}
    (hr : (applyStages fetcher [.filter condition] (.one (sourceScope id s ⟨documents, 0⟩)) s).Yields
      σ r τ) :
    (∀ v ∈ documents, ∃ w, verdict condition v = .ok w) ∧
      r.value = .array (documents.filter (keeps condition)) := by
  have hok : ∀ v ∈ documents, ∃ w, verdict condition v = .ok w := by
    have hstep := hr
    rw [applyStages_eq_bind] at hstep
    obtain ⟨_, _, hnext, -⟩ := yields_bind.mp hstep
    obtain ⟨kept, _, hkept, -⟩ := yields_bind.mp hnext
    exact verdicts_of_yields h _ hkept
  refine ⟨hok, ?_⟩
  rw [Yields, run_filter h hok] at hr
  cases hr
  show Value.array ((documents.filter (keeps condition)).map _ |>.map _) = _
  rw [List.map_map]
  exact congrArg Value.array (List.map_id _)

end Closed

/-! ## Joins over other documents -/

namespace Join

variable {c c' : Context}

/-- Which sources are at hand decides whether siblings can be found. -/
theorem isSome_siblings (h : ∀ id, (c.source? id).isSome = (c'.source? id).isSome) (s : Scope) :
    (siblings? c s).isSome = (siblings? c' s).isSome := by
  unfold siblings?
  cases s.source with
  | none => rfl
  | some id =>
    have hid := h id
    rw [Option.bind_some, Option.bind_some]
    generalize c.source? id = found at hid ⊢
    generalize c'.source? id = found' at hid ⊢
    cases found with
    | none =>
      rw [Option.isSome_eq_false_iff.mp hid.symm |> Option.isNone_iff_eq_none.mp]
    | some data =>
      obtain ⟨data', rfl⟩ := Option.isSome_iff_exists.mp hid.symm
      cases s.computed <;> rfl

theorem isSome_accessorValues (h : ∀ id, (c.source? id).isSome = (c'.source? id).isSome)
    (steps : List PathStep) (s : Scope) :
    (accessorValues c s steps).isSome = (accessorValues c' s steps).isSome := by
  induction steps generalizing s with
  | nil => rfl
  | cons step steps ih =>
    cases step with
    | parent =>
      rw [accessorValues, accessorValues]
      cases s.parent with
      | none => rfl
      | some p => exact ih p
    | attr name =>
      rw [accessorValues, accessorValues, valuesFrom, valuesFrom, Option.isSome_map,
        Option.isSome_map, isSome_siblings h]

theorem isSome_joinValues (h : ∀ id, (c.source? id).isSome = (c'.source? id).isSome) (s : Scope)
    (o : Operation) : (joinValues c s o).isSome = (joinValues c' s o).isSome := by
  cases o with
  | accessor steps => exact isSome_accessorValues h steps _
  | _ => rfl

end Join

/-! ## Two runs -/

/-- Two sessions in which the same sources are at hand, with all of the one or the other documents,
and the same references are remembered. -/
structure Hiding (documents documents' : List Value) (σ ρ : Session) : Prop where
  sources : ∀ id, (σ.context.source? id = some ⟨documents, 0⟩ ∧
      ρ.context.source? id = some ⟨documents', 0⟩) ∨
    (σ.context.source? id = none ∧ ρ.context.source? id = none)
  references : σ.context.references = ρ.context.references

namespace Hiding

variable {D D' : List Json} {σ ρ : Session} {condition : Operation}

/-- Two runs whose sessions hide the documents that differ. -/
def pairing (D D' : List Json) : Pairing := ⟨Hiding (D.map Value.ofJson) (D'.map Value.ofJson), False⟩

theorem isSome_source? {documents documents' : List Value} (h : Hiding documents documents' σ ρ)
    (id : SourceId) : (σ.context.source? id).isSome = (ρ.context.source? id).isSome := by
  rcases h.sources id with ⟨hσ, hρ⟩ | ⟨hσ, hρ⟩
  · rw [hσ, hρ]
    rfl
  · rw [hσ, hρ]

/-- A fetch brings everything to both sessions, whatever was asked. -/
theorem fetched (h : Hiding (D.map Value.ofJson) (D'.map Value.ofJson) σ ρ) (id : SourceId)
    (spec spec' : FetchSpec) : Hiding (D.map Value.ofJson) (D'.map Value.ofJson)
      (fetched σ id spec (.ofResults D)) (fetched ρ id spec' (.ofResults D')) := by
  refine ⟨fun other => ?_, h.references⟩
  rcases eq_or_ne other id with rfl | hne
  · exact .inl ⟨source?_store σ.context other _, source?_store ρ.context other _⟩
  · rw [source?_fetched_of_ne hne, source?_fetched_of_ne hne]
    exact h.sources other

/-- The specifications may differ, but finishing them succeeds or fails alike. -/
theorem tracks_finish (s : Scope) (spec : FetchSpec) :
    Tracks (pairing D D') (fun _ _ => True) (finish s spec) (finish s spec) := by
  cases hfilter : spec.filter with
  | none =>
    unfold finish
    rw [hfilter]
    exact tracks_pure trivial
  | some filter =>
    intro σ ρ hkeep
    have hσ := Join.comesTo_generalize σ.context s filter
    have hρ := Join.comesTo_generalize ρ.context s filter
    rw [Join.obstacle?_congr (Join.isSome_joinValues (isSome_source? hkeep) s)] at hσ
    rw [Join.run_finish hfilter, Join.run_finish hfilter]
    generalize Join.generalize σ.context s filter = x at hσ ⊢
    generalize Join.generalize ρ.context s filter = y at hρ ⊢
    generalize filter.conditions.findSome? (Join.obstacle? ρ.context s) = obstacle at hσ hρ
    cases hσ with
    | widened _ =>
      cases hρ with
      | widened _ => exact .ok trivial hkeep
    | refused =>
      cases hρ with
      | refused => exact .error rfl hkeep
    | givenUp =>
      cases hρ with
      | givenUp => exact .ok trivial hkeep

theorem referencesOf_congr {c c' : Context} (h : c.references = c'.references) (key : String)
    (v : Value) : (c.referencesOf key v).1 = (c'.referencesOf key v).1 ∧
      (c.referencesOf key v).2.references = (c'.referencesOf key v).2.references := by
  unfold Context.referencesOf
  rw [h]
  cases c'.references.get? key with
  | none => exact ⟨rfl, rfl⟩
  | some found => exact ⟨rfl, h⟩

/-- What is remembered of references decides how `references()` is answered. -/
theorem refersTo_congr {c c' : Context} (h : c.references = c'.references) (v : Value)
    (ids : List Value) : (c.refersTo v ids).1 = (c'.refersTo v ids).1 ∧
      (c.refersTo v ids).2.references = (c'.refersTo v ids).2.references := by
  unfold Context.refersTo
  cases Context.documentKey? v with
  | none => exact ⟨rfl, h⟩
  | some key =>
    obtain ⟨hfound, hreferences⟩ := referencesOf_congr h key v
    refine ⟨?_, hreferences⟩
    show (c.referencesOf key v).1.any _ = (c'.referencesOf key v).1.any _
    rw [hfound]

theorem handles (hcondition : condition.Conforms .closed anySource)
    (hD : ∀ d ∈ D, ∃ w, Closed.verdict condition (.ofJson d) = .ok w)
    (hD' : ∀ d ∈ D', ∃ w, Closed.verdict condition (.ofJson d) = .ok w)
    (hsame : (D.map Value.ofJson).filter (Closed.keeps condition) =
      (D'.map Value.ofJson).filter (Closed.keeps condition)) :
    Handles (pairing D D') (.fullScan D) (.fullScan D') { joins := false }
      fun _ rest => rest.head? = some (.filter condition) := by
  refine ⟨fun _ id rest s t hreads hrest hst happly hcompile => ?_, fun _ subject values => ?_,
    fun h => nomatch h⟩
  · obtain rfl := hst.same rfl
    obtain ⟨rest, rfl⟩ := List.head?_eq_some_iff.mp hreads
    intro σ ρ hkeep
    -- behind the filter both runs go on with the same documents
    have hbehind : ∀ σ ρ, Hiding (D.map Value.ofJson) (D'.map Value.ofJson) σ ρ →
        Matches (pairing D D') (Scoped.Alike true)
          ((applyStages (.fullScan D) (.filter condition :: rest)
            (.one (sourceScope id s ⟨D.map Value.ofJson, 0⟩)) s).run.run σ)
          ((applyStages (.fullScan D') (.filter condition :: rest)
            (.one (sourceScope id s ⟨D'.map Value.ofJson, 0⟩)) s).run.run ρ) := by
      intro σ ρ hkeep
      rw [Closed.run_filter hcondition (List.forall_mem_map.mpr hD),
        Closed.run_filter hcondition (List.forall_mem_map.mpr hD'), hsame]
      exact happly rest (List.suffix_cons _ _) _ _ (.refl _) σ ρ hkeep
    rcases hkeep.sources id with ⟨hσ, hρ⟩ | ⟨hσ, hρ⟩
    · rw [Correlated.run_known hσ, Correlated.run_known hρ]
      exact hbehind σ ρ hkeep
    · rw [run_new hσ, run_new hρ]
      refine Matches.bind (hcompile σ ρ hkeep) (fun spec _ σ ρ _ _ hspec hkeep => ?_)
        (fun _ _ h => h) fun h => h
      obtain rfl := hspec
      refine Matches.bind (tracks_finish s spec σ ρ hkeep)
        (fun spec spec' σ ρ _ _ _ hkeep => ?_) (fun _ _ h => h) fun h => h
      have hfetched := fetched hkeep id spec spec'
      have hread := hbehind _ _ hfetched
      rw [← run_readSource (source?_store σ.context id (.ofResults D)),
        ← run_readSource (source?_store ρ.context id (.ofResults D'))] at hread
      exact hread
  · intro σ ρ hkeep
    obtain ⟨hanswer, hreferences⟩ :=
      refersTo_congr hkeep.references subject (Builtin.referenceIds values)
    obtain ⟨remembered, hσ⟩ := refersTo_remembers σ subject (Builtin.referenceIds values)
    obtain ⟨remembered', hρ⟩ := refersTo_remembers ρ subject (Builtin.referenceIds values)
    refine .ok (congrArg Value.bool hanswer) ?_
    have hafter : Hiding (D.map Value.ofJson) (D'.map Value.ofJson) (σ.remembering remembered)
        (ρ.remembering remembered') := by
      refine ⟨hkeep.sources, ?_⟩
      rw [← hσ, ← hρ]
      exact hreferences
    rw [← hσ, ← hρ] at hafter
    exact hafter

end Hiding

/-! ## What a filter lets pass -/

/-- Whether a document passes a filter: it is evaluated at the document and is exactly true. -/
def passes (filter : Node) (params : Params) (document : Json) : Bool :=
  (matchesFilter document filter params).toOption.getD false

/-- The plan that a document is matched against a filter by. -/
theorem operation_filtered {filter : Node} {params : Params} {condition : Operation}
    (h : ∀ n, Gives (compose params filter) n condition n) :
    Query.operation ⟨.filtered filter, params, none⟩ =
      .ok (.pipe [.source 1, .filter condition] none) := by
  have hcomposed : Gives (compose params (.filtered filter)) 1
      (.pipe [.source 1, .filter condition] none) 2 :=
    gives_pipe.mpr ⟨_, 2, _, gives_everything.mpr ⟨rfl, rfl⟩, gives_filter.mpr ⟨_, h 2, rfl⟩, rfl⟩
  unfold Query.operation plan
  rw [show (compose params (.filtered filter)).run 1 = _ from hcomposed]
  rfl

/-- A document that was matched against a filter was run through it. -/
theorem exists_yields_of_matchesFilter {filter : Node} {params : Params} {condition : Operation}
    (hplan : Query.operation ⟨.filtered filter, params, none⟩ =
      .ok (.pipe [.source 1, .filter condition] none)) {d : Json} {kept : Bool}
    (h : matchesFilter d filter params = .ok kept) :
    ∃ r τ, (run (.fullScan [d]) [.source 1, .filter condition] .root).Yields .empty r τ ∧
      kept = !(r.value.toJson.asArray?.getD []).isEmpty := by
  unfold matchesFilter at h
  cases hresult : Query.result ⟨.filtered filter, params, none⟩ (.fullScan [d]) with
  | error e =>
    rw [hresult] at h
    cases h
  | ok j =>
    rw [hresult] at h
    cases h
    obtain ⟨r, τ, hr, rfl⟩ := (Query.result_eq_ok hplan).mp hresult
    exact ⟨r, τ, yields_pipe.mp hr, rfl⟩

/-- Where a filter was evaluated at a document, its verdict is what the document was kept by. -/
theorem matchesFilter_eq_ok {filter : Node} {params : Params} {condition : Operation}
    (hcompose : ∀ n, Gives (compose params filter) n condition n)
    (hcondition : condition.Conforms .closed anySource) {d : Json} {kept : Bool}
    (h : matchesFilter d filter params = .ok kept) :
    ∃ w, Closed.verdict condition (.ofJson d) = .ok w ∧ kept = w.same (.bool true) := by
  obtain ⟨r, τ, hr, rfl⟩ := exists_yields_of_matchesFilter (operation_filtered hcompose) h
  obtain ⟨_, _, ρ, ρ', response, -, -, hresponse, happly⟩ := (yields_run_new rfl).mp hr
  cases hresponse
  obtain ⟨hok, hvalue⟩ := Closed.yields_filter hcondition happly
  obtain ⟨w, hw⟩ := hok (.ofJson d) List.mem_cons_self
  have hkeeps : Closed.keeps condition (.ofJson d) = w.same (.bool true) := by
    rw [Closed.keeps, hw]
  refine ⟨w, hw, ?_⟩
  rw [hvalue, ← hkeeps]
  show (!((Value.array ([Value.ofJson d].filter (Closed.keeps condition))).toJson.asArray?.getD
    []).isEmpty) = _
  rw [List.filter_cons]
  cases Closed.keeps condition (.ofJson d) <;> rfl

/-- So a document passes a filter if its verdict keeps it. -/
theorem passes_eq_keeps {filter : Node} {params : Params} {condition : Operation}
    (hcompose : ∀ n, Gives (compose params filter) n condition n)
    (hcondition : condition.Conforms .closed anySource) {d : Json}
    (h : ∃ kept, matchesFilter d filter params = .ok kept) :
    (∃ w, Closed.verdict condition (.ofJson d) = .ok w) ∧
      passes filter params d = Closed.keeps condition (.ofJson d) := by
  obtain ⟨kept, hd⟩ := h
  obtain ⟨w, hw, rfl⟩ := matchesFilter_eq_ok hcompose hcondition hd
  refine ⟨⟨w, hw⟩, ?_⟩
  rw [passes, hd, Closed.keeps, hw]
  rfl

/-- What is kept of documents is what passes the filter. -/
theorem filter_keeps_ofJson {filter : Node} {params : Params} {condition : Operation}
    {documents : List Json}
    (h : ∀ d ∈ documents, passes filter params d = Closed.keeps condition (.ofJson d)) :
    (documents.map Value.ofJson).filter (Closed.keeps condition) =
      (documents.filter (passes filter params)).map Value.ofJson := by
  rw [List.filter_map]
  exact congrArg _ (List.filter_congr fun d hd => (h d hd).symm)

/-- A query gives the same through two fetchers if its plan runs alike through both, and neither run
is excused. -/
theorem Query.result_eq_of_tracks {q : Query} {o : Operation} (hplan : q.operation = .ok o)
    {p : Pairing} (hstrict : ¬p.lenient) (hempty : p.keep .empty .empty) {strict : Bool}
    {fetcher fetcher' : Fetcher}
    (h : Tracks p (Scoped.Alike strict) (exec fetcher o .root) (exec fetcher' o .root)) :
    q.result fetcher = q.result fetcher' := by
  have hrun := h .empty .empty hempty
  rw [Query.result_eq hplan, Query.result_eq hplan]
  generalize (exec fetcher o .root).run.run .empty = outcome at hrun ⊢
  generalize (exec fetcher' o .root).run.run .empty = outcome' at hrun ⊢
  cases hrun with
  | ok hvalue _ => exact congrArg (fun v : Value => Except.ok v.toJson) hvalue.value
  | error _ _ => rfl
  | excused hlenient => exact absurd hlenient hstrict

/-- **What a global filter hides.** Let a query dereference no pipeline, and let its global filter
be closed. If the filter can be evaluated at every document of two collections and lets the same
ones pass, in the same order, then the query gives the same over both, be it a result or an error. -/
theorem Query.result_hidden {q : Query} {filter : Node} {D D' : List Json}
    (hfilter : q.globalFilter = some filter) (hclosed : filter.usesOnly .closed = true)
    (htree : q.tree.usesOnly { joins := false } = true)
    (hD : ∀ d ∈ D ++ D', ∃ kept, matchesFilter d filter q.params = .ok kept)
    (hsame : D.filter (passes filter q.params) = D'.filter (passes filter q.params)) :
    q.result (.fullScan D) = q.result (.fullScan D') := by
  cases hplan : q.operation with
  | error e =>
    unfold Query.result Query.execute
    rw [hplan]
  | ok o =>
    obtain ⟨base, next, hbase, ⟨hnone, -⟩ | ⟨filter', condition, next', hsome, hcondition, rfl⟩⟩ :=
      Query.gives_of_operation hplan
    · rw [hfilter] at hnone
      cases hnone
    · rw [hfilter] at hsome
      cases hsome
      have hcompose := (steady_compose filter hclosed next condition next' hcondition).2
      have hkept : condition.Conforms .closed anySource := conforms_compose hclosed hcondition
      have hpasses := fun d hd => passes_eq_keeps hcompose hkept (hD d hd)
      have hhandles := Hiding.handles hkept
        (fun d hd => (hpasses d (List.mem_append_left _ hd)).1)
        (fun d hd => (hpasses d (List.mem_append_right _ hd)).1)
        (by rw [filter_keeps_ofJson fun d hd => (hpasses d (List.mem_append_left _ hd)).2,
          filter_keeps_ofJson fun d hd => (hpasses d (List.mem_append_right _ hd)).2, hsame])
      have hconforms : (restrict condition base).Conforms { joins := false }
          fun _ rest => rest.head? = some (.filter condition) :=
        (conforms_compose htree hbase).restrict ⟨.refl _,
          hkept.imp ⟨Features.closed_below _, fun h => nomatch h⟩ (.refl _),
          fun _ _ _ _ => rfl, fun h => nomatch h⟩
      have hempty : Hiding (D.map Value.ofJson) (D'.map Value.ofJson) .empty .empty :=
        ⟨fun _ => .inr ⟨rfl, rfl⟩, rfl⟩
      exact Query.result_eq_of_tracks hplan (p := Hiding.pairing D D') id hempty
        (tracks_exec hhandles hconforms (.refl .root))

/-- A join among the open documents, over two collections that differ in the others. -/
theorem Query.result_hidden_join :
    let shown : Node := .binary .equals (.attr "open") (.bool true)
    let joined : Node := .pipe .everything
      (.constraint (some (.binary .equals (.attr "a") (.dot .parent (.attr "a")))))
    let q : Query := ⟨.pipe .everything (.object [.binary .colon (.string "same") joined]), [],
      some shown⟩
    let shared := Json.obj [("a", .int 1), ("open", .bool true)]
    q.result (.fullScan [.obj [("a", .int 2), ("open", .bool false)], shared]) =
      q.result (.fullScan [shared, .obj [("a", .int 1)]]) := by
  intro shown joined q shared
  have hkept : ∀ d ∈ [.obj [("a", .int 2), ("open", .bool false)], shared] ++
      [shared, .obj [("a", .int 1)]], ∃ kept, matchesFilter d shown q.params = .ok kept := by
    intro d hd
    simp only [List.cons_append, List.nil_append, List.mem_cons, List.not_mem_nil, or_false] at hd
    rcases hd with rfl | rfl | rfl | rfl <;> exact ⟨_, by with_unfolding_all rfl⟩
  exact Query.result_hidden rfl rfl rfl hkept (by with_unfolding_all rfl)

end DocQuery
