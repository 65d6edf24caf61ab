import DocQuery.Proofs.Query.Linked
import DocQuery.Proofs.Store.Ids

/-!
# Following chains of references

The first document that a chain of references is followed from makes the session fetch the source of
every `->` in it. To know what to ask for at the end of the chain, the way is followed from all
documents around (`exists_served`); the first of them fetches the sources on the way, and it has no
others around it then. From there on the session serves every document with what it has
(`yields_served`). So **a member fetches once and has the value that `Chain.followed` says, whatever
fetcher it is that can be asked for documents by their ids** (`fetchesOnce_chain`).
-/

set_option autoImplicit false

namespace DocQuery

open Engine Run Local Operation

/-! ## What a result reaches -/

/-- The values of a result, without their scopes. -/
def Scoped.reached : Scoped → Reached
  | .one s => .one s.value
  | .many items _ => .many (items.map (·.value))

theorem Scoped.value_reached (r : Scoped) : r.reached.value = r.value := by
  cases r <;> rfl

namespace Local

theorem exists_steps_attrs (paths : List (List String)) (input : Scoped) :
    ∃ next, Steps (paths.map attrs) input next ∧
      next.reached = input.reached.map (·.follow paths.flatten) := by
  cases input with
  | one s =>
    obtain ⟨t, hsteps, ht⟩ := steps_attrs_one paths s
    exact ⟨.one t, hsteps, congrArg Reached.one ht⟩
  | many items start =>
    obtain ⟨items', hsteps, hitems⟩ := steps_attrs_many paths items start
    refine ⟨.many items' start, hsteps, ?_⟩
    rw [Scoped.reached, hitems, Scoped.reached, Reached.map, List.map_map]
    rfl

theorem values_candidates (input : Scoped) :
    input.candidates.1.map (·.value) = input.reached.values.flatMap Join.spread := by
  have hexplode : ∀ s : Scope, (Scoped.explode s).map (·.value) = Join.spread s.value := by
    intro s
    unfold Scoped.explode
    cases hvalue : s.value with
    | array items =>
      show (items.map s.element).map (·.value) = items
      rw [List.map_map]
      exact List.map_id items
    | _ => simp [Join.spread, hvalue]
  cases input with
  | one s =>
    have hcandidates : (Scoped.one s).candidates.1 = Scoped.explode s := by
      unfold Scoped.candidates Scoped.explode
      dsimp only
      cases s.value <;> rfl
    rw [hcandidates, hexplode]
    exact (List.flatMap_singleton _ _).symm
  | many items start =>
    show (items.flatMap Scoped.explode).map _ = (items.map _).flatMap _
    rw [List.map_flatMap, List.flatMap_map]
    exact congrArg (items.flatMap ·) (funext hexplode)

theorem exists_steps_referring (opens : Bool) (input : Scoped) :
    ∃ next, Steps (Route.referring opens) input next ∧ next.reached = input.reached.refs opens := by
  cases opens with
  | false => exact exists_steps_attrs [["_ref"]] input
  | true =>
    obtain ⟨next, hsteps, hnext⟩ :=
      exists_steps_attrs [["_ref"]] (.many input.candidates.1 input.candidates.2)
    refine ⟨next, ⟨_, ⟨fun _ _ => ⟨_, rfl⟩, ?_⟩, hsteps⟩, hnext.trans ?_⟩
    · have hall : (input.candidates.1.filter fun s => holds (.literal (.bool true)) s.value) =
          input.candidates.1 := List.filter_eq_self.mpr fun _ _ => rfl
      rw [hall]
    · rw [Scoped.reached, values_candidates]
      rfl

end Local

theorem Engine.reached_lookupAll {s : Scope} {found : List Value} (hs : s.value = .array found)
    {r : Scoped} (h : ∀ ref ∈ r.reached.values, ref = .null ∨ ref.isText = true) :
    (s.lookupAll r.value).reached = r.reached.map (Value.firstWithId found) := by
  cases r with
  | one u =>
    -- a reference is no array
    have hone : s.lookupAll u.value = .one (s.lookup u.value) := by
      rcases h u.value List.mem_cons_self with hnull | htext
      · rw [hnull]
        rfl
      · obtain ⟨text, htext, -⟩ := Value.exists_of_isText htext
        rw [htext]
        rfl
    show (s.lookupAll u.value).reached = _
    rw [hone]
    exact congrArg Reached.one (value_lookup u.value hs)
  | many items start =>
    show Reached.many (((items.map (·.value)).map s.lookup).map (·.value)) = _
    rw [List.map_map]
    refine congrArg Reached.many (List.map_congr_left fun ref _ => ?_)
    exact value_lookup ref hs

namespace Engine

variable {fetcher : Fetcher} {σ τ ρ : Session} {r mid : Scoped} {base : Scope}

theorem yields_applyStages_of_append {first second : List Operation} {input : Scoped}
    (hfirst : (applyStages fetcher first input base).Yields σ mid ρ)
    (hsecond : (applyStages fetcher second mid base).Yields ρ r τ) :
    (applyStages fetcher (first ++ second) input base).Yields σ r τ := by
  induction first generalizing σ input with
  | nil =>
    obtain ⟨rfl, rfl⟩ := yields_pure.mp hfirst
    exact hsecond
  | cons stage first ih =>
    cases stage with
    | mapJoin stages =>
      obtain ⟨ids, ρ', hids, hrest⟩ := yields_applyStages_mapJoin.mp hfirst
      exact yields_applyStages_mapJoin.mpr ⟨ids, ρ', hids, ih hrest⟩
    | _ =>
      rw [applyStages_cons] at hfirst
      rw [List.cons_append, applyStages_cons]
      obtain ⟨next, ρ', hnext, hrest⟩ := yields_bind.mp hfirst
      exact yields_bind.mpr ⟨next, ρ', hnext, ih hrest⟩

end Engine

/-! ## Fetchers that are asked by references -/

namespace Pushdown

/-- A fetcher that can be asked for documents by references: `look refs ref` is what `ref` leads to in
the documents that it gives for `refs`. -/
structure Looks (fetcher : Fetcher) (look : List Value → Value → Value) : Prop where
  gives : ∀ n filter ids refs, Finds filter ids → (∀ id ∈ ids, id ∈ refs) →
    (∀ ref ∈ refs, ref = .null ∨ ref ∈ ids) → ∃ response, fetcher n (.filtered filter) = .ok response ∧
      response.start = 0 ∧
      ∀ ref, Value.firstWithId (response.results.map .ofJson) ref = look refs ref
  text : ∀ refs ref, (look refs ref).hasTextRefs = true

/-- A session has the documents of a source, and references lead to these ones in it. -/
def Knows (σ : Session) (id : SourceId) (leads : Value → Value) : Prop :=
  ∃ found, σ.context.source? id = some ⟨found, 0⟩ ∧ ∀ ref, Value.firstWithId found ref = leads ref

theorem Looks.knows {fetcher : Fetcher} {look : List Value → Value → Value}
    (h : Looks fetcher look) {filter : Operation} {ids refs : List Value} (hfinds : Finds filter ids)
    (hids : ∀ id ∈ ids, id ∈ refs) (hrefs : ∀ ref ∈ refs, ref = .null ∨ ref ∈ ids) (σ : Session)
    (id : SourceId) : ∃ response, fetcher σ.fetches.length (.filtered filter) = .ok response ∧
      Knows (fetched σ id (.filtered filter) response) id (look refs) := by
  obtain ⟨response, hresponse, hstart, hfirst⟩ := h.gives σ.fetches.length filter ids refs hfinds hids
    hrefs
  refine ⟨response, hresponse, _, ?_, hfirst⟩
  have hstore := source?_store σ.context id response
  rw [hstart] at hstore
  exact hstore

end Pushdown

namespace Route

open Pushdown

/-- A session has what a route asks for when it is first followed, from some subjects at once: at its
end what they all refer to, on the way what the first of them refers to. -/
def Served (look : List Value → Value → Value) (σ : Session) : Route → List Value → Prop
  | field _, _ => True
  | single path id paths, subjects =>
    Knows σ id (look ((single path id paths).chain.wanted look subjects))
  | join before opens id paths, subjects => before.Served look σ (subjects.take 1) ∧
    Knows σ id (look ((join before opens id paths).chain.wanted look subjects))

/-- Stages behind a route that do not change what it asks for. -/
def IsFetchedBefore (r : Route) (more : List Operation) : Prop :=
  r.sources = [] ∨ (∀ stage ∈ more, isFoldable stage = true) ∧
    (FetchSpec.ofStages (r.behind.map attrs ++ more)).filter = none

variable {fetcher : Fetcher} {look : List Value → Value → Value} {σ τ : Session} {r : Route}
  {subjects : List Value} {s : Scope}

theorem Served.congr (h : ∀ id ∈ r.sources, τ.context.source? id = σ.context.source? id)
    (hσ : r.Served look σ subjects) : r.Served look τ subjects := by
  have hknows : ∀ {id : SourceId} {leads : Value → Value},
      τ.context.source? id = σ.context.source? id → Knows σ id leads → Knows τ id leads := by
    rintro id leads hid ⟨found, hfound, hleads⟩
    exact ⟨found, hid.trans hfound, hleads⟩
  induction r generalizing subjects with
  | field path => trivial
  | single path id paths => exact hknows (h id List.mem_cons_self) hσ
  | join before opens id paths ih =>
    exact ⟨ih (fun j hj => h j (List.mem_cons_of_mem id hj)) hσ.1,
      hknows (h id List.mem_cons_self) hσ.2⟩

/-! ## Over sources at hand -/

/-- What is behind a route runs behind it, once its source is at hand. -/
theorem yields_run_append (hσ : r.Served look σ subjects) {more : List Operation} {mid last : Scoped}
    (hrun : (run fetcher r.stages s).Yields σ mid σ)
    (hmore : (applyStages fetcher more mid s).Yields σ last τ) :
    (run fetcher (r.stages ++ more) s).Yields σ last τ := by
  have hknown : ∀ {id : SourceId} {leads : Value → Value} {rest : List Operation},
      Knows σ id leads → (run fetcher (.source id :: rest) s).Yields σ mid σ →
        (run fetcher (.source id :: rest ++ more) s).Yields σ last τ := by
    rintro id leads rest ⟨found, hfound, -⟩ hrun
    exact (yields_run_known hfound).mpr
      (yields_applyStages_of_append ((yields_run_known hfound).mp hrun) hmore)
  cases r with
  | field path =>
    have hpath : ∀ rest, run fetcher (attrs path :: rest) s =
        (exec fetcher (attrs path) s >>= fun input => applyStages fetcher rest input s) :=
      fun _ => rfl
    rw [stages, hpath, yields_bind] at hrun
    obtain ⟨input, ρ, hinput, hrest⟩ := hrun
    obtain ⟨rfl, rfl⟩ := yields_pure.mp hrest
    rw [stages, List.cons_append, hpath, yields_bind]
    exact ⟨_, σ, hinput, hmore⟩
  | single path id paths => exact hknown hσ hrun
  | join before opens id paths => exact hknown hσ.2 hrun

/-- The references at the end of a route, or of the elements there. -/
theorem yields_referring (hσ : r.Served look σ subjects) (opens : Bool) {mid : Scoped}
    (hrun : (run fetcher r.stages s).Yields σ mid σ) :
    ∃ refs, (run fetcher (r.stages ++ referring opens) s).Yields σ refs σ ∧
      refs.reached = mid.reached.refs opens := by
  obtain ⟨refs, hsteps, hrefs⟩ := exists_steps_referring opens mid
  have hlocal : ∀ stage ∈ referring opens, stage.isLocalStage = true := by
    cases opens <;> decide
  exact ⟨refs, yields_run_append hσ hrun ((yields_applyStages hlocal).mpr ⟨rfl, hsteps⟩), hrefs⟩

/-- A session that has what a route asks for follows it from any value. -/
theorem yields_served (hlook : ∀ refs ref, (look refs ref).hasTextRefs = true)
    (hσ : r.Served look σ subjects) (hnull : s.value.isNull = false)
    (htext : s.value.hasTextRefs = true) :
    ∃ mid, (run fetcher r.stages s).Yields σ mid σ ∧
      mid.reached = r.chain.followed look subjects s.value := by
  induction r generalizing subjects with
  | field path =>
    exact ⟨.one (s.resolve (path.map .attr)), yields_bind.mpr ⟨_, σ,
      yields_accessor.mpr ⟨rfl, rfl⟩, yields_pure.mpr ⟨rfl, rfl⟩⟩,
      congrArg Reached.one (s.value_resolve_attrs path)⟩
  | single path id paths =>
    obtain ⟨found, hfound, hleads⟩ := hσ
    obtain ⟨u, hrun, hu⟩ := yields_single hfound hnull path paths
    refine ⟨.one u, hrun, congrArg Reached.one ?_⟩
    rw [hu, hleads]
    rfl
  | join before opens id paths ih =>
    obtain ⟨hbefore, found, hfound, hleads⟩ := hσ
    obtain ⟨mid, hmid, hreached⟩ := ih hbefore
    obtain ⟨refs, hrun, hrefs⟩ := yields_referring hbefore opens hmid
    rw [hreached] at hrefs
    have hvalues : ∀ ref ∈ refs.reached.values, ref = .null ∨ ref.isText = true := by
      rw [hrefs]
      exact Reached.refs_text (Chain.followed_text hlook htext)
    -- the documents behind the references, and what the paths lead to in them
    have hdocuments := reached_lookupAll (s := sourceScope id s ⟨found, 0⟩) rfl hvalues
    obtain ⟨last, hpaths, hlast⟩ := exists_steps_attrs paths
      ((sourceScope id s ⟨found, 0⟩).lookupAll refs.value)
    refine ⟨last, (yields_run_known hfound).mpr (yields_applyStages_mapJoin.mpr ⟨refs, σ, hrun,
      (yields_applyStages (isLocalStage_attrs paths)).mpr ⟨rfl, hpaths⟩⟩), ?_⟩
    rw [hlast, hdocuments, hrefs, Reached.map_map]
    refine Reached.map_congr fun ref _ => ?_
    rw [hleads]
    rfl

/-! ## Fetching what is followed -/

theorem isFetchedBefore_nil : r.IsFetchedBefore [] := by
  refine .inr ⟨nofun, ?_⟩
  rw [List.append_nil]
  exact filter_ofStages_attrs r.behind

theorem isFetchedBefore_referring {opens : Bool} (h : opens = true → r.behind ≠ []) :
    r.IsFetchedBefore (referring opens) := by
  refine .inr ⟨by cases opens <;> decide, ?_⟩
  cases hbehind : r.behind with
  | nil =>
    cases opens with
    | false => exact filter_ofStages_attrs_cons ["_ref"] []
    | true => exact absurd hbehind (h rfl)
  | cons path paths => exact filter_ofStages_attrs_cons path _

/-- References to the end of a route, as they are found on the way from each of several values. -/
theorem yields_references_all (hlook : ∀ refs ref, (look refs ref).hasTextRefs = true)
    (hσ : r.Served look σ subjects) (opens : Bool) {vs : List Value} (hvs : Referring vs) :
    ∃ found, (vs.mapM fun v => run fetcher (r.stages ++ referring opens) (.detached v)).Yields
        σ found σ ∧
      found.map Scoped.reached = vs.map fun v => (r.chain.followed look subjects v).refs opens := by
  obtain ⟨found, τ, hfound, hreached, rfl⟩ := @yields_mapM_of σ Value Scoped Reached
    (fun v => run fetcher (r.stages ++ referring opens) (.detached v)) Scoped.reached
    (fun v => (r.chain.followed look subjects v).refs opens) (σ = ·) vs (by
      rintro v hv _ rfl
      obtain ⟨-, hnull, htext⟩ := hvs v hv
      obtain ⟨mid, hmid, hreached⟩ :=
        @yields_served fetcher look σ r subjects (.detached v) hlook hσ hnull htext
      obtain ⟨refs, hrun, hrefs⟩ := yields_referring hσ opens hmid
      exact ⟨refs, σ, hrun, hreached ▸ hrefs, rfl⟩) rfl
  exact ⟨found, hfound, hreached⟩

/-- The ids of a join are the references that all subjects lead to. -/
theorem finds_ids (hlook : ∀ refs ref, (look refs ref).hasTextRefs = true) {c : Chain} {opens : Bool}
    {rest : List String} (href : Referring subjects) {found : List Scoped}
    (hfound : found.map Scoped.reached =
      subjects.map fun v => (c.followed look (subjects.take 1) v).refs opens) :
    ∃ ids, found.foldl (fun ids r => addIds ids (Join.spread r.value)) [] = ids ∧
      Finds (idFilter ids) ids ∧ (∀ id ∈ ids, id ∈ (c.follow opens rest).wanted look subjects) ∧
      ∀ ref ∈ (c.follow opens rest).wanted look subjects, ref = .null ∨ ref ∈ ids := by
  let refs (v : Value) : List Value := ((c.followed look (subjects.take 1) v).refs opens).values
  have htexts : ∀ v ∈ subjects, ∀ ref ∈ refs v, ref = .null ∨ ref.isText = true := fun v hv =>
    Reached.refs_text (Chain.followed_text hlook (href v hv).2.2)
  have hids : found.foldl (fun ids r => addIds ids (Join.spread r.value)) [] =
      subjects.foldl (fun ids v =>
        addIds ids (Join.spread ((c.followed look (subjects.take 1) v).refs opens).value)) [] := by
    have hfold := congrArg
      (List.foldl (fun ids (r : Reached) => addIds ids (Join.spread r.value)) []) hfound
    rw [List.foldl_map, List.foldl_map] at hfold
    simpa only [Scoped.value_reached] using hfold
  obtain ⟨hmem, htext⟩ := @foldl_addIds Value
    (fun v => Join.spread ((c.followed look (subjects.take 1) v).refs opens).value) subjects []
  rw [hids]
  refine ⟨_, rfl, finds_member fun id hid => ?_, fun id hid => ?_, fun ref hrefs => ?_⟩
  · obtain ⟨v, hv, hid, htruthy⟩ := (hmem id hid).resolve_left List.not_mem_nil
    rw [Reached.spread_value (htexts v hv)] at hid
    rcases htexts v hv id hid with rfl | h
    · cases htruthy
    · exact h
  · obtain ⟨v, hv, hid, -⟩ := (hmem id hid).resolve_left List.not_mem_nil
    rw [Reached.spread_value (htexts v hv)] at hid
    exact List.mem_flatMap.mpr ⟨v, hv, hid⟩
  · obtain ⟨v, hv, hrefs⟩ := List.mem_flatMap.mp hrefs
    refine (htexts v hv ref hrefs).imp_right fun h => htext ref h (.inr ⟨v, hv, ?_⟩)
    rw [Reached.spread_value (htexts v hv)]
    exact hrefs

/-- A session that has nothing of a route gets what it asks for when it is first followed. -/
theorem exists_served (hlooks : Looks fetcher look) {keep : Session → Prop}
    (hkeep : KeptByFetching fetcher keep) (hplanned : r.IsPlanned)
    (hnodup : r.sources.Nodup) {first : Value} {others : List Value}
    (href : Referring (first :: others)) (hkept : keep σ)
    (hnew : ∀ id ∈ r.sources, σ.context.source? id = none)
    (hsiblings : Join.siblings? σ.context s = some (first :: others)) {more : List Operation}
    (hmore : r.IsFetchedBefore more) :
    ∃ τ, keep τ ∧ r.Served look τ (first :: others) ∧
      (∀ id, id ∉ r.sources → τ.context.source? id = σ.context.source? id) ∧
      ∀ {last : Scoped} {ρ : Session}, (run fetcher (r.stages ++ more) s).Yields τ last ρ →
        (run fetcher (r.stages ++ more) s).Yields σ last ρ := by
  induction r generalizing σ s first others more with
  | field path => exact ⟨σ, hkept, trivial, fun _ _ => rfl, fun h => h⟩
  | single path id paths =>
    obtain ⟨hfoldable, -⟩ := hmore.resolve_left (List.cons_ne_nil _ _)
    have hfinds := finds_widenEq (wantedIds_text href path)
    have hwanted : (single path id paths).chain.wanted look (first :: others) =
        (first :: others).map (Value.refAt path) := List.map_eq_flatMap.symm
    obtain ⟨response, hresponse, hknows⟩ := hlooks.knows hfinds
      (fun ref hmem => (List.mem_filter.mp hmem).1)
      (fun ref hmem => by
        obtain ⟨v, hv, rfl⟩ := List.mem_map.mp hmem
        exact mem_wantedIds href path hv) σ id
    refine ⟨_, hkeep id hresponse hkept, ?_, fun j hj => source?_fetched_of_ne ?_ _ _,
      yields_fetch_referred (hnew id List.mem_cons_self) hsiblings path ?_ hresponse⟩
    · rw [Served, hwanted]
      exact hknows
    · rintro rfl
      exact hj List.mem_cons_self
    · intro stage hstage
      exact (List.mem_append.mp hstage).elim (isFoldable_attrs paths stage) (hfoldable stage)
  | join before opens id paths ih =>
    obtain ⟨hfoldable, hfilter⟩ := hmore.resolve_left (List.cons_ne_nil _ _)
    obtain ⟨hid, hbefore⟩ := List.nodup_cons.mp hnodup
    obtain ⟨hplanned, hopens⟩ := hplanned
    -- the first of the subjects follows the way to the references, and has no others around it
    have hfirst : Referring [first] := fun v hv =>
      href v (List.mem_singleton.mp hv ▸ List.mem_cons_self)
    obtain ⟨ρ, hkept, hserved, hsame, hstep⟩ := @ih σ (.detached first) hplanned hbefore first []
      hfirst hkept (fun j hj => hnew j (List.mem_cons_of_mem id hj)) rfl (referring opens)
      (isFetchedBefore_referring hopens)
    obtain ⟨found, hfound, hreached⟩ := yields_references_all hlooks.text hserved opens href
    have hall : ((first :: others).mapM fun v =>
        run fetcher (before.stages ++ referring opens) (.detached v)).Yields σ found ρ := by
      rw [List.mapM_cons] at hfound ⊢
      obtain ⟨refs, ρ', hrefs, hrest⟩ := yields_bind.mp hfound
      exact yields_bind.mpr ⟨refs, ρ', hstep hrefs, hrest⟩
    obtain ⟨ids, hids, hfinds, hwanted, hrefs⟩ :=
      @finds_ids _ _ hlooks.text before.chain opens paths.flatten href _ hreached
    obtain ⟨response, hresponse, hknows⟩ := hlooks.knows hfinds hwanted hrefs ρ id
    refine ⟨fetched ρ id (.filtered (idFilter ids)) response, hkeep id hresponse hkept, ⟨?_, hknows⟩,
      fun j hj => ?_, fun {last τ} hrun => ?_⟩
    · refine hserved.congr fun j hj => source?_fetched_of_ne ?_ _ _
      rintro rfl
      exact hid hj
    · have hne : j ≠ id := by
        rintro rfl
        exact hj List.mem_cons_self
      rw [source?_fetched_of_ne hne]
      exact hsame j fun h => hj (List.mem_cons_of_mem id h)
    · subst hids
      have hcompile := @yields_compileStages_join fetcher σ s (paths.map attrs ++ more) _ _ _ ρ
        hsiblings (fun stage h => (List.mem_append.mp h).elim (isFoldable_attrs paths stage)
          (hfoldable stage)) hall
      rw [show (FetchSpec.ofStages (paths.map attrs ++ more)).filter = none from hfilter] at hcompile
      exact yields_run_of_fetched (hnew id List.mem_cons_self) hcompile (yields_finish_ids _)
        hresponse hrun

/-! ## Members -/

/-- A member is evaluated by running its route. -/
theorem yields_operation {mid : Scoped} :
    (exec fetcher r.operation s).Yields σ mid τ ↔ (run fetcher r.stages s).Yields σ mid τ := by
  cases r with
  | field path =>
    have hpath : run fetcher [attrs path] s =
        (exec fetcher (attrs path) s >>= fun input => applyStages fetcher [] input s) := rfl
    rw [stages, hpath]
    simp only [applyStages_nil, yields_bind, yields_pure]
    constructor
    · exact fun h => ⟨mid, τ, h, rfl, rfl⟩
    · rintro ⟨_, _, h, rfl, rfl⟩
      exact h
  | single path id paths => exact yields_pipe
  | join before opens id paths => exact yields_pipe

end Route

/-- A member that leads along a chain, with what the documents around it lead over. -/
def ChainMember.linked (look : List Value → Value → Value) (siblings : List Value)
    (m : ChainMember) : LinkedMember :=
  .assigned m.name m.route.operation m.route.sources
    (fun v => (m.route.chain.followed look siblings v).value) (m.route.Served look · siblings)

namespace Pushdown

/-- A member fetches once what its chain leads over. -/
theorem fetchesOnce_chain {fetcher : Fetcher} {look : List Value → Value → Value}
    {siblings subjects : List Value} {keep : Session → Prop} (hlooks : Looks fetcher look)
    (hkeep : KeptByFetching fetcher keep) (href : Referring siblings)
    (hsubjects : ∀ v ∈ subjects, v ∈ siblings) {m : ChainMember} (hnodup : m.route.sources.Nodup) :
    FetchesOnce fetcher siblings subjects keep (m.linked look siblings) := by
  refine fetchesOnce_assigned (fun h hserved => hserved.congr h)
    (fun {σ s} hkept hnew hsiblings hmem => ?_) fun {σ s} hkept hserved hmem => ?_
  · obtain ⟨first, others, rfl⟩ := List.exists_cons_of_ne_nil (List.ne_nil_of_mem hmem)
    obtain ⟨τ, hkept, hserved, hsame, hstep⟩ := Route.exists_served hlooks hkeep m.planned hnodup href
      hkept hnew hsiblings Route.isFetchedBefore_nil
    rw [List.append_nil] at hstep
    exact ⟨τ, hkept, hserved, hsame, fun hr =>
      Route.yields_operation.mpr (hstep (Route.yields_operation.mp hr))⟩
  · obtain ⟨-, hnull, htext⟩ := href s.value (hsubjects _ hmem)
    obtain ⟨mid, hmid, hreached⟩ := Route.yields_served hlooks.text hserved hnull htext
    exact ⟨mid, σ, Route.yields_operation.mpr hmid,
      mid.value_reached.symm.trans (congrArg Reached.value hreached), hkept, fun _ => rfl⟩

end Pushdown
end DocQuery
