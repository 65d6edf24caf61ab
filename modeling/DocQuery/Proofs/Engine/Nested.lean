import DocQuery.Proofs.Engine.Correlated

/-!
# Nested pipelines

A projection with a nested pipeline (`{"k": *[F]}`) looks, for each item, among the documents of the
pipeline's source. The first item fetches them, and every later one finds them in the session.

So a nested pipeline runs **as if what it fetches had been there before** (`run_as_fetched`): only
the session that the fetch leaves matters, and there every item selects from the same documents
(`comesTo_projection`). What has been fetched for the first item is all that the others get
(`exists_projected_iff_found`).
-/

set_option autoImplicit false

namespace DocQuery

namespace Run

variable {α β γ δ : Type} {keep : Session → Prop} {σ τ ρ : Session}

theorem run_bind (x : Run α) (f : α → Run β) (σ : Session) : (x >>= f).run.run σ =
    StateT.run (ExceptT.bindCont f (x.run.run σ).1) (x.run.run σ).2 := rfl

/-- Behind a step that yields something, only what it yields matters. -/
theorem run_bind_of_yields {x : Run α} {a : α} (h : x.Yields σ a ρ) (f : α → Run β) :
    (x >>= f).run.run σ = (f a).run.run ρ := by
  rw [run_bind, h]
  rfl

/-- Where the first step runs alike in two sessions, so does everything. -/
theorem run_bind_congr {x : Run α} (h : x.run.run σ = x.run.run τ) (f : α → Run β) :
    (x >>= f).run.run σ = (x >>= f).run.run τ := by
  rw [run_bind, run_bind, h]

/-- When a run that comes to `e` yields something: when `e` is something. -/
theorem exists_yields_iff {view : α → β} {x : Run α} {e : Except ExecError β}
    (h : ∃ r τ, x.run.run σ = (r, τ) ∧ r.map view = e) {P : β → Prop} :
    (∃ a τ, x.Yields σ a τ ∧ P (view a)) ↔ ∃ b, e = .ok b ∧ P b := by
  obtain ⟨r, τ, hrun, rfl⟩ := h
  cases r with
  | error err =>
    constructor
    · rintro ⟨a, τ', ha, -⟩
      rw [Yields, hrun] at ha
      cases ha
    · rintro ⟨b, hb, -⟩
      cases hb
  | ok a =>
    constructor
    · rintro ⟨a', τ', ha, hP⟩
      rw [Yields, hrun] at ha
      cases ha
      exact ⟨view a, rfl, hP⟩
    · rintro ⟨b, hb, hP⟩
      cases hb
      exact ⟨a, τ, hrun, hP⟩

theorem comesTo_mapM {view : β → δ} {f : α → Run β} {g : α → Except ExecError δ} {xs : List α}
    (h : ∀ x ∈ xs, ComesTo keep view (f x) (g x)) :
    ComesTo keep (List.map view) (xs.mapM f) (xs.mapM g) := by
  induction xs with
  | nil => exact comesTo_pure _ []
  | cons x xs ih =>
    have hxs := ih fun y hy => h y (List.mem_cons_of_mem x hy)
    rw [List.mapM_cons, List.mapM_cons]
    refine comesTo_bind (h x List.mem_cons_self) fun y _ => ?_
    exact comesTo_bind hxs fun ys _ => comesTo_pure (List.map view) (y :: ys)

end Run

namespace Engine

open Run

variable {fetcher : Fetcher} {σ : Session} {id : SourceId}

theorem run_new {rest : List Operation} {s : Scope} (h : σ.context.source? id = none) :
    (run fetcher (.source id :: rest) s).run.run σ = (do
      let spec ← compileStages fetcher rest s
      let spec ← finish s spec
      Run.fetch fetcher id spec
      readSource fetcher id rest s).run.run σ := by
  have hhas : σ.context.hasSource id = false := by
    rw [Context.hasSource, h]
    rfl
  rw [run_source, run_bind_of_yields (yields_context.mpr ⟨rfl, rfl⟩), hhas]
  rfl

theorem run_readSource {rest : List Operation} {s : Scope} {data : SourceData}
    (h : σ.context.source? id = some data) : (readSource fetcher id rest s).run.run σ =
      (applyStages fetcher rest (.one (sourceScope id s data)) s).run.run σ :=
  run_bind_of_yields (yields_source.mpr ⟨data, h, rfl, rfl⟩) _

end Engine

namespace Correlated

open Operation Engine Run

/-! ## Selecting -/

/-- Whether a condition is exactly `true` at a value within another one. -/
def holds (outer : Value) (condition : Operation) (v : Value) : Bool :=
  match eval outer condition v with
  | .ok w => w.same (.bool true)
  | .error _ => false

/-- The values for which a condition is exactly `true`. It fails where the condition does. -/
def select (outer : Value) (condition : Operation) : List Value → Except ExecError (List Value)
  | [] => .ok []
  | v :: vs => do
    let w ← eval outer condition v
    let rest ← select outer condition vs
    return if w.same (.bool true) then v :: rest else rest

section

variable {outer v : Value} {condition : Operation} {vs ws : List Value}

theorem holds_iff : holds outer condition v = true ↔ eval outer condition v = .ok (.bool true) := by
  unfold holds
  cases eval outer condition v with
  | error e => simp
  | ok w =>
    rw [Except.ok.injEq]
    exact Value.same_true

theorem holds_eq {b : Bool} (h : eval outer condition v = .ok (.bool b)) :
    holds outer condition v = b := by
  rw [holds, h]
  exact beq_true b

theorem select_eq_ok : select outer condition vs = .ok ws ↔
    (∀ v ∈ vs, ∃ w, eval outer condition v = .ok w) ∧ ws = vs.filter (holds outer condition) := by
  induction vs generalizing ws with
  | nil => simp [select, eq_comm]
  | cons v vs ih =>
    rw [select, List.forall_mem_cons, List.filter_cons, holds]
    cases heval : eval outer condition v with
    | error e => simp [bind, Except.bind]
    | ok w =>
      cases hrest : select outer condition vs with
      | error e =>
        have hnone := fun ws => (not_congr (@ih ws)).mp (by rw [hrest]; simp)
        simpa [bind, Except.bind] using fun hall => (hnone _ ⟨hall, rfl⟩).elim
      | ok rest =>
        obtain ⟨hall, rfl⟩ := ih.mp hrest
        show Except.ok _ = Except.ok ws ↔ _
        rw [Except.ok.injEq]
        exact ⟨fun h => ⟨⟨⟨w, rfl⟩, hall⟩, h.symm⟩, fun h => h.2.symm⟩

end

/-! ## Running -/

variable {fetcher : Fetcher} {keep : Session → Prop} {s base : Scope} {σ ρ ρ' : Session}
  {functions : Function → Bool} {condition : Operation} {id : SourceId} {data : SourceData}

theorem comesTo_keepScopes {outer : Value} (hcondition : condition.within isInnerOrOuter functions = true)
    {items : List Scope} (houter : ∀ t ∈ items, outerOf t = outer)
    (hkeep : functions .references = true → ∀ t ∈ items, Session.Faithful keep t.value) :
    ComesTo keep (List.map (·.value)) (keepScopes (fun t => exec fetcher condition t) items)
      (select outer condition (items.map (·.value))) := by
  induction items with
  | nil => exact comesTo_pure _ []
  | cons t items ih =>
    have hitems := ih (fun u hu => houter u (List.mem_cons_of_mem t hu))
      fun hreferences u hu => hkeep hreferences u (List.mem_cons_of_mem t hu)
    have ht := @comesTo_exec fetcher keep t functions
      (fun hreferences => hkeep hreferences t List.mem_cons_self) condition hcondition
    rw [houter t List.mem_cons_self] at ht
    rw [keepScopes, List.map_cons, select]
    refine comesTo_bind ht fun verdict _ => comesTo_bind hitems fun rest _ => ?_
    split
    · exact comesTo_pure (List.map (·.value)) (t :: rest)
    · exact comesTo_pure (List.map (·.value)) rest

/-- A pipeline whose source is at hand applies its stages to it, also where these fail. -/
theorem run_known {rest : List Operation} (h : σ.context.source? id = some data) :
    (run fetcher (.source id :: rest) s).run.run σ =
      (applyStages fetcher rest (.one (sourceScope id s data)) s).run.run σ := by
  have hhas : σ.context.hasSource id = true := by
    rw [Context.hasSource, h]
    rfl
  rw [run_source, run_bind_of_yields (yields_context.mpr ⟨rfl, rfl⟩), hhas]
  exact run_bind_of_yields (yields_source.mpr ⟨data, h, rfl, rfl⟩) _

/-- **A pipeline that fetches runs as if what it fetches had been there before.** -/
theorem run_as_fetched {rest : List Operation} {spec spec' : FetchSpec} {response : FetchResponse}
    (hnew : σ.context.source? id = none)
    (hcompile : (compileStages fetcher rest s).Yields σ spec ρ)
    (hfinish : (finish s spec).Yields ρ spec' ρ')
    (hfetch : fetcher ρ'.fetches.length spec' = .ok response) :
    (run fetcher (.source id :: rest) s).run.run σ =
      (run fetcher (.source id :: rest) s).run.run (fetched ρ' id spec' response) := by
  have hsource : (fetched ρ' id spec' response).context.source? id = some
      ⟨response.results.map Value.ofJson, response.start⟩ := source?_store ρ'.context id response
  rw [run_known hsource, run_new hnew, run_bind_of_yields hcompile, run_bind_of_yields hfinish,
    run_bind_of_yields (yields_fetch (u := ()) |>.mpr ⟨response, hfetch, rfl⟩)]
  exact run_readSource hsource

/-- A filter behind a source that is at hand selects among its documents. -/
theorem comesTo_run_filter (hknown : ∀ σ, keep σ → σ.context.source? id = some data)
    (hcondition : condition.within isInnerOrOuter functions = true)
    (hkeep : functions .references = true → ∀ v ∈ data.documents, Session.Faithful keep v) :
    ComesTo keep Scoped.value (run fetcher [.source id, .filter condition] s)
      ((select s.value condition data.documents).map .array) := by
  have hcandidates : (Scoped.one (sourceScope id s data)).candidates =
      (Scoped.elementsOf (sourceScope id s data) data.documents, data.start) := rfl
  have hvalues : (Scoped.elementsOf (sourceScope id s data) data.documents).map (·.value) =
      data.documents := by
    rw [Scoped.elementsOf, List.map_map]
    exact List.map_id _
  have hkept := @comesTo_keepScopes fetcher keep functions condition s.value hcondition
    (Scoped.elementsOf (sourceScope id s data) data.documents)
    (fun t ht => by
      obtain ⟨v, -, rfl⟩ := List.mem_map.mp ht
      rfl)
    (fun hreferences t ht => by
      obtain ⟨v, hv, rfl⟩ := List.mem_map.mp ht
      exact hkeep hreferences v hv)
  rw [hvalues] at hkept
  intro σ hσ
  rw [run_known (hknown σ hσ), applyStages_cons]
  have hfilter : ComesTo keep Scoped.value
      (filterScopes (fun t => exec fetcher condition t) (.one (sourceScope id s data)))
      ((select s.value condition data.documents).map .array) := by
    unfold filterScopes
    rw [hcandidates]
    have hmap : (select s.value condition data.documents).map Value.array =
        select s.value condition data.documents >>= fun vs => .ok (.array vs) := by
      cases select s.value condition data.documents <;> rfl
    rw [hmap]
    exact comesTo_bind hkept fun kept _ => comesTo_pure Scoped.value (.many kept data.start)
  exact comesTo_map hfilter (fun r => r) (fun _ => rfl) σ hσ

/-! ## Projections -/

end Correlated

/-- A projection to the documents that a nested filter keeps. -/
def Operation.joined (name : String) (id : SourceId) (condition : Operation)
    (label : Option String) : Operation :=
  .object [.assignment name (.pipe [.source id, .filter condition] label)]

namespace Correlated

open Operation Engine Run

/-- What such a projection gives for a value. -/
def joined (name : String) (condition : Operation) (documents : List Value) (v : Value) :
    Except ExecError Value :=
  (select v condition documents).map fun kept => .object [(name, .array kept)]

/-- What it gives where the condition has a value at every document. -/
def hits (name : String) (condition : Operation) (documents : List Value) (v : Value) : Value :=
  .object [(name, .array (documents.filter (holds v condition)))]

theorem joined_eq_ok {name : String} {condition : Operation} {documents : List Value} {v w : Value} :
    joined name condition documents v = .ok w ↔
      (∀ d ∈ documents, ∃ w, eval v condition d = .ok w) ∧ w = hits name condition documents v := by
  unfold joined
  cases hselect : select v condition documents with
  | error e =>
    have hnone : ¬∀ d ∈ documents, ∃ w, eval v condition d = .ok w := fun hall => by
      rw [select_eq_ok.mpr ⟨hall, rfl⟩] at hselect
      cases hselect
    exact ⟨fun h => (nomatch h), fun h => absurd h.1 hnone⟩
  | ok kept =>
    obtain ⟨hall, rfl⟩ := select_eq_ok.mp hselect
    show Except.ok _ = Except.ok w ↔ _
    rw [Except.ok.injEq]
    exact ⟨fun h => ⟨hall, h.symm⟩, fun h => h.2.symm⟩

theorem mapM_joined_eq_ok {α : Type} {name : String} {condition : Operation}
    {documents : List Value} {f : α → Value} {xs : List α} {ws : List Value} :
    (xs.mapM fun x => joined name condition documents (f x)) = .ok ws ↔
      (∀ x ∈ xs, ∀ d ∈ documents, ∃ w, eval (f x) condition d = .ok w) ∧
        ws = xs.map fun x => hits name condition documents (f x) := by
  induction xs generalizing ws with
  | nil => simp [pure, Except.pure, eq_comm]
  | cons x xs ih =>
    rw [List.mapM_cons, List.forall_mem_cons, List.map_cons]
    constructor
    · intro h
      obtain ⟨w, hw, h⟩ := exists_of_bind_eq_ok h
      obtain ⟨rest, hrest, h⟩ := exists_of_bind_eq_ok h
      cases h
      obtain ⟨hx, rfl⟩ := joined_eq_ok.mp hw
      obtain ⟨hxs, rfl⟩ := ih.mp hrest
      exact ⟨⟨hx, hxs⟩, rfl⟩
    · rintro ⟨⟨hx, hxs⟩, rfl⟩
      rw [joined_eq_ok.mpr ⟨hx, rfl⟩, ih.mpr ⟨hxs, rfl⟩]
      rfl

/-- A projection succeeds where the condition has a value at every document for every item. -/
theorem exists_projected_iff {x : Run Scoped} {σ : Session} {name : String} {condition : Operation}
    {documents : List Value} {items : List Scope}
    (h : ∃ r τ, x.run.run σ = (r, τ) ∧ r.map Scoped.value =
      (items.mapM fun t => joined name condition documents t.value).map .array)
    {P : Value → Prop} :
    (∃ r τ, x.Yields σ r τ ∧ P r.value) ↔
      (∀ t ∈ items, ∀ d ∈ documents, ∃ w, eval t.value condition d = .ok w) ∧
        P (.array (items.map fun t => hits name condition documents t.value)) := by
  rw [exists_yields_iff h]
  cases hitems : items.mapM fun t => joined name condition documents t.value with
  | error e =>
    constructor
    · rintro ⟨v, hv, -⟩
      cases hv
    · rintro ⟨hall, -⟩
      rw [mapM_joined_eq_ok.mpr ⟨hall, rfl⟩] at hitems
      cases hitems
  | ok ws =>
    obtain ⟨hall, rfl⟩ := mapM_joined_eq_ok.mp hitems
    constructor
    · rintro ⟨v, hv, hP⟩
      cases hv
      exact ⟨hall, hP⟩
    · rintro ⟨-, hP⟩
      exact ⟨_, rfl, hP⟩

variable {fetcher : Fetcher} {keep : Session → Prop} {s base : Scope} {σ ρ ρ' : Session}
  {functions : Function → Bool} {condition : Operation} {id : SourceId} {data : SourceData}
  {name : String} {label : Option String}

theorem comesTo_joined (hknown : ∀ σ, keep σ → σ.context.source? id = some data)
    (hcondition : condition.within isInnerOrOuter functions = true)
    (hkeep : functions .references = true → ∀ v ∈ data.documents, Session.Faithful keep v) :
    ComesTo keep Scoped.value (exec fetcher (.joined name id condition label) s)
      (joined name condition data.documents s.value) := by
  have hrun := @comesTo_run_filter fetcher keep s functions condition id data hknown hcondition hkeep
  have hjoined : joined name condition data.documents s.value =
      ((select s.value condition data.documents).map .array >>= fun v =>
        .ok (if v.isNull then [] else Fields.insert [] name v)) >>= fun fields =>
          .ok (.object fields) := by
    unfold joined
    cases select s.value condition data.documents <;> rfl
  rw [hjoined, Operation.joined, exec_object]
  refine @comesTo_bind _ _ _ _ keep (fun fields => fields) _ _ _ _ _ ?_ fun fields _ =>
    comesTo_pure Scoped.value _
  rw [execMembers_assignment]
  exact comesTo_bind hrun fun r _ => comesTo_pure (fun fields => fields) _

/-- Every item selects among the same documents. -/
theorem comesTo_projection (hknown : ∀ σ, keep σ → σ.context.source? id = some data)
    (hcondition : condition.within isInnerOrOuter functions = true)
    (hkeep : functions .references = true → ∀ v ∈ data.documents, Session.Faithful keep v)
    (items : List Scope) (start : Nat) :
    ComesTo keep Scoped.value
      (applyStages fetcher [.joined name id condition label] (.many items start) base)
      ((items.mapM fun t => joined name condition data.documents t.value).map .array) := by
  have hitem : ∀ t ∈ items, ComesTo keep (·.value)
      (exec fetcher (.joined name id condition label) t >>= fun a => pure (a.collapse t))
      (joined name condition data.documents t.value) := fun t _ =>
    comesTo_map (comesTo_joined hknown hcondition hkeep) (·.collapse t) fun a => by cases a <;> rfl
  have hmap : (items.mapM fun t => joined name condition data.documents t.value).map Value.array =
      (items.mapM fun t => joined name condition data.documents t.value) >>= fun vs =>
        .ok (.array vs) := by
    cases items.mapM fun t => joined name condition data.documents t.value <;> rfl
  rw [hmap]
  exact comesTo_map (comesTo_bind (comesTo_mapM hitem) fun projected _ =>
    comesTo_pure Scoped.value (.many projected start)) (fun r => r) fun _ => rfl

/-- A joined value fetches for itself. -/
theorem joined_as_fetched {spec spec' : FetchSpec} {response : FetchResponse}
    (hnew : σ.context.source? id = none)
    (hcompile : (compileStages fetcher [.filter condition] s).Yields σ spec ρ)
    (hfinish : (finish s spec).Yields ρ spec' ρ')
    (hfetch : fetcher ρ'.fetches.length spec' = .ok response) :
    (exec fetcher (.joined name id condition label) s).run.run σ =
      (exec fetcher (.joined name id condition label) s).run.run (fetched ρ' id spec' response) := by
  have hrun := run_as_fetched hnew hcompile hfinish hfetch
  rw [Operation.joined, exec_object, execMembers_assignment]
  exact run_bind_congr (run_bind_congr hrun _) _

/-- The first item fetches for all. -/
theorem projection_as_fetched {spec spec' : FetchSpec} {response : FetchResponse}
    (hnew : σ.context.source? id = none)
    (hcompile : (compileStages fetcher [.filter condition] s).Yields σ spec ρ)
    (hfinish : (finish s spec).Yields ρ spec' ρ')
    (hfetch : fetcher ρ'.fetches.length spec' = .ok response) (items : List Scope) (start : Nat) :
    (applyStages fetcher [.joined name id condition label] (.many (s :: items) start) base).run.run
        σ =
      (applyStages fetcher [.joined name id condition label] (.many (s :: items) start) base).run.run
        (fetched ρ' id spec' response) := by
  rw [applyStages_cons]
  refine run_bind_congr (run_bind_congr ?_ _) _
  rw [List.mapM_cons]
  exact run_bind_congr (run_bind_congr (joined_as_fetched hnew hcompile hfinish hfetch) _) _

/-- **The documents fetched for the first item serve all of them.** -/
theorem run_projection {spec spec' : FetchSpec} {response : FetchResponse}
    (hnew : σ.context.source? id = none)
    (hcompile : (compileStages fetcher [.filter condition] s).Yields σ spec ρ)
    (hfinish : (finish s spec).Yields ρ spec' ρ')
    (hfetch : fetcher ρ'.fetches.length spec' = .ok response)
    (hkept : keep (fetched ρ' id spec' response))
    (hknown : ∀ σ, keep σ →
      σ.context.source? id = some ⟨response.results.map .ofJson, response.start⟩)
    (hcondition : condition.within isInnerOrOuter functions = true)
    (hkeep : functions .references = true →
      ∀ v ∈ response.results.map Value.ofJson, Session.Faithful keep v)
    (items : List Scope) (start : Nat) :
    ∃ r τ, (applyStages fetcher [.joined name id condition label]
        (.many (s :: items) start) base).run.run σ = (r, τ) ∧
      r.map Scoped.value = ((s :: items).mapM fun t =>
        joined name condition (response.results.map .ofJson) t.value).map .array := by
  obtain ⟨r, τ, hrun, hr, -⟩ := @comesTo_projection fetcher keep base functions condition id _ name
    label hknown hcondition hkeep (s :: items) start _ hkept
  exact ⟨r, τ, (projection_as_fetched hnew hcompile hfinish hfetch items start).trans hrun, hr⟩

theorem yields_compile_filter :
    (compileStages fetcher [.filter condition] s).Yields σ (.filtered condition) σ :=
  yields_pure.mpr ⟨rfl, rfl⟩

/-- A value is joined where the condition has a value at every document that is fetched for it. -/
theorem exists_joined_iff_found {spec : FetchSpec} {response : FetchResponse} {P : Value → Prop}
    (hnew : σ.context.source? id = none)
    (hfinish : (finish s (.filtered condition)).Yields σ spec σ)
    (hfetch : fetcher σ.fetches.length spec = .ok response)
    (hcondition : condition.within isInnerOrOuter (fun _ => false) = true) :
    (∃ r τ, (exec fetcher (.joined name id condition label) s).Yields σ r τ ∧ P r.value) ↔
      (∀ d ∈ response.results.map .ofJson, ∃ w, eval s.value condition d = .ok w) ∧
        P (hits name condition (response.results.map .ofJson) s.value) := by
  have hjoined := @comesTo_joined fetcher
    (fun ρ => ρ.context.source? id = some ⟨response.results.map .ofJson, response.start⟩) s
    (fun _ => false) condition id _ name label (fun _ h => h) hcondition nofun
  obtain ⟨r, τ, hrun, hr, -⟩ := hjoined (fetched σ id spec response) (source?_store _ _ _)
  have hrun := (joined_as_fetched hnew yields_compile_filter hfinish hfetch).trans hrun
  rw [exists_yields_iff ⟨r, τ, hrun, hr⟩]
  simp only [joined_eq_ok]
  constructor
  · rintro ⟨_, ⟨hall, rfl⟩, hP⟩
    exact ⟨hall, hP⟩
  · rintro ⟨hall, hP⟩
    exact ⟨_, ⟨hall, rfl⟩, hP⟩

/-- So a projection succeeds where the condition has a value for every item at every document that is
fetched for the first of them. -/
theorem exists_projected_iff_found {items : List Scope} {found : List Value} {start : Nat}
    {P : Value → Prop} (hnew : σ.context.source? id = none)
    (hfetch : ∀ first ∈ items.head?, ∃ spec response,
      (finish first (.filtered condition)).Yields σ spec σ ∧
      fetcher σ.fetches.length spec = .ok response ∧ response.results.map .ofJson = found ∧
      ∃ keep : Session → Prop, keep (fetched σ id spec response) ∧
        (∀ ρ, keep ρ → ρ.context.source? id = some ⟨found, response.start⟩) ∧
        (functions .references = true → ∀ v ∈ found, Session.Faithful keep v))
    (hcondition : condition.within isInnerOrOuter functions = true) :
    (∃ r τ, (applyStages fetcher [.joined name id condition label] (.many items start) base).Yields
        σ r τ ∧ P r.value) ↔
      (∀ t ∈ items, ∀ d ∈ found, ∃ w, eval t.value condition d = .ok w) ∧
        P (.array (items.map fun t => hits name condition found t.value)) := by
  refine exists_projected_iff ?_
  cases items with
  | nil => exact ⟨_, _, rfl, rfl⟩
  | cons first items =>
    obtain ⟨spec, response, hfinish, hresponse, rfl, keep, hkept, hknown, hkeep⟩ := hfetch first rfl
    exact run_projection hnew yields_compile_filter hfinish hresponse hkept hknown hcondition hkeep
      items start

end Correlated
end DocQuery
