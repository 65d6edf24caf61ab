import DocQuery.Proofs.Engine.Nested
import DocQuery.Proofs.Engine.Paired
import DocQuery.Proofs.Join.Conditions
import Mathlib.Logic.Relation

/-!
# How a session comes about

While plans run, a session changes in two ways: it remembers the references of a document, and it
asks the fetcher for a source. A step of the second kind (`Session.Step.ask`) is one **for a source
that is not at hand**; a refused one leaves nothing but its record.

Fetching is lazy and re-entrant: before a pipeline asks for its source it folds its stages into a
specification, and a map join among them runs pipelines of its own. They read other sources
(`runs_absent`), so the pipeline's source is still missing when it is asked for, and is at hand when
it is read. That is the argument behind `runs_steps`: every run is a sequence of such steps, whatever
the fetcher answers, and no run fails for want of a source.
-/

set_option autoImplicit false

namespace DocQuery

/-! ## Sessions -/

/-- What is kept of an answer. -/
def FetchResponse.data (response : FetchResponse) : SourceData :=
  ⟨response.results.map Value.ofJson, response.start⟩

/-- What a fetch brought, if it was answered. -/
def FetchRecord.data? (record : FetchRecord) : Option SourceData :=
  match record.answer with
  | .ok response => some response.data
  | .error _ => none

namespace Session

variable {fetcher : Fetcher} {σ τ : Session} {id j : SourceId} {spec : FetchSpec} {d : SourceData}

/-- The session in which other references are remembered. -/
def remembering (σ : Session) (references : Fields (List Reference)) : Session :=
  { σ with context := { σ.context with references := references } }

/-- The session after the fetcher has been asked for a source. -/
def asking (σ : Session) (fetcher : Fetcher) (id : SourceId) (spec : FetchSpec) : Session :=
  match fetcher σ.fetches.length spec with
  | .ok response => Engine.fetched σ id spec response
  | .error e => ⟨σ.context, σ.fetches ++ [⟨id, spec, .error e⟩]⟩

/-- A source is asked for only while it is not at hand. -/
inductive Step (fetcher : Fetcher) : Session → Session → Prop
  | remember (σ : Session) (references : Fields (List Reference)) :
    Step fetcher σ (σ.remembering references)
  | ask (σ : Session) (id : SourceId) (spec : FetchSpec) (new : σ.context.source? id = none) :
    Step fetcher σ (σ.asking fetcher id spec)

/-- Any number of steps. -/
abbrev Steps (fetcher : Fetcher) : Session → Session → Prop :=
  Relation.ReflTransGen (Step fetcher)

theorem fetches_asking : (σ.asking fetcher id spec).fetches =
    σ.fetches ++ [⟨id, spec, fetcher σ.fetches.length spec⟩] := by
  unfold asking
  cases fetcher σ.fetches.length spec <;> rfl

theorem source?_asking_of_ne (h : j ≠ id) :
    (σ.asking fetcher id spec).context.source? j = σ.context.source? j := by
  unfold asking
  cases fetcher σ.fetches.length spec with
  | ok response => exact Engine.source?_fetched_of_ne h spec response
  | error e => rfl

/-- A source that was not at hand is afterwards what the fetch brought. -/
theorem source?_asking (new : σ.context.source? id = none) :
    (σ.asking fetcher id spec).context.source? id =
      FetchRecord.data? ⟨id, spec, fetcher σ.fetches.length spec⟩ := by
  unfold asking FetchRecord.data?
  cases fetcher σ.fetches.length spec with
  | ok response => exact Engine.source?_store σ.context id response
  | error e => exact new

/-- What is at hand stays as it is. -/
theorem Step.keeps (h : Step fetcher σ τ) (hid : σ.context.source? id = some d) :
    τ.context.source? id = some d := by
  cases h with
  | remember references => exact hid
  | ask other spec new =>
    have hne : id ≠ other := by
      rintro rfl
      rw [hid] at new
      cases new
    rw [source?_asking_of_ne hne, hid]

theorem Steps.keeps (h : Steps fetcher σ τ) (hid : σ.context.source? id = some d) :
    τ.context.source? id = some d := by
  induction h with
  | refl => exact hid
  | tail _ hstep ih => exact hstep.keeps ih

/-- The records account for what is at hand: it is what the fetches brought, and after one that was
answered its source was not asked for again. -/
structure Accounted (σ : Session) : Prop where
  once : σ.fetches.Pairwise fun earlier later =>
    earlier.data?.isSome = true → later.source ≠ earlier.source
  kept : ∀ id d, σ.context.source? id = some d ↔
    ∃ record ∈ σ.fetches, record.source = id ∧ record.data? = some d

theorem accounted_empty : Accounted .empty := by
  refine ⟨.nil, fun id d => ⟨fun h => ?_, fun h => ?_⟩⟩
  · cases h
  · obtain ⟨_, hmem, -⟩ := h
    cases hmem

theorem Step.accounted (h : Step fetcher σ τ) (hσ : σ.Accounted) : τ.Accounted := by
  cases h with
  | remember references => exact ⟨hσ.once, hσ.kept⟩
  | ask id spec new =>
    have hnone : ∀ record ∈ σ.fetches, record.source = id → record.data? = none := by
      intro record hmem hsource
      cases hdata : record.data? with
      | none => rfl
      | some d =>
        have hknown := (hσ.kept id d).mpr ⟨record, hmem, hsource, hdata⟩
        rw [new] at hknown
        cases hknown
    constructor
    · rw [fetches_asking, List.pairwise_append]
      refine ⟨hσ.once, List.pairwise_singleton _ _, fun earlier hearlier later hlater hdata => ?_⟩
      obtain rfl := List.mem_singleton.mp hlater
      intro hsource
      rw [hnone earlier hearlier hsource.symm] at hdata
      cases hdata
    · intro j d
      rw [fetches_asking]
      simp only [List.mem_append, List.mem_singleton]
      rcases eq_or_ne j id with rfl | hne
      · rw [source?_asking new]
        constructor
        · exact fun hd => ⟨_, .inr rfl, rfl, hd⟩
        · rintro ⟨record, hmem | rfl, hsource, hd⟩
          · rw [hnone record hmem hsource] at hd
            cases hd
          · exact hd
      · rw [source?_asking_of_ne hne, hσ.kept j d]
        constructor
        · rintro ⟨record, hmem, hrecord⟩
          exact ⟨record, .inl hmem, hrecord⟩
        · rintro ⟨record, hmem | rfl, hsource, hd⟩
          · exact ⟨record, hmem, hsource, hd⟩
          · exact absurd hsource.symm hne

theorem Steps.accounted (h : Steps fetcher .empty τ) : τ.Accounted := by
  induction h with
  | refl => exact accounted_empty
  | tail _ hstep ih => exact hstep.accounted ih

end Session

/-! ## Fetching in the middle of a run -/

namespace Run

variable {p q : Pairing} {α β γ δ : Type} {R : α → β → Prop} {S : γ → δ → Prop} {σ ρ : Session}

/-- Two runs that go on from outcomes that go together. -/
theorem Matches.bind {x : Run α} {y : Run β} {f : α → Run γ} {g : β → Run δ}
    (h : Matches p R (x.run.run σ) (y.run.run ρ))
    (hrest : ∀ a b σ' ρ', x.Yields σ a σ' → y.Yields ρ b ρ' → R a b → p.keep σ' ρ' →
      Matches q S ((f a).run.run σ') ((g b).run.run ρ'))
    (hkeep : ∀ σ' ρ', p.keep σ' ρ' → q.keep σ' ρ') (hlenient : p.lenient → q.lenient) :
    Matches q S ((x >>= f).run.run σ) ((y >>= g).run.run ρ) := by
  rw [run_bind, run_bind]
  unfold Yields at hrest
  generalize x.run.run σ = outcome at h hrest
  generalize y.run.run ρ = outcome' at h hrest
  cases h with
  | ok hvalue hsession => exact hrest _ _ _ _ rfl rfl hvalue hsession
  | error hordinary hsession => exact .error hordinary (hkeep _ _ hsession)
  | excused hexcuse => exact .excused (hlenient hexcuse)

/-- One run, and what it keeps. -/
def Pairing.along (keep : Session → Prop) : Pairing := ⟨fun σ ρ => σ = ρ ∧ keep σ, False⟩

end Run

namespace Engine

open Run Operation

variable {fetcher fetcher' : Fetcher} {p : Pairing} {σ ρ : Session} {id : SourceId}

/-- Where the caches are the same, a filter is made independent of the enclosing document alike. -/
theorem tracks_finish (hcontext : ∀ σ ρ, p.keep σ ρ → σ.context = ρ.context) (s : Scope)
    (spec : FetchSpec) : Tracks p Eq (finish s spec) (finish s spec) := by
  unfold finish
  cases spec.filter with
  | none => exact tracks_pure rfl
  | some filter =>
    have hread : Tracks p Eq Run.context Run.context :=
      fun σ ρ hkeep => .ok (hcontext σ ρ hkeep) hkeep
    refine tracks_bind hread fun c _ hc => ?_
    obtain rfl := hc
    refine tracks_bind (tracks_ofExcept fun e he => Join.generalize_error he ▸ rfl)
      fun widened _ hw => ?_
    obtain rfl := hw
    cases widened with
    | none => exact tracks_pure rfl
    | some widened => exact tracks_pure rfl

/-- Asking for references changes nothing else. -/
theorem refersTo_remembers (σ : Session) (subject : Value) (ids : List Value) :
    ∃ references, { σ with context := (σ.context.refersTo subject ids).2 } =
      σ.remembering references := by
  unfold Context.refersTo
  cases Context.documentKey? subject with
  | none => exact ⟨σ.context.references, rfl⟩
  | some key =>
    show ∃ references, { σ with context := (σ.context.referencesOf key subject).2 } = _
    unfold Context.referencesOf
    cases σ.context.references.get? key with
    | none => exact ⟨_, rfl⟩
    | some found => exact ⟨σ.context.references, rfl⟩

section

variable {keep : Session → Prop} {rest : List Operation} {s : Scope}

/-- Asking the fetcher and reading what it answers. -/
theorem along_fetch {R : Scoped → Scoped → Prop} {spec : FetchSpec}
    (hkeep : keep (σ.asking fetcher id spec))
    (hrest : ∀ τ data, keep τ → Matches (.along keep) R
      ((applyStages fetcher rest (.one (sourceScope id s data)) s).run.run τ)
      ((applyStages fetcher rest (.one (sourceScope id s data)) s).run.run τ)) :
    Matches (.along keep) R
      ((Run.fetch fetcher id spec >>= fun _ => readSource fetcher id rest s).run.run σ)
      ((Run.fetch fetcher id spec >>= fun _ => readSource fetcher id rest s).run.run σ) := by
  rw [run_bind, run_fetch]
  unfold Session.asking at hkeep
  cases hanswer : fetcher σ.fetches.length spec with
  | error e =>
    rw [hanswer] at hkeep
    exact .error rfl ⟨rfl, hkeep⟩
  | ok response =>
    rw [hanswer] at hkeep
    have hread := hrest _ ⟨response.results.map Value.ofJson, response.start⟩ hkeep
    rw [← run_readSource (source?_store σ.context id response)] at hread
    exact hread

/-- A pipeline asks for its source at most once: after the stages behind it have been folded, and
not if it is at hand. -/
theorem along_run {R : Scoped → Scoped → Prop} (hσ : keep σ)
    (hcompile : Matches (.along keep) Eq ((compileStages fetcher rest s).run.run σ)
      ((compileStages fetcher rest s).run.run σ))
    (hask : σ.context.source? id = none → ∀ spec τ,
      (compileStages fetcher rest s).Yields σ spec τ → keep τ →
        ∀ spec', keep (τ.asking fetcher id spec'))
    (hrest : ∀ τ data, keep τ → Matches (.along keep) R
      ((applyStages fetcher rest (.one (sourceScope id s data)) s).run.run τ)
      ((applyStages fetcher rest (.one (sourceScope id s data)) s).run.run τ)) :
    Matches (.along keep) R ((run fetcher (.source id :: rest) s).run.run σ)
      ((run fetcher (.source id :: rest) s).run.run σ) := by
  cases hknown : σ.context.source? id with
  | some data =>
    rw [Correlated.run_known hknown]
    exact hrest σ data hσ
  | none =>
    rw [run_new hknown]
    refine hcompile.bind (fun spec _ τ _ hspec _ heq hτ => ?_) (fun _ _ h => h) fun h => h
    obtain rfl := heq
    obtain ⟨rfl, hτ⟩ := hτ
    -- finishing a specification only reads the session
    have hfinish := tracks_finish (p := .along (· = τ)) (fun _ _ h => congrArg Session.context h.1)
      s spec τ τ ⟨rfl, rfl⟩
    refine hfinish.bind (fun spec' _ τ' _ _ _ heq hτ' => ?_) (fun _ _ h => ⟨h.1, h.2 ▸ hτ⟩)
      fun h => h
    obtain rfl := heq
    obtain ⟨rfl, rfl⟩ := hτ'
    exact along_fetch (hask hknown spec τ' hspec hτ spec') hrest

end

/-- **One run keeps whatever remembering and asking keep.** -/
theorem handles_along {keep : Session → Prop} {reads : SourceId → List Operation → Prop}
    (hremember : ∀ σ references, keep σ → keep (σ.remembering references))
    (hask : ∀ id rest s σ spec τ, reads id rest → σ.context.source? id = none →
      (compileStages fetcher rest s).Yields σ spec τ → keep τ →
        ∀ spec', keep (τ.asking fetcher id spec')) :
    Handles (.along keep) fetcher fetcher {} reads := by
  refine ⟨fun _ id rest s t hreads _ hst happly hcompile => ?_, fun _ subject values => ?_,
    fun _ σ ρ hkeep => congrArg Session.context hkeep.1⟩
  · obtain rfl := hst.same rfl
    rintro σ _ ⟨rfl, hσ⟩
    refine along_run hσ (hcompile σ σ ⟨rfl, hσ⟩)
      (fun hnew spec τ => hask id rest s σ spec τ hreads hnew) fun τ data hτ => ?_
    exact happly rest (List.suffix_refl _) _ _ (.refl _) τ τ ⟨rfl, hτ⟩
  · rintro σ _ ⟨rfl, hσ⟩
    obtain ⟨references, hreferences⟩ :=
      refersTo_remembers σ subject (Builtin.referenceIds values)
    have hremembered := hremember σ references hσ
    rw [← hreferences] at hremembered
    exact .ok rfl ⟨rfl, hremembered⟩

/-! ## Runs as steps -/

/-- What reads from other sources leaves a source missing. -/
theorem handles_absent (fetcher : Fetcher) (id : SourceId) :
    Handles (.along fun σ => σ.context.source? id = none) fetcher fetcher {}
      fun other _ => other ≠ id :=
  handles_along (fun _ _ h => h) fun _ _ _ _ _ _ hother _ _ hτ _ =>
    (Session.source?_asking_of_ne hother.symm).trans hτ

/-- Folding stages that do not read from a source leaves it missing. -/
theorem absent_compileStages {rest : List Operation} (h : Avoids {} id rest) {s : Scope}
    (hnew : σ.context.source? id = none) {spec : FetchSpec} {τ : Session}
    (hcompile : (compileStages fetcher rest s).Yields σ spec τ) :
    τ.context.source? id = none := by
  have hrun := tracks_compileStages (handles_absent fetcher id) rest h (.refl s) σ σ ⟨rfl, hnew⟩
  rw [hcompile] at hrun
  cases hrun with
  | ok _ hkeep => exact hkeep.2

/-- **Runs are sequences of steps**, in which a source is asked for only while it is missing. -/
theorem handles_steps (fetcher : Fetcher) (σ₀ : Session) :
    Handles (.along (Session.Steps fetcher σ₀)) fetcher fetcher {} (Avoids {}) :=
  handles_along (fun σ references h => h.tail (.remember σ references))
    fun id _ _ _ _ τ havoids hnew hcompile hτ spec' =>
      hτ.tail (.ask τ id spec' (absent_compileStages havoids hnew hcompile))

end Engine
end DocQuery
