import DocQuery.Proofs.Engine.Fetching
import DocQuery.Proofs.Engine.Quiet
import DocQuery.Proofs.Engine.Uncut

/-!
# Full scans

A fetcher that gives all documents whatever it is asked for makes specifications irrelevant: two
runs over it that fold different specifications still read the same, as long as the filters that they
fold are the same, since these are all that finishing a specification can fail by
(`FetchSpec.AlikeButWindow`).

**A window behind a pipeline is then a window of what the pipeline gives without it**
(`tracks_exec_subscript`): it changes what is fetched by, and nothing else.
-/

set_option autoImplicit false

namespace DocQuery

/-- Specifications that differ at most in their windows. -/
structure FetchSpec.AlikeButWindow (a b : FetchSpec) : Prop where
  filter : a.filter = b.filter
  ordering : a.ordering = b.ordering

namespace FetchSpec.AlikeButWindow

variable {a b : FetchSpec}

theorem refl (a : FetchSpec) : AlikeButWindow a a := ⟨rfl, rfl⟩

theorem hasConstraints (h : AlikeButWindow a b) : a.hasConstraints = b.hasConstraints := by
  rw [FetchSpec.hasConstraints, FetchSpec.hasConstraints, h.filter, h.ordering]

theorem applyFilter (h : AlikeButWindow a b) (condition : Operation) :
    AlikeButWindow (a.applyFilter condition) (b.applyFilter condition) := by
  refine ⟨?_, h.ordering⟩
  simp only [FetchSpec.applyFilter, h.filter]

theorem applyOrdering (h : AlikeButWindow a b) (terms : List SortTerm) :
    AlikeButWindow (a.applyOrdering terms) (b.applyOrdering terms) :=
  ⟨h.filter, congrArg (· ++ terms) h.ordering⟩

theorem project (h : AlikeButWindow a b) : AlikeButWindow a.project b.project := by
  unfold FetchSpec.project
  rw [h.hasConstraints]
  split
  · exact refl _
  · exact h

/-- A window takes a filter or an ordering behind it away, whatever window is behind it. -/
theorem applySubscript (a b : FetchSpec) (w : Subscript) :
    AlikeButWindow (a.applySubscript w) (b.applySubscript w) := by
  have ha := isWindow_applySubscript a w
  have hb := isWindow_applySubscript b w
  exact ⟨ha.filter.trans hb.filter.symm, ha.ordering.trans hb.ordering.symm⟩

end FetchSpec.AlikeButWindow

namespace Engine

open Run Operation

/-- Sessions with the same caches. -/
def sameCaches : Pairing := ⟨fun σ ρ => σ.context = ρ.context, False⟩

variable {documents : List Json} {s : Scope} {σ τ : Session} {r : Scoped}

theorem tracks_sameCaches : Tracks sameCaches Eq Run.context Run.context :=
  fun _ _ hkeep => .ok hkeep hkeep

theorem tracks_finish_scan {spec spec' : FetchSpec} (h : spec.AlikeButWindow spec') (s : Scope) :
    Tracks sameCaches (fun _ _ => True) (finish s spec) (finish s spec') := by
  unfold finish
  rw [← h.filter]
  cases spec.filter with
  | none => exact tracks_pure trivial
  | some filter =>
    refine tracks_bind tracks_sameCaches fun c _ hc => ?_
    obtain rfl := hc
    refine tracks_bind (tracks_ofExcept fun e he => Join.generalize_error he ▸ rfl)
      fun widened _ hw => ?_
    obtain rfl := hw
    cases widened <;> exact tracks_pure trivial

/-- Whatever is asked for, all documents are read. -/
theorem run_fetch_scan (id : SourceId) (rest : List Operation) (spec : FetchSpec) (σ : Session) :
    (Run.fetch (.fullScan documents) id spec >>= fun _ =>
        readSource (.fullScan documents) id rest s).run.run σ =
      (applyStages (.fullScan documents) rest
        (.one (sourceScope id s ⟨documents.map Value.ofJson, 0⟩)) s).run.run
          (fetched σ id spec (.ofResults documents)) := by
  have hfetch : (Run.fetch (.fullScan documents) id spec).Yields σ ()
      (fetched σ id spec (.ofResults documents)) := yields_fetch.mpr ⟨_, rfl, rfl⟩
  rw [run_bind_of_yields hfetch]
  exact run_readSource (source?_store σ.context id (.ofResults documents))

/-- What is read from a source over a full scan does not depend on what it was fetched by. -/
theorem tracks_run_scan {R : Scoped → Scoped → Prop} {id : SourceId} {rest rest' : List Operation}
    (hcompile : Tracks sameCaches FetchSpec.AlikeButWindow
      (compileStages (.fullScan documents) rest s) (compileStages (.fullScan documents) rest' s))
    (happly : ∀ input, Tracks sameCaches R (applyStages (.fullScan documents) rest input s)
      (applyStages (.fullScan documents) rest' input s)) :
    Tracks sameCaches R (run (.fullScan documents) (.source id :: rest) s)
      (run (.fullScan documents) (.source id :: rest') s) := by
  intro σ ρ hkeep
  have hsame : σ.context = ρ.context := hkeep
  cases hknown : σ.context.source? id with
  | some data =>
    rw [Correlated.run_known hknown, Correlated.run_known (hsame ▸ hknown)]
    exact happly _ σ ρ hkeep
  | none =>
    rw [run_new hknown, run_new (hsame ▸ hknown)]
    refine (hcompile σ ρ hkeep).bind (fun spec spec' σ ρ _ _ hspec hkeep => ?_) (fun _ _ h => h)
      fun h => h
    have hfinish := tracks_finish_scan hspec s σ ρ hkeep
    refine hfinish.bind (fun spec spec' σ ρ _ _ _ hkeep => ?_) (fun _ _ h => h) fun h => h
    rw [run_fetch_scan, run_fetch_scan]
    refine happly _ _ _ ?_
    show σ.context.store id _ = ρ.context.store id _
    rw [show σ.context = ρ.context from hkeep]

theorem handles_scan (documents : List Json) :
    Handles sameCaches (.fullScan documents) (.fullScan documents) {} Planner.anySource where
  source _ id rest s t _ _ hst happly hcompile := by
    obtain rfl := hst.same rfl
    refine tracks_run_scan (hcompile.imp fun spec _ hspec => hspec ▸ .refl spec) fun input => ?_
    exact happly rest (List.suffix_refl _) input input (.refl input)
  references _ subject values := by
    intro σ ρ hkeep
    have hsame : σ.context = ρ.context := hkeep
    have hcall : ∀ σ : Session, (Builtin.call .references subject values).run.run σ =
        (.ok (.bool (σ.context.refersTo subject (Builtin.referenceIds values)).1),
          { σ with context := (σ.context.refersTo subject (Builtin.referenceIds values)).2 }) :=
      fun _ => rfl
    rw [hcall, hcall, hsame]
    exact .ok rfl rfl
  context _ _ _ h := h

/-- A window behind stages adds a window to what they fold, and nothing else. -/
theorem tracks_compile_subscript (w : Subscript) : ∀ {stages : List Operation},
    ConformsAll {} Planner.anySource stages → ∀ s : Scope,
      Tracks sameCaches FetchSpec.AlikeButWindow (compileStages (.fullScan documents) stages s)
        (compileStages (.fullScan documents) (stages ++ [.subscript w]) s)
  | [], _, s => by
    have hwindow := FetchSpec.isWindow_applySubscript .everything w
    exact tracks_pure ⟨hwindow.filter.symm, hwindow.ordering.symm⟩
  | stage :: rest, ⟨hstage, hrest⟩, s => by
    rw [List.cons_append, compileStages_eq_bind, compileStages_eq_bind]
    refine tracks_bind (tracks_compile_subscript w hrest s) fun spec spec' hspec => ?_
    cases stage with
    | filter condition => exact tracks_pure (hspec.applyFilter condition)
    | ordering terms => exact tracks_pure (hspec.applyOrdering terms)
    | subscript w' => exact tracks_pure (.applySubscript spec spec' w')
    | mapJoin stages =>
      obtain ⟨-, -, hstages⟩ := hstage
      have hrun := fun v => tracks_run (handles_scan documents) stages hstages (.refl (.detached v))
      refine tracks_bind tracks_sameCaches fun c _ hc => ?_
      obtain rfl := hc
      rw [hspec.filter]
      exact (tracks_joinIds hrun _ _).imp fun spec _ heq => heq ▸ .refl spec
    | object _ | accessor _ | array _ | pipe _ _ | call _ _ | literal _ | binary _ _ _ | not _ =>
      exact tracks_pure hspec.project
    | _ => exact tracks_throw rfl

/-- **A window behind an operation is a window of its result**, over a full scan. -/
theorem tracks_exec_subscript {o : Operation} (h : o.Conforms {} Planner.anySource)
    (hstages : ∀ name, o ≠ .pipe [] name) (w : Subscript) (s : Scope) :
    Tracks sameCaches (fun r r' => r' = r.subscript w) (exec (.fullScan documents) o s)
      (exec (.fullScan documents) (Planner.pipeInto o (.subscript w)) s) := by
  have hscan := handles_scan documents
  have happly : ∀ {rest : List Operation}, ConformsAll {} Planner.anySource rest → ∀ input : Scoped,
      Tracks sameCaches (fun r r' => r' = r.subscript w)
        (applyStages (.fullScan documents) rest input s)
        (applyStages (.fullScan documents) (rest ++ [.subscript w]) input s) := by
    intro rest hrest input
    have hself := tracks_applyStages hscan rest hrest rest (List.suffix_refl _) (.refl s) input input
      (.refl input)
    rw [applyStages_append, ← bind_pure (applyStages (.fullScan documents) rest input s)]
    rw [bind_assoc]
    refine tracks_bind hself fun r r' hr => ?_
    obtain rfl := hr.same
    exact tracks_pure rfl
  -- where no source is read first, the window comes behind the same stages
  have hrun : ∀ {first : Operation} {rest : List Operation}, first.Conforms {} Planner.anySource →
      ConformsAll {} Planner.anySource rest → Tracks sameCaches (fun r r' => r' = r.subscript w)
        (run (.fullScan documents) (first :: rest) s)
        (run (.fullScan documents) (first :: (rest ++ [.subscript w])) s) := by
    intro first rest hfirst hrest
    rw [run_of_conforms hfirst, run_of_conforms hfirst]
    refine tracks_bind (tracks_exec hscan hfirst (.refl s)) fun input input' hinput => ?_
    obtain rfl := hinput.same
    exact happly hrest input
  cases o with
  | pipe stages name =>
    cases stages with
    | nil => exact absurd rfl (hstages name)
    | cons first rest =>
      obtain ⟨⟨id, rfl, -, -⟩ | hfirst, hrest⟩ := h
      · exact tracks_run_scan (tracks_compile_subscript w hrest s) (happly hrest)
      · exact hrun hfirst hrest
  | source id => exact h.elim
  | _ =>
    have hwhole := @hrun _ [] h trivial
    rw [run_of_conforms h] at hwhole
    change Tracks _ _ (exec (.fullScan documents) _ s >>= pure) _ at hwhole
    rw [bind_pure] at hwhole
    exact hwhole

end Engine
end DocQuery
