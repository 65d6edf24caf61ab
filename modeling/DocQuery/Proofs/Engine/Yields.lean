import DocQuery.Query

/-!
# What a run yields

A run takes a session to a result and a new session. `Yields x σ a τ` says that it takes `σ` to the
value `a` and to `τ`. Nothing is said of failing runs: a statement about a run that succeeds reads
the steps off by `yields_bind`, and one that a run succeeds builds them up by the same lemma.
-/

set_option autoImplicit false

namespace DocQuery
namespace Run

variable {α β : Type} {σ τ : Session}

/-- Running `x` in the session `σ` gives `a` and leaves the session `τ`. -/
def Yields (x : Run α) (σ : Session) (a : α) (τ : Session) : Prop := x.run.run σ = (.ok a, τ)

theorem yields_pure {a b : α} : (pure a : Run α).Yields σ b τ ↔ b = a ∧ τ = σ := by
  unfold Yields
  show ((Except.ok a, σ) : Except ExecError α × Session) = (.ok b, τ) ↔ _
  simp [eq_comm]

theorem yields_bind {x : Run α} {f : α → Run β} {b : β} :
    (x >>= f).Yields σ b τ ↔ ∃ a ρ, x.Yields σ a ρ ∧ (f a).Yields ρ b τ := by
  have hbind : (x >>= f).run.run σ = (match x.run.run σ with
    | (r, ρ) => StateT.run (ExceptT.bindCont f r) ρ) := rfl
  unfold Yields
  rw [hbind]
  rcases x.run.run σ with ⟨e | a, ρ⟩
  · constructor
    · intro hf
      cases hf
    · rintro ⟨a, ρ', hx, -⟩
      cases hx
  · constructor
    · exact fun hf => ⟨a, ρ, rfl, hf⟩
    · rintro ⟨a', ρ', hx, hf⟩
      cases hx
      exact hf

theorem not_yields_throw {e : ExecError} {a : α} : ¬(throw e : Run α).Yields σ a τ := by
  intro h
  cases h

theorem yields_ofExcept {e : Except ExecError α} {a : α} :
    (ofExcept e).Yields σ a τ ↔ e = .ok a ∧ τ = σ := by
  cases e with
  | ok b =>
    show (pure b : Run α).Yields σ a τ ↔ _
    rw [yields_pure]
    simp [eq_comm]
  | error e =>
    refine ⟨fun h => absurd h not_yields_throw, ?_⟩
    rintro ⟨h, -⟩
    cases h

theorem yields_context {c : Context} : context.Yields σ c τ ↔ c = σ.context ∧ τ = σ := by
  unfold Yields
  show ((Except.ok σ.context, σ) : Except ExecError Context × Session) = (.ok c, τ) ↔ _
  simp [eq_comm]

theorem yields_modifyContext {f : Context → α × Context} {a : α} :
    (modifyContext f).Yields σ a τ ↔
      a = (f σ.context).1 ∧ τ = { σ with context := (f σ.context).2 } := by
  unfold Yields
  show ((Except.ok (f σ.context).1, { σ with context := (f σ.context).2 }) :
    Except ExecError α × Session) = (.ok a, τ) ↔ _
  simp [eq_comm]

/-- What is left to do of a fetch once there is an answer. -/
def receive (σ : Session) (id : SourceId) (spec : FetchSpec)
    (answer : Except FetchError FetchResponse) : Run Unit :=
  match answer with
  | .ok response =>
    set (⟨σ.context.store id response, σ.fetches ++ [⟨id, spec, answer⟩]⟩ : Session)
  | .error e => do
    set (⟨σ.context, σ.fetches ++ [⟨id, spec, answer⟩]⟩ : Session)
    throw (.fetch e)

theorem run_fetch (fetcher : Fetcher) (id : SourceId) (spec : FetchSpec) (σ : Session) :
    (fetch fetcher id spec).run.run σ =
      (receive σ id spec (fetcher σ.fetches.length spec)).run.run σ := rfl

/-- A fetch succeeds exactly when the fetcher answers; the answer is kept and recorded. -/
theorem yields_fetch {fetcher : Fetcher} {id : SourceId} {spec : FetchSpec} {u : Unit} :
    (fetch fetcher id spec).Yields σ u τ ↔
      ∃ response, fetcher σ.fetches.length spec = .ok response ∧
        τ = ⟨σ.context.store id response, σ.fetches ++ [⟨id, spec, .ok response⟩]⟩ := by
  unfold Yields
  rw [run_fetch]
  cases fetcher σ.fetches.length spec with
  | ok response =>
    show ((Except.ok (), _) : Except ExecError Unit × Session) = (.ok u, τ) ↔ _
    simp [eq_comm]
  | error e =>
    constructor
    · intro hf
      cases hf
    · rintro ⟨response, hr, -⟩
      cases hr

/-- A map whose steps leave the session alone and succeed exactly where `ok` holds. -/
theorem yields_mapM {f : α → Run β} {ok : α → Prop} {g : α → β}
    (hf : ∀ a σ b τ, (f a).Yields σ b τ ↔ τ = σ ∧ ok a ∧ b = g a) (xs : List α) (ys : List β) :
    (xs.mapM f).Yields σ ys τ ↔ τ = σ ∧ (∀ x ∈ xs, ok x) ∧ ys = xs.map g := by
  induction xs generalizing σ τ ys with
  | nil =>
    rw [List.mapM_nil, yields_pure]
    simp [and_comm]
  | cons x xs ih =>
    rw [List.mapM_cons]
    simp only [yields_bind, yields_pure, hf, ih]
    constructor
    · rintro ⟨y, ρ, ⟨rfl, hx, rfl⟩, zs, ρ', ⟨rfl, hxs, rfl⟩, rfl, rfl⟩
      exact ⟨rfl, by simpa using ⟨hx, hxs⟩, rfl⟩
    · rintro ⟨rfl, hall, rfl⟩
      have hxs : ∀ x ∈ xs, ok x := fun z hz => hall z (List.mem_cons_of_mem x hz)
      exact ⟨g x, τ, ⟨rfl, hall x List.mem_cons_self, rfl⟩, xs.map g, τ, ⟨rfl, hxs, rfl⟩, rfl, rfl⟩

end Run

/-! ## Queries -/

namespace Query

open Engine

variable {q : Query} {o : Operation} {fetcher : Fetcher} {result : Json}

/-- The result of a query is what its plan comes to in a session of its own. -/
theorem result_eq (hplan : q.operation = .ok o) :
    q.result fetcher = (((exec fetcher o .root).run.run .empty).1.mapError QueryError.exec).map
      fun r => r.value.toJson := by
  have hevaluate : q.result fetcher = (((evaluate fetcher o).run.run .empty).1.mapError
      QueryError.exec).map Value.toJson := by
    unfold Query.result execute
    rw [hplan]
    rfl
  have hbind : (evaluate fetcher o).run.run .empty =
      StateT.run (ExceptT.bindCont (fun r => pure r.value)
        ((exec fetcher o .root).run.run .empty).1) ((exec fetcher o .root).run.run .empty).2 := rfl
  rw [hevaluate, hbind]
  cases ((exec fetcher o .root).run.run .empty).1 <;> rfl

theorem result_eq_ok (hplan : q.operation = .ok o) :
    q.result fetcher = .ok result ↔
      ∃ r τ, (exec fetcher o .root).Yields .empty r τ ∧ result = r.value.toJson := by
  rw [result_eq hplan]
  unfold Run.Yields
  rcases (exec fetcher o .root).run.run .empty with ⟨e | r, τ⟩
  · constructor
    · intro h
      cases h
    · rintro ⟨r, τ, h, -⟩
      cases h
  · constructor
    · intro h
      cases h
      exact ⟨r, τ, rfl, rfl⟩
    · rintro ⟨r, τ, h, rfl⟩
      cases h
      rfl

end Query
end DocQuery
