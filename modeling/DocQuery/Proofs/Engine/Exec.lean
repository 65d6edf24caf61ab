import DocQuery.Proofs.Engine.Yields

/-!
# What the operations yield

One equivalence for each operation: when it succeeds, what it gives, and which sessions its parts
run in. The equations that they are read off come first.
-/

set_option autoImplicit false

namespace DocQuery
namespace Engine

open Run

/-! ## The recursion -/

section

variable (fetcher : Fetcher) (s : Scope)

theorem exec_source (id : SourceId) : exec fetcher (.source id) s = (do
    match (← Run.context).source? id with
    | some data => return .one (s.ofSource id (.array data.documents) data.start)
    | none => throw (.unknownSource id)) := rfl

theorem exec_filter (condition : Operation) :
    exec fetcher (.filter condition) s = exec fetcher condition s := rfl

theorem exec_binary (op : BinaryOp) (lhs rhs : Operation) :
    exec fetcher (.binary op lhs rhs) s = (do
      let a ← exec fetcher lhs s
      let b ← exec fetcher rhs s
      return .one (s.derived (← Run.ofExcept (Operator.apply op a.value b.value)))) := rfl

theorem exec_not (operand : Operation) : exec fetcher (.not operand) s = (do
    let a ← exec fetcher operand s
    return .one (s.derived (Operator.negation a.value))) := rfl

theorem exec_accessor (path : List PathStep) :
    exec fetcher (.accessor path) s = pure (.one (s.resolve path)) := rfl

theorem exec_literal (value : Value) :
    exec fetcher (.literal value) s = pure (.one (.detached value)) := rfl

theorem exec_object (members : List Member) : exec fetcher (.object members) s = (do
    return .one (s.withValue (.object (← execMembers fetcher members s [])))) := rfl

theorem exec_array (elements : List Operation) : exec fetcher (.array elements) s = (do
    return .one (s.withValue (.array (← execAll fetcher elements s)))) := rfl

theorem exec_call (function : Function) (arguments : List Operation) :
    exec fetcher (.call function arguments) s = (do
      let values ← execAll fetcher arguments s
      return .one (s.withValue (← Builtin.call function s.value values))) := rfl

theorem exec_pipe (stages : List Operation) (name : Option String) :
    exec fetcher (.pipe stages name) s = run fetcher stages s := rfl

theorem execAll_nil : execAll fetcher [] s = pure [] := rfl

theorem execAll_cons (o : Operation) (os : List Operation) :
    execAll fetcher (o :: os) s = (do
      let a ← exec fetcher o s
      let rest ← execAll fetcher os s
      return a.value :: rest) := rfl

theorem execMembers_nil (fields : Fields Value) :
    execMembers fetcher [] s fields = pure fields := rfl

theorem execMembers_assignment (name : String) (value : Operation) (ms : List Member)
    (fields : Fields Value) :
    execMembers fetcher (.assignment name value :: ms) s fields = (do
      let a ← exec fetcher value s
      execMembers fetcher ms s
        (if a.value.isNull then fields else fields.insert name a.value)) := rfl

theorem execMembers_cons (m : Member) (ms : List Member) (fields : Fields Value) :
    execMembers fetcher (m :: ms) s fields =
      execMembers fetcher [m] s fields >>= execMembers fetcher ms s := by
  cases m with
  | assignment name value =>
    rw [execMembers_assignment, execMembers_assignment, bind_assoc]
    exact congrArg _ (funext fun a => (pure_bind _ _).symm)
  | splat => exact (pure_bind _ _).symm

theorem applyStages_nil (input : Scoped) (base : Scope) :
    applyStages fetcher [] input base = pure input := rfl

theorem run_cons (first : Operation) (rest : List Operation) :
    run fetcher (first :: rest) s = (do
      match first with
      | .source id =>
        if !(← Run.context).hasSource id then
          Run.fetch fetcher id (← finish s (← compileStages fetcher rest s))
      | _ => pure ()
      let input ← exec fetcher first s
      applyStages fetcher rest input s) := rfl

theorem applyStages_cons (stage : Operation) (rest : List Operation) (input : Scoped)
    (base : Scope) :
    applyStages fetcher (stage :: rest) input base = (do
      let next ← match stage with
        | .subscript w => pure (input.subscript w)
        | .ordering terms =>
          sortScopes (terms.map (·.direction)) (fun s => execKeys fetcher terms s) input
        | .filter condition => filterScopes (fun s => exec fetcher condition s) input
        | .mapJoin stages => do
          let ids ← run fetcher stages base
          pure ((input.joinOwner base).lookupAll ids.value)
        | stage => mapScopes (fun s => exec fetcher stage s) input
      applyStages fetcher rest next base) := applyStages.eq_def ..

end

/-! ## Operations -/

variable {fetcher : Fetcher} {s : Scope} {σ τ : Session} {r : Scoped}

theorem yields_source {id : SourceId} :
    (exec fetcher (.source id) s).Yields σ r τ ↔
      ∃ data, σ.context.source? id = some data ∧
        r = .one (s.ofSource id (.array data.documents) data.start) ∧ τ = σ := by
  rw [exec_source, yields_bind]
  simp only [yields_context]
  cases hdata : σ.context.source? id with
  | some data =>
    constructor
    · rintro ⟨c, ρ, ⟨rfl, rfl⟩, h⟩
      rw [hdata] at h
      exact ⟨data, rfl, yields_pure.mp h⟩
    · rintro ⟨_, hd, hr⟩
      cases hd
      refine ⟨σ.context, σ, ⟨rfl, rfl⟩, ?_⟩
      rw [hdata]
      exact yields_pure.mpr hr
  | none =>
    constructor
    · rintro ⟨c, ρ, ⟨rfl, rfl⟩, h⟩
      rw [hdata] at h
      exact absurd h not_yields_throw
    · rintro ⟨_, hd, -⟩
      cases hd

theorem yields_filter {condition : Operation} :
    (exec fetcher (.filter condition) s).Yields σ r τ ↔
      (exec fetcher condition s).Yields σ r τ := by
  rw [exec_filter]

theorem yields_binary {op : BinaryOp} {lhs rhs : Operation} :
    (exec fetcher (.binary op lhs rhs) s).Yields σ r τ ↔
      ∃ a ρ b v, (exec fetcher lhs s).Yields σ a ρ ∧ (exec fetcher rhs s).Yields ρ b τ ∧
        Operator.apply op a.value b.value = .ok v ∧ r = .one (s.derived v) := by
  rw [exec_binary]
  simp only [yields_bind, yields_ofExcept, yields_pure]
  constructor
  · rintro ⟨a, ρ, ha, b, ρ', hb, v, _, ⟨hv, rfl⟩, rfl, rfl⟩
    exact ⟨a, ρ, b, v, ha, hb, hv, rfl⟩
  · rintro ⟨a, ρ, b, v, ha, hb, hv, rfl⟩
    exact ⟨a, ρ, ha, b, τ, hb, v, τ, ⟨hv, rfl⟩, rfl, rfl⟩

theorem yields_not {operand : Operation} :
    (exec fetcher (.not operand) s).Yields σ r τ ↔
      ∃ a, (exec fetcher operand s).Yields σ a τ ∧
        r = .one (s.derived (Operator.negation a.value)) := by
  rw [exec_not]
  simp only [yields_bind, yields_pure]
  constructor
  · rintro ⟨a, ρ, ha, rfl, rfl⟩
    exact ⟨a, ha, rfl⟩
  · rintro ⟨a, ha, rfl⟩
    exact ⟨a, τ, ha, rfl, rfl⟩

theorem yields_accessor {path : List PathStep} :
    (exec fetcher (.accessor path) s).Yields σ r τ ↔ r = .one (s.resolve path) ∧ τ = σ := by
  rw [exec_accessor]
  exact yields_pure

theorem yields_literal {v : Value} :
    (exec fetcher (.literal v) s).Yields σ r τ ↔ r = .one (.detached v) ∧ τ = σ := by
  rw [exec_literal]
  exact yields_pure

theorem yields_object {members : List Member} :
    (exec fetcher (.object members) s).Yields σ r τ ↔
      ∃ fields, (execMembers fetcher members s []).Yields σ fields τ ∧
        r = .one (s.withValue (.object fields)) := by
  rw [exec_object]
  simp only [yields_bind, yields_pure]
  constructor
  · rintro ⟨fields, ρ, h, rfl, rfl⟩
    exact ⟨fields, h, rfl⟩
  · rintro ⟨fields, h, rfl⟩
    exact ⟨fields, τ, h, rfl, rfl⟩

theorem yields_array {elements : List Operation} :
    (exec fetcher (.array elements) s).Yields σ r τ ↔
      ∃ values, (execAll fetcher elements s).Yields σ values τ ∧
        r = .one (s.withValue (.array values)) := by
  rw [exec_array]
  simp only [yields_bind, yields_pure]
  constructor
  · rintro ⟨values, ρ, h, rfl, rfl⟩
    exact ⟨values, h, rfl⟩
  · rintro ⟨values, h, rfl⟩
    exact ⟨values, τ, h, rfl, rfl⟩

theorem yields_call {function : Function} {arguments : List Operation} :
    (exec fetcher (.call function arguments) s).Yields σ r τ ↔
      ∃ values ρ v, (execAll fetcher arguments s).Yields σ values ρ ∧
        (Builtin.call function s.value values).Yields ρ v τ ∧ r = .one (s.withValue v) := by
  rw [exec_call]
  simp only [yields_bind, yields_pure]
  constructor
  · rintro ⟨values, ρ, h, v, ρ', hv, rfl, rfl⟩
    exact ⟨values, ρ, v, h, hv, rfl⟩
  · rintro ⟨values, ρ, v, h, hv, rfl⟩
    exact ⟨values, ρ, h, v, τ, hv, rfl, rfl⟩

theorem yields_pipe {stages : List Operation} {name : Option String} :
    (exec fetcher (.pipe stages name) s).Yields σ r τ ↔ (run fetcher stages s).Yields σ r τ := by
  rw [exec_pipe]

/-- A function other than `references()` leaves the session alone. -/
theorem yields_call_pure {function : Function} {subject : Value} {values : List Value} {v w : Value}
    (h : Builtin.pure? function values = some v) :
    (Builtin.call function subject values).Yields σ w τ ↔ w = v ∧ τ = σ := by
  unfold Builtin.call
  rw [h]
  exact yields_pure

theorem yields_call_references {subject : Value} {values : List Value} {w : Value} :
    (Builtin.call .references subject values).Yields σ w τ ↔
      w = .bool (σ.context.refersTo subject (Builtin.referenceIds values)).1 ∧
        τ = { σ with
          context := (σ.context.refersTo subject (Builtin.referenceIds values)).2 } := by
  show (Run.modifyContext _ >>= fun b => pure (Value.bool b)).Yields σ w τ ↔ _
  simp only [yields_bind, yields_modifyContext, yields_pure]
  constructor
  · rintro ⟨b, ρ, ⟨rfl, rfl⟩, rfl, rfl⟩
    exact ⟨rfl, rfl⟩
  · rintro ⟨rfl, rfl⟩
    exact ⟨_, _, ⟨rfl, rfl⟩, rfl, rfl⟩

/-! ## Lists of operations -/

theorem yields_execAll_nil {values : List Value} :
    (execAll fetcher [] s).Yields σ values τ ↔ values = [] ∧ τ = σ := by
  rw [execAll_nil]
  exact yields_pure

theorem yields_execAll_cons {o : Operation} {os : List Operation} {values : List Value} :
    (execAll fetcher (o :: os) s).Yields σ values τ ↔
      ∃ a ρ rest, (exec fetcher o s).Yields σ a ρ ∧ (execAll fetcher os s).Yields ρ rest τ ∧
        values = a.value :: rest := by
  rw [execAll_cons]
  simp only [yields_bind, yields_pure]
  constructor
  · rintro ⟨a, ρ, ha, rest, ρ', hrest, rfl, rfl⟩
    exact ⟨a, ρ, rest, ha, hrest, rfl⟩
  · rintro ⟨a, ρ, rest, ha, hrest, rfl⟩
    exact ⟨a, ρ, ha, rest, τ, hrest, rfl, rfl⟩

/-! ## Pipelines that read from a source -/

/-- Where a pipeline starts once its source has been fetched. -/
def sourceScope (id : SourceId) (s : Scope) (data : SourceData) : Scope :=
  s.ofSource id (.array data.documents) data.start

/-- Asking for references leaves all sources as they are. -/
theorem source?_refersTo (c : Context) (subject : Value) (ids : List Value) (id : SourceId) :
    (c.refersTo subject ids).2.source? id = c.source? id := by
  unfold Context.refersTo
  cases Context.documentKey? subject with
  | none => rfl
  | some key =>
    dsimp only
    unfold Context.referencesOf
    cases c.references.get? key <;> rfl

theorem source?_store (c : Context) (id : SourceId) (response : FetchResponse) :
    (c.store id response).source? id =
      some ⟨response.results.map Value.ofJson, response.start⟩ := by
  simp [Context.store, Context.source?]

/-- What a session is after a fetch. -/
def fetched (σ : Session) (id : SourceId) (spec : FetchSpec) (response : FetchResponse) : Session :=
  ⟨σ.context.store id response, σ.fetches ++ [⟨id, spec, .ok response⟩]⟩

theorem source?_fetched_of_ne {σ : Session} {k j : SourceId} (h : j ≠ k) (spec : FetchSpec)
    (response : FetchResponse) :
    (fetched σ k spec response).context.source? j = σ.context.source? j := by
  have hne : (k == j) = false := by simpa using Ne.symm h
  show (List.find? _ ((k, _) :: σ.context.sources)).map _ = _
  rw [List.find?_cons, hne]
  rfl

/-- Read a source that has been fetched, and apply the stages to it. -/
def readSource (fetcher : Fetcher) (id : SourceId) (rest : List Operation) (s : Scope) :
    Run Scoped := do
  let input ← exec fetcher (.source id) s
  applyStages fetcher rest input s

theorem run_source (id : SourceId) (rest : List Operation) (s : Scope) :
    run fetcher (.source id :: rest) s = (do
      if !(← Run.context).hasSource id then do
        let spec ← compileStages fetcher rest s
        let spec ← finish s spec
        Run.fetch fetcher id spec
        readSource fetcher id rest s
      else readSource fetcher id rest s) := by
  rw [run_cons]
  rfl

theorem yields_readSource {id : SourceId} {rest : List Operation} {data : SourceData}
    (h : σ.context.source? id = some data) :
    (readSource fetcher id rest s).Yields σ r τ ↔
      (applyStages fetcher rest (.one (sourceScope id s data)) s).Yields σ r τ := by
  unfold readSource
  rw [yields_bind]
  constructor
  · rintro ⟨input, ρ, hinput, hrest⟩
    obtain ⟨data', hdata, rfl, rfl⟩ := yields_source.mp hinput
    rw [h] at hdata
    cases hdata
    exact hrest
  · intro hrest
    exact ⟨_, σ, yields_source.mpr ⟨data, h, rfl, rfl⟩, hrest⟩

/-- A pipeline whose source is at hand applies its stages to it. -/
theorem yields_run_known {id : SourceId} {rest : List Operation} {data : SourceData}
    (h : σ.context.source? id = some data) :
    (run fetcher (.source id :: rest) s).Yields σ r τ ↔
      (applyStages fetcher rest (.one (sourceScope id s data)) s).Yields σ r τ := by
  have hhas : σ.context.hasSource id = true := by
    rw [Context.hasSource, h]
    rfl
  rw [run_source, yields_bind, ← yields_readSource h]
  constructor
  · rintro ⟨c, ρ, hc, hrest⟩
    obtain ⟨rfl, rfl⟩ := yields_context.mp hc
    rw [hhas] at hrest
    exact hrest
  · intro hrest
    refine ⟨_, σ, yields_context.mpr ⟨rfl, rfl⟩, ?_⟩
    rw [hhas]
    exact hrest

/-- A pipeline whose source is not at hand fetches it first. -/
theorem yields_run_new {id : SourceId} {rest : List Operation}
    (h : σ.context.source? id = none) :
    (run fetcher (.source id :: rest) s).Yields σ r τ ↔
      ∃ spec spec' ρ ρ' response, (compileStages fetcher rest s).Yields σ spec ρ ∧
        (finish s spec).Yields ρ spec' ρ' ∧ fetcher ρ'.fetches.length spec' = .ok response ∧
          (applyStages fetcher rest
            (.one (sourceScope id s ⟨response.results.map Value.ofJson, response.start⟩)) s).Yields
              (fetched ρ' id spec' response) r τ := by
  have hhas : σ.context.hasSource id = false := by
    rw [Context.hasSource, h]
    rfl
  rw [run_source, yields_bind]
  constructor
  · rintro ⟨c, ρ, hc, hrest⟩
    obtain ⟨rfl, rfl⟩ := yields_context.mp hc
    rw [hhas] at hrest
    change (compileStages fetcher rest s >>= fun spec => finish s spec >>= fun spec =>
      Run.fetch fetcher id spec >>= fun _ => readSource fetcher id rest s).Yields _ r τ at hrest
    simp only [yields_bind, yields_fetch] at hrest
    obtain ⟨spec, ρ, hspec, spec', ρ', hspec', _, _, ⟨response, hresponse, rfl⟩, hrest⟩ := hrest
    exact ⟨spec, spec', ρ, ρ', response, hspec, hspec', hresponse,
      (yields_readSource (source?_store _ id response)).mp hrest⟩
  · rintro ⟨spec, spec', ρ, ρ', response, hspec, hspec', hresponse, hrest⟩
    refine ⟨_, σ, yields_context.mpr ⟨rfl, rfl⟩, ?_⟩
    rw [hhas]
    show (compileStages fetcher rest s >>= fun spec => finish s spec >>= fun spec =>
      Run.fetch fetcher id spec >>= fun _ => readSource fetcher id rest s).Yields _ r τ
    simp only [yields_bind, yields_fetch]
    exact ⟨spec, ρ, hspec, spec', ρ', hspec', (), _, ⟨response, hresponse, rfl⟩,
      (yields_readSource (source?_store _ id response)).mpr hrest⟩

end Engine
end DocQuery
