import DocQuery.Proofs.Engine.Exec
import DocQuery.Proofs.Engine.Local
import DocQuery.Proofs.Fetch.Spec
import DocQuery.Proofs.Value.SortKeys

/-!
# Local stages

A stage that is a local operation, a subscript, or an ordering by local keys is a step from result
to result (`Local.Step`): it succeeds when its operation has a value at every item, and what it
gives is a filter, a sort or a map of the items. A pipeline of such stages takes one step after the
other (`yields_applyStages`), the specification of its fetch is read off the stages
(`compileStages_eq`), and no part of it depends on an enclosing document (`yields_finish`).
-/

set_option autoImplicit false

namespace DocQuery

/-- A stage that depends on the items it is applied to and on nothing else. -/
def Operation.isLocalStage : Operation → Bool
  | subscript _ => true
  | ordering terms => allLocal (terms.map (·.expression))
  | assignment _ _ | splat | range _ _ _ | sortDirection _ => false
  | o => o.isLocal

/-! ## Filters that keep clear of the enclosing document -/

namespace Join

/-- A kind of operations that are no accessors of the enclosing document and whose parts are of the
kind: those that a fetch looks at. -/
structure Inward (kind : Operation → Prop) : Prop where
  accessor : ∀ {o}, kind o → o.isParentAccessor = false
  binary : ∀ {op lhs rhs}, kind (.binary op lhs rhs) → kind lhs ∧ kind rhs
  not : ∀ {operand}, kind (.not operand) → kind operand
  references : ∀ {arguments}, kind (.call .references arguments) → ∀ o ∈ arguments, kind o

variable {kind : Operation → Prop} {c : Context} {s : Scope}

/-- Filters of such a kind are fetched by as they are. -/
theorem Inward.generalize_eq (h : Inward kind) : ∀ {o : Operation}, kind o →
    generalize c s o = .ok (some o)
  | .binary op lhs rhs, ho => by
    obtain ⟨hl, hr⟩ := h.binary ho
    cases op with
    | and | or =>
      rw [generalize, h.generalize_eq hl, h.generalize_eq hr]
      rfl
    | eq | member => rw [generalize, h.accessor hl, h.accessor hr]
    | _ => rfl
  | .not operand, ho => by
    rw [generalize, h.generalize_eq (h.not ho)]
    rfl
  | .call function arguments, ho => by
    cases function with
    | references =>
      have hnone : (arguments.any (·.isParentAccessor)) = false :=
        List.any_eq_false.mpr fun o hmem => by simp [h.accessor (h.references ho o hmem)]
      rw [generalize, hnone]
      rfl
    | _ => rfl
  | .source _, _ | .filter _, _ | .accessor _, _ | .literal _, _ | .object _, _ | .array _, _
  | .assignment _ _, _ | .splat, _ | .subscript _, _ | .range _ _ _, _ | .ordering _, _
  | .sortDirection _, _ | .pipe _ _, _ | .mapJoin _, _ => rfl

end Join

namespace Local

/-! ## Items -/

/-- Whether a condition is exactly `true` at a value. -/
def holds (condition : Operation) (v : Value) : Bool :=
  match eval condition v with
  | .ok w => w.same (.bool true)
  | .error _ => false

/-- The sort keys of a value. -/
def keys (terms : List SortTerm) (v : Value) : List Value :=
  match evalAll (terms.map (·.expression)) v with
  | .ok keys => keys
  | .error _ => []

/-- Whether a value comes before another one in an ordering. -/
def before (terms : List SortTerm) (v w : Value) : Bool :=
  Value.compareKeys (terms.map (·.direction)) (keys terms v) (keys terms w) == .lt

/-- The scope that an operation makes of a scope. -/
def mapped (o : Operation) (s : Scope) : Scope :=
  match eval o s.value with
  | .ok v => scopeOf o s v
  | .error _ => s.withValue .null

/-- Every operation has a value at every item. -/
def AllEval (os : List Operation) (items : List Scope) : Prop :=
  ∀ s ∈ items, ∃ values, evalAll os s.value = .ok values

/-- An operation has a value at every item. -/
def EvalAt (o : Operation) (items : List Scope) : Prop :=
  ∀ s ∈ items, ∃ v, eval o s.value = .ok v

/-! ## Steps -/

/-- A local stage succeeds on a result and gives the next one. -/
def Step : Operation → Scoped → Scoped → Prop
  | .filter condition, input, next =>
    EvalAt condition input.candidates.1 ∧
      next = .many (input.candidates.1.filter fun s => holds condition s.value) input.candidates.2
  | .ordering terms, input, next =>
    AllEval (terms.map (·.expression)) input.sortItems.1 ∧
      next = .many (Sorting.sortBy (fun s t => before terms s.value t.value) input.sortItems.1)
        input.sortItems.2
  | .subscript w, input, next => next = input.subscript w
  | o, .one s, next => EvalAt o [s] ∧ next = .one (mapped o s)
  | o, .many items start, next => EvalAt o items ∧ next = .many (items.map (mapped o)) start

/-- Local stages succeed one after the other. -/
def Steps : List Operation → Scoped → Scoped → Prop
  | [], input, r => r = input
  | stage :: rest, input, r => ∃ next, Step stage input next ∧ Steps rest next r

theorem Step.unique {stage : Operation} {input next next' : Scoped} (h : Step stage input next)
    (h' : Step stage input next') : next = next' := by
  cases stage with
  | subscript w => exact h.trans h'.symm
  | filter condition | ordering terms => exact h.2.trans h'.2.symm
  | _ => cases input <;> exact h.2.trans h'.2.symm

/-- Local stages give one result. -/
theorem Steps.unique {stages : List Operation} {input r r' : Scoped} (h : Steps stages input r)
    (h' : Steps stages input r') : r = r' := by
  induction stages generalizing input with
  | nil => exact h.trans h'.symm
  | cons stage rest ih =>
    obtain ⟨next, hstep, hrest⟩ := h
    obtain ⟨next', hstep', hrest'⟩ := h'
    obtain rfl := hstep.unique hstep'
    exact ih hrest hrest'

/-! ## Running local stages -/

open Run

variable {fetcher : Fetcher} {s : Scope} {σ τ : Session} {r : Scoped}

theorem yields_exec {o : Operation} (h : o.isLocal = true) :
    (Engine.exec fetcher o s).Yields σ r τ ↔
      τ = σ ∧ ∃ v, eval o s.value = .ok v ∧ r = .one (scopeOf o s v) := by
  rw [exec_eq_eval h s, yields_ofExcept, result]
  cases eval o s.value with
  | error e => simp [Except.map]
  | ok v =>
    constructor
    · rintro ⟨hr, rfl⟩
      cases hr
      exact ⟨rfl, v, rfl, rfl⟩
    · rintro ⟨rfl, _, ⟨⟩, rfl⟩
      exact ⟨rfl, rfl⟩

theorem yields_execKeys {terms : List SortTerm} {ks : List Value}
    (h : Operation.allLocal (terms.map (·.expression)) = true) :
    (Engine.execKeys fetcher terms s).Yields σ ks τ ↔
      τ = σ ∧ evalAll (terms.map (·.expression)) s.value = .ok ks := by
  rw [execKeys_eq_execAll, execAll_eq_eval h s, yields_ofExcept, and_comm]

theorem yields_keepScopes {condition : Operation} (h : condition.isLocal = true)
    (items kept : List Scope) :
    (Engine.keepScopes (fun s => Engine.exec fetcher condition s) items).Yields σ kept τ ↔
      τ = σ ∧ EvalAt condition items ∧ kept = items.filter fun s => holds condition s.value := by
  induction items generalizing σ τ kept with
  | nil =>
    rw [Engine.keepScopes, yields_pure]
    simp [EvalAt, and_comm]
  | cons s items ih =>
    rw [Engine.keepScopes]
    simp only [yields_bind, yields_pure, yields_exec h, ih]
    constructor
    · rintro ⟨_, _, ⟨rfl, v, hv, rfl⟩, _, _, ⟨rfl, hitems, rfl⟩, rfl, rfl⟩
      have hholds : holds condition s.value = v.same (.bool true) := by
        rw [holds, hv]
      have hvalue : (Scoped.one (scopeOf condition s v)).value = v := value_scopeOf h hv
      refine ⟨rfl, ?_, ?_⟩
      · intro t ht
        rcases List.mem_cons.mp ht with rfl | ht
        · exact ⟨v, hv⟩
        · exact hitems t ht
      · rw [List.filter_cons, hvalue, hholds]
    · rintro ⟨rfl, hitems, rfl⟩
      obtain ⟨v, hv⟩ := hitems s List.mem_cons_self
      have hholds : holds condition s.value = v.same (.bool true) := by
        rw [holds, hv]
      have hvalue : (Scoped.one (scopeOf condition s v)).value = v := value_scopeOf h hv
      refine ⟨_, _, ⟨rfl, v, hv, rfl⟩, _, _,
        ⟨rfl, fun t ht => hitems t (List.mem_cons_of_mem s ht), rfl⟩, ?_, rfl⟩
      rw [List.filter_cons, hvalue, hholds]

theorem yields_filterScopes {condition : Operation} (h : condition.isLocal = true)
    {input : Scoped} :
    (Engine.filterScopes (fun s => Engine.exec fetcher condition s) input).Yields σ r τ ↔
      τ = σ ∧ Step (.filter condition) input r := by
  unfold Engine.filterScopes
  simp only [yields_bind, yields_pure, yields_keepScopes h, Step]
  constructor
  · rintro ⟨_, _, ⟨rfl, hitems, rfl⟩, rfl, rfl⟩
    exact ⟨rfl, hitems, rfl⟩
  · rintro ⟨rfl, hitems, rfl⟩
    exact ⟨_, _, ⟨rfl, hitems, rfl⟩, rfl, rfl⟩

/-- Sorting scopes with their keys is sorting them by their keys. -/
theorem sortByKeys_eq (terms : List SortTerm) (items : List Scope) :
    (sortByKeys (terms.map (·.direction)) (items.map fun s => (keys terms s.value, s))).map (·.2) =
      Sorting.sortBy (fun s t => before terms s.value t.value) items :=
  (sortByKeys_map _ (fun s : Scope => keys terms s.value) id items).trans (List.map_id _)

theorem yields_sortScopes {terms : List SortTerm}
    (h : Operation.allLocal (terms.map (·.expression)) = true) {input : Scoped} :
    (Engine.sortScopes (terms.map (·.direction)) (fun s => Engine.execKeys fetcher terms s)
        input).Yields σ r τ ↔ τ = σ ∧ Step (.ordering terms) input r := by
  have hstep : ∀ (s : Scope) (σ : Session) (keyed : List Value × Scope) (τ : Session),
      (Engine.execKeys fetcher terms s >>= fun ks => pure (ks, s)).Yields σ keyed τ ↔
        τ = σ ∧ (∃ ks, evalAll (terms.map (·.expression)) s.value = .ok ks) ∧
          keyed = (keys terms s.value, s) := by
    intro s σ keyed τ
    simp only [yields_bind, yields_pure, yields_execKeys h]
    constructor
    · rintro ⟨ks, _, ⟨rfl, hks⟩, rfl, rfl⟩
      refine ⟨rfl, ⟨ks, hks⟩, ?_⟩
      rw [keys, hks]
    · rintro ⟨rfl, ⟨ks, hks⟩, rfl⟩
      refine ⟨ks, _, ⟨rfl, hks⟩, ?_, rfl⟩
      rw [keys, hks]
  show (input.sortItems.1.mapM (fun s => Engine.execKeys fetcher terms s >>= fun ks =>
    pure (ks, s)) >>= fun keyed => pure (Scoped.many
      ((sortByKeys (terms.map (·.direction)) keyed).map (·.2)) input.sortItems.2)).Yields σ r τ ↔ _
  simp only [yields_bind, yields_pure, yields_mapM hstep]
  constructor
  · rintro ⟨_, _, ⟨rfl, hitems, rfl⟩, rfl, rfl⟩
    exact ⟨rfl, hitems, by rw [sortByKeys_eq]⟩
  · rintro ⟨rfl, hitems, rfl⟩
    exact ⟨_, _, ⟨rfl, hitems, rfl⟩, by rw [sortByKeys_eq], rfl⟩

theorem mapped_eq {o : Operation} {v : Value} (hv : eval o s.value = .ok v) :
    mapped o s = scopeOf o s v := by
  rw [mapped, hv]

/-- The stages whose steps map the items. -/
def isMap : Operation → Bool
  | .filter _ | .ordering _ | .subscript _ => false
  | _ => true

theorem step_one {o : Operation} (h : isMap o = true) {next : Scoped} :
    Step o (.one s) next ↔ EvalAt o [s] ∧ next = .one (mapped o s) := by
  cases o <;> first | rfl | cases h

theorem step_many {o : Operation} (h : isMap o = true) {items : List Scope} {start : Nat}
    {next : Scoped} :
    Step o (.many items start) next ↔ EvalAt o items ∧ next = .many (items.map (mapped o)) start := by
  cases o <;> first | rfl | cases h

theorem yields_mapScopes {o : Operation} (h : o.isLocal = true) (hmap : isMap o = true)
    {input : Scoped} :
    (Engine.mapScopes (fun s => Engine.exec fetcher o s) input).Yields σ r τ ↔
      τ = σ ∧ Step o input r := by
  cases input with
  | one s =>
    show (Engine.exec fetcher o s).Yields σ r τ ↔ _
    rw [yields_exec h, step_one hmap]
    refine and_congr_right fun _ => ?_
    constructor
    · rintro ⟨v, hv, rfl⟩
      refine ⟨fun t ht => ?_, by rw [mapped_eq hv]⟩
      obtain rfl := List.mem_singleton.mp ht
      exact ⟨v, hv⟩
    · rintro ⟨heval, rfl⟩
      obtain ⟨v, hv⟩ := heval s List.mem_cons_self
      exact ⟨v, hv, by rw [mapped_eq hv]⟩
  | many items start =>
    have hstep : ∀ (s : Scope) (σ : Session) (t : Scope) (τ : Session),
        (Engine.exec fetcher o s >>= fun a => pure (a.collapse s)).Yields σ t τ ↔
          τ = σ ∧ (∃ v, eval o s.value = .ok v) ∧ t = mapped o s := by
      intro s σ t τ
      simp only [yields_bind, yields_pure, yields_exec h]
      constructor
      · rintro ⟨_, _, ⟨rfl, v, hv, rfl⟩, rfl, rfl⟩
        exact ⟨rfl, ⟨v, hv⟩, (mapped_eq hv).symm⟩
      · rintro ⟨rfl, ⟨v, hv⟩, rfl⟩
        exact ⟨_, _, ⟨rfl, v, hv, rfl⟩, mapped_eq hv, rfl⟩
    rw [step_many hmap]
    show (items.mapM (fun s => Engine.exec fetcher o s >>= fun a => pure (a.collapse s)) >>=
      fun items => pure (.many items start)).Yields σ r τ ↔ _
    simp only [yields_bind, yields_pure, yields_mapM hstep]
    constructor
    · rintro ⟨_, _, ⟨rfl, hitems, rfl⟩, rfl, rfl⟩
      exact ⟨rfl, hitems, rfl⟩
    · rintro ⟨rfl, hitems, rfl⟩
      exact ⟨_, _, ⟨rfl, hitems, rfl⟩, rfl, rfl⟩

/-! ## Pipelines of local stages -/

/-- The first of several stages is a step of its own. -/
theorem yields_applyStages_cons {stage : Operation} (h : stage.isLocalStage = true)
    {rest : List Operation} {input : Scoped} {base : Scope} :
    (Engine.applyStages fetcher (stage :: rest) input base).Yields σ r τ ↔
      ∃ next, Step stage input next ∧ (Engine.applyStages fetcher rest next base).Yields σ r τ := by
  have hbind : ∀ {x : Run Scoped}, (∀ ρ next ρ', x.Yields ρ next ρ' ↔ ρ' = ρ ∧ Step stage input next) →
      ((x >>= fun next => Engine.applyStages fetcher rest next base).Yields σ r τ ↔
        ∃ next, Step stage input next ∧
          (Engine.applyStages fetcher rest next base).Yields σ r τ) := by
    intro x hx
    simp only [yields_bind, hx]
    constructor
    · rintro ⟨next, _, ⟨rfl, hnext⟩, hrest⟩
      exact ⟨next, hnext, hrest⟩
    · rintro ⟨next, hnext, hrest⟩
      exact ⟨next, σ, ⟨rfl, hnext⟩, hrest⟩
  rw [Engine.applyStages_cons]
  cases stage with
  | filter condition => exact hbind fun ρ next ρ' => yields_filterScopes h
  | ordering terms => exact hbind fun ρ next ρ' => yields_sortScopes h
  | subscript w =>
    refine hbind fun ρ next ρ' => ?_
    rw [yields_pure, Step, and_comm]
  | binary op lhs rhs => exact hbind fun ρ next ρ' => yields_mapScopes h rfl
  | not operand => exact hbind fun ρ next ρ' => yields_mapScopes h rfl
  | accessor path => exact hbind fun ρ next ρ' => yields_mapScopes h rfl
  | literal v => exact hbind fun ρ next ρ' => yields_mapScopes h rfl
  | object members => exact hbind fun ρ next ρ' => yields_mapScopes h rfl
  | array elements => exact hbind fun ρ next ρ' => yields_mapScopes h rfl
  | call function arguments => exact hbind fun ρ next ρ' => yields_mapScopes h rfl
  | _ => cases h

theorem yields_applyStages_append {stages rest : List Operation}
    (h : ∀ stage ∈ stages, stage.isLocalStage = true) {input : Scoped} {base : Scope} :
    (Engine.applyStages fetcher (stages ++ rest) input base).Yields σ r τ ↔
      ∃ next, Steps stages input next ∧
        (Engine.applyStages fetcher rest next base).Yields σ r τ := by
  induction stages generalizing input with
  | nil =>
    constructor
    · intro hrest
      exact ⟨input, rfl, hrest⟩
    · rintro ⟨_, rfl, hrest⟩
      exact hrest
  | cons stage stages ih =>
    rw [List.cons_append, yields_applyStages_cons (h stage List.mem_cons_self)]
    simp only [ih fun t ht => h t (List.mem_cons_of_mem stage ht)]
    constructor
    · rintro ⟨next, hnext, last, hsteps, hrest⟩
      exact ⟨last, ⟨next, hnext, hsteps⟩, hrest⟩
    · rintro ⟨last, ⟨next, hnext, hsteps⟩, hrest⟩
      exact ⟨next, hnext, last, hsteps, hrest⟩

theorem yields_applyStages {stages : List Operation}
    (h : ∀ stage ∈ stages, stage.isLocalStage = true) {input : Scoped} {base : Scope} :
    (Engine.applyStages fetcher stages input base).Yields σ r τ ↔
      τ = σ ∧ Steps stages input r := by
  have happend := @yields_applyStages_append fetcher σ τ r stages [] h input base
  rw [List.append_nil] at happend
  rw [happend]
  simp only [Engine.applyStages, yields_pure]
  constructor
  · rintro ⟨_, hsteps, rfl, rfl⟩
    exact ⟨rfl, hsteps⟩
  · rintro ⟨rfl, hsteps⟩
    exact ⟨r, hsteps, rfl, rfl⟩

/-! ## What they fetch -/

/-- The stages that a fetch has a part for, or that end what it can do. -/
def isFoldable : Operation → Bool
  | .source _ | .mapJoin _ | .assignment _ _ | .splat | .range _ _ _ | .sortDirection _ => false
  | _ => true

theorem isFoldable_of_isLocalStage {stage : Operation} (h : stage.isLocalStage = true) :
    isFoldable stage = true := by
  cases stage <;> first | rfl | cases h

theorem compileStages_eq {stages : List Operation}
    (h : ∀ stage ∈ stages, isFoldable stage = true) (s : Scope) :
    Engine.compileStages fetcher stages s = pure (.ofStages stages) := by
  induction stages with
  | nil => rfl
  | cons stage rest ih =>
    have hstage := h stage List.mem_cons_self
    rw [Engine.compileStages, ih fun t ht => h t (List.mem_cons_of_mem stage ht)]
    cases stage <;> first | rfl | cases hstage

theorem isParentAccessor_eq_false {o : Operation} (h : o.isLocal = true) :
    o.isParentAccessor = false := by
  cases o with
  | accessor path =>
    cases path with
    | nil => rfl
    | cons step path =>
      cases step with
      | parent => cases h
      | attr name => rfl
  | _ => rfl

theorem inward_isLocal : Join.Inward (·.isLocal = true) where
  accessor := isParentAccessor_eq_false
  binary := Bool.and_eq_true_iff.mp
  not h := h
  references h := by cases h

/-- A local filter is fetched by as it is. -/
theorem generalize_eq {c : Context} {s : Scope} {o : Operation} (h : o.isLocal = true) :
    Join.generalize c s o = .ok (some o) :=
  inward_isLocal.generalize_eq h

/-- A specification as it is fetched by. Its filter is compared with itself on the way, and a filter
with a literal that does not equal itself is fetched by alone. -/
def settled (spec : FetchSpec) : FetchSpec :=
  match spec.filter with
  | none => spec
  | some filter => if filter.same filter then spec else .filtered filter

theorem yields_finish {spec spec' : FetchSpec}
    (h : ∀ filter, spec.filter = some filter → filter.isLocal = true) :
    (Engine.finish s spec).Yields σ spec' τ ↔ spec' = settled spec ∧ τ = σ := by
  unfold Engine.finish settled
  cases hfilter : spec.filter with
  | none => exact yields_pure
  | some filter =>
    show (Run.context >>= fun c => Run.ofExcept (Join.generalize c s filter) >>= _).Yields _ _ _ ↔ _
    simp only [yields_bind, yields_context, generalize_eq (h filter hfilter), yields_ofExcept]
    constructor
    · rintro ⟨_, _, ⟨rfl, rfl⟩, _, _, ⟨⟨⟩, rfl⟩, hrest⟩
      exact yields_pure.mp hrest
    · intro hrest
      exact ⟨_, σ, ⟨rfl, rfl⟩, some filter, σ, ⟨rfl, rfl⟩, yields_pure.mpr hrest⟩

end Local
end DocQuery
