import DocQuery.Proofs.Engine.Fetching
import DocQuery.Query

/-!
# Many plans, one session

An executor may run any number of plans in a row; what one run has fetched the next ones find. The
ids of sources start anew in every plan, so two plans may mean different things by one id. What is
asked of the fetcher is **the same all the same**: each id is asked for until there is an answer and
never again, and no run misses a source (`evaluateAll_steps`).

For this it matters where sources stand in a plan. They are at the heads of its pipelines, each with
an id of its own, except that a global filter is repeated behind every source; but its ids differ
from those of the sources in front of it (`operation_conforms`).
-/

set_option autoImplicit false

namespace DocQuery

open Operation Planner

mutual

/-- Every syntax tree keeps to what may be used when everything may. -/
theorem Node.usesOnly_all : ∀ node : Node, node.usesOnly {} = true
  | .pipe lhs rhs | .dot lhs rhs | .binary _ lhs rhs | .range lhs rhs _ =>
    Bool.and_eq_true_iff.mpr ⟨usesOnly_all lhs, usesOnly_all rhs⟩
  | .everything | .parent | .constraint none | .attr _ | .ellipsis | .param _ | .integer _
  | .float _ | .string _ | .bool _ | .null => rfl
  | .constraint (some e) => usesOnly_all e
  | .not operand | .subscript operand => usesOnly_all operand
  | .postfixed operator operand => by
    have hfollow : operand.mayFollow {} = true := by
      unfold Node.mayFollow
      split
      · rfl
      · split <;> rfl
    rw [Node.usesOnly, usesOnly_all operand, hfollow, Bool.or_true]
    rfl
  | .object members => usesOnlyAll_all members
  | .array elements => usesOnlyAll_all elements
  | .functionCall name arguments => by
    rw [Node.usesOnly, usesOnlyAll_all arguments, Bool.or_true]
    rfl

theorem Node.usesOnlyAll_all : ∀ nodes : List Node, Node.usesOnlyAll {} nodes = true
  | [] => rfl
  | node :: nodes => Bool.and_eq_true_iff.mpr ⟨usesOnly_all node, usesOnlyAll_all nodes⟩

end

/-- How a planned query comes about: it is composed, and restricted if there is a global filter,
which takes the next free ids. -/
theorem Query.gives_of_operation {q : Query} {o : Operation} (h : q.operation = .ok o) :
    ∃ base next, Gives (compose q.params q.tree) 1 base next ∧
      ((q.globalFilter = none ∧ o = base) ∨
        ∃ filter condition next', q.globalFilter = some filter ∧
          Gives (compose q.params filter) next condition next' ∧ o = restrict condition base) := by
  unfold Query.operation plan at h
  cases hbase : (compose q.params q.tree).run 1 with
  | error e =>
    rw [hbase] at h
    cases h
  | ok composed =>
    obtain ⟨base, next⟩ := composed
    rw [hbase] at h
    refine ⟨base, next, hbase, ?_⟩
    cases hfilter : q.globalFilter with
    | none =>
      rw [hfilter] at h
      cases h
      exact .inl ⟨rfl, rfl⟩
    | some filter =>
      rw [hfilter] at h
      change ((compose q.params filter).run next >>= _) = _ at h
      cases hcondition : (compose q.params filter).run next with
      | error e =>
        rw [hcondition] at h
        cases h
      | ok composed =>
        obtain ⟨condition, next'⟩ := composed
        rw [hcondition] at h
        cases h
        exact .inr ⟨filter, condition, next', rfl, hcondition, rfl⟩

/-- A composed operation reads from each of its sources once: not again behind itself. -/
theorem Planner.conforms_fresh {params : Params} {node : Node} {n n' : SourceId} {o : Operation}
    (h : Gives (compose params node) n o n') :
    o.Conforms {} fun id rest => id ∈ o.sources ∧ Avoids {} id rest :=
  (conforms_compose node.usesOnly_all h).fresh (counted_compose h).nodup

/-- The stages behind a source do not read from it again. -/
theorem Query.operation_conforms {q : Query} {o : Operation} (h : q.operation = .ok o) :
    o.Conforms {} (Avoids {}) := by
  obtain ⟨base, next, hbase, ⟨-, rfl⟩ | ⟨filter, condition, next', -, hcondition, rfl⟩⟩ :=
    Query.gives_of_operation h
  · exact (conforms_fresh hbase).imp ⟨.refl _, fun _ _ _ _ _ hreads => hreads.2⟩ (.refl _)
  · have hcondition' := conforms_fresh hcondition
    -- the filter's sources are numbered after those in front of it
    have havoids : ∀ id ∈ base.sources, condition.Conforms {} fun other _ => other ≠ id := by
      intro id hid
      refine hcondition'.imp ⟨.refl _, ?_⟩ (.refl _)
      rintro - _ rest hsub - - rfl
      have hlow := ((counted_compose hcondition).bounds _ (hsub.subset List.mem_cons_self)).1
      exact absurd ((counted_compose hbase).bounds _ hid).2 (Nat.not_lt.mpr hlow)
    have hrest : ∀ id ∈ base.sources, ∀ rest, Avoids {} id rest →
        Avoids {} id (mapPipesAll (afterSources condition) rest) := fun id hid rest h =>
      ConformsAll.mapPipes ⟨.refl _, havoids id hid, fun _ _ _ hne => hne,
        fun _ _ _ _ hne => hne⟩ rest h
    refine (conforms_fresh hbase).restrict ⟨.refl _, ?_, ?_, ?_⟩
    · exact hcondition'.imp ⟨.refl _, fun _ _ _ _ _ hreads => hreads.2⟩ (.refl _)
    · exact fun id rest _ hreads => ⟨havoids id hreads.1, hrest id hreads.1 rest hreads.2⟩
    · exact fun _ id rest _ hreads => hrest id hreads.1 rest hreads.2

namespace Engine

open Run Session

/-- The results of plans that run one after the other, and the session they leave. -/
def evaluateAll (fetcher : Fetcher) :
    List Operation → Session → List (Except ExecError Value) × Session
  | [], σ => ([], σ)
  | o :: os, σ =>
    let (result, ρ) := (evaluate fetcher o).run.run σ
    let (results, τ) := evaluateAll fetcher os ρ
    (result :: results, τ)

variable {fetcher : Fetcher}

theorem evaluate_steps {o : Operation} (h : o.Conforms {} (Avoids {})) (σ : Session) :
    Steps fetcher σ ((evaluate fetcher o).run.run σ).2 ∧
      ∀ e, ((evaluate fetcher o).run.run σ).1 = .error e → e.isOrdinary = true := by
  have hexec := tracks_exec (handles_steps fetcher σ) h (.refl .root)
  have hrun := tracks_bind hexec (fun r r' hr => tracks_pure hr.value) σ σ ⟨rfl, .refl⟩
  change Matches _ Eq ((evaluate fetcher o).run.run σ) ((evaluate fetcher o).run.run σ) at hrun
  generalize (evaluate fetcher o).run.run σ = outcome at hrun ⊢
  generalize hsame : outcome = outcome' at hrun
  cases hrun with
  | ok _ hkeep =>
    obtain ⟨-, rfl⟩ := Prod.ext_iff.mp hsame
    exact ⟨hkeep.2, fun e he => nomatch he⟩
  | error hordinary hkeep =>
    refine ⟨hkeep.2, fun e he => ?_⟩
    cases he
    exact hordinary
  | excused hlenient => exact hlenient.elim

theorem evaluateAll_append (os os' : List Operation) (σ : Session) :
    (evaluateAll fetcher (os ++ os') σ).2 =
      (evaluateAll fetcher os' (evaluateAll fetcher os σ).2).2 := by
  induction os generalizing σ with
  | nil => rfl
  | cons o os ih => exact ih _

theorem steps_evaluateAll {plans : List Operation} (h : ∀ o ∈ plans, o.Conforms {} (Avoids {}))
    (σ : Session) : Steps fetcher σ (evaluateAll fetcher plans σ).2 ∧
      ∀ r ∈ (evaluateAll fetcher plans σ).1, ∀ e, r = .error e → e.isOrdinary = true := by
  induction plans generalizing σ with
  | nil => exact ⟨.refl, fun _ hr => nomatch hr⟩
  | cons o os ih =>
    obtain ⟨hsteps, hordinary⟩ := evaluate_steps (h o List.mem_cons_self) σ
    obtain ⟨hrest, hall⟩ := ih (fun o' ho' => h o' (List.mem_cons_of_mem o ho'))
      ((evaluate fetcher o).run.run σ).2
    refine ⟨hsteps.trans hrest, fun r hr => ?_⟩
    rcases List.mem_cons.mp hr with rfl | hr
    · exact hordinary
    · exact hall r hr

/-- **Each source is fetched at most once, and before it is read.** Let planned queries run one
after the other from a new session on, whatever the fetcher answers. None of them fails for want of
a source. From the first run to the last the session takes steps, in which the fetcher is asked only
for what is not at hand. So at any moment in between, what is at hand for a source is what the one
answered fetch for it brought; a refused fetch has left nothing; and it stays the same to the end. -/
theorem evaluateAll_steps (fetcher : Fetcher) {plans : List Operation}
    (h : ∀ o ∈ plans, ∃ q : Query, q.operation = .ok o) :
    let (results, τ) := evaluateAll fetcher plans .empty
    (∀ r ∈ results, r ≠ .error .notASource ∧ ∀ id, r ≠ .error (.unknownSource id)) ∧
      (∀ k, Steps fetcher .empty (evaluateAll fetcher (plans.take k) .empty).2 ∧
        Steps fetcher (evaluateAll fetcher (plans.take k) .empty).2 τ) ∧
      ∀ σ, Steps fetcher .empty σ → Steps fetcher σ τ →
        σ.Accounted ∧ ∀ id d, σ.context.source? id = some d → τ.context.source? id = some d := by
  have hplans : ∀ o ∈ plans, o.Conforms {} (Avoids {}) := fun o ho =>
    (h o ho).elim fun _ hq => Query.operation_conforms hq
  refine ⟨fun r hr => ?_, fun k => ⟨?_, ?_⟩, fun σ hbefore hafter => ⟨hbefore.accounted, ?_⟩⟩
  · have hordinary := (steps_evaluateAll hplans .empty).2 r hr
    exact ⟨fun he => Bool.false_ne_true (hordinary _ he),
      fun id he => Bool.false_ne_true (hordinary _ he)⟩
  · exact (steps_evaluateAll (fun o ho => hplans o (List.mem_of_mem_take ho)) .empty).1
  · have hbehind : ∀ o ∈ plans.drop k, o.Conforms {} (Avoids {}) :=
      fun o ho => hplans o (List.mem_of_mem_drop ho)
    have hsteps := @steps_evaluateAll fetcher _ hbehind (evaluateAll fetcher (plans.take k) .empty).2
    rw [← evaluateAll_append, List.take_append_drop] at hsteps
    exact hsteps.1
  · exact fun id d hd => hafter.keeps hd

/-- A fetcher that is busy at first. The first run fails with it and the second one asks again; the
third finds what the second one fetched. -/
theorem evaluateAll_steps_busy :
    let busy : Fetcher := fun n _ =>
      if n = 0 then .error (.message "busy") else .ok (.ofResults [.obj [("_id", .str "d")]])
    let everything := Operation.pipe [.source 1] none
    let (results, τ) := evaluateAll busy [everything, everything, everything] .empty
    results.map Except.isOk = [false, true, true] ∧ τ.fetches.length = 2 ∧ τ.Accounted := by
  intro busy everything
  have hplanned : Query.operation ⟨.everything, [], none⟩ = .ok everything := rfl
  have hplans : ∀ o ∈ [everything, everything, everything], ∃ q : Query, q.operation = .ok o := by
    intro o ho
    simp only [List.mem_cons, List.not_mem_nil, or_false, or_self] at ho
    exact ⟨_, ho ▸ hplanned⟩
  obtain ⟨-, hsteps, hmoments⟩ := evaluateAll_steps busy hplans
  exact ⟨rfl, rfl, (hmoments _ (hsteps 3).1 .refl).1⟩

end Engine
end DocQuery
