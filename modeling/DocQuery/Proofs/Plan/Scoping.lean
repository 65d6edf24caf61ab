import DocQuery.Plan.Planner
import DocQuery.Proofs.Plan.Traversal

/-!
# The reach of a global filter

A global filter is put behind every source of every pipeline of a plan, and taking it out again
gives the plan without it. The list of stages inside a map join is no pipeline of its own, though.
So the filter reaches every source **exactly when each source that stands directly in a map join has
the filter behind it to begin with** (`plan_scoped`). In `a->b->` the documents of the first
reference are such a source, and they are not restricted (`plan_unscoped`).
-/

set_option autoImplicit false

namespace DocQuery
namespace Operation

/-- Every source among the stages has the filter right behind it. -/
def Followed (condition : Operation) : List Operation → Prop
  | [] => True
  | .source _ :: rest => rest.head? = some (.filter condition) ∧ Followed condition rest
  | _ :: rest => Followed condition rest

/-- No stage is a source. -/
def NoSource (stages : List Operation) : Prop := ∀ id, .source id ∉ stages

/-- An operation that reads from no source. -/
def IsSourceFree (o : Operation) : Prop := o.Everywhere NoSource NoSource

/-- Every source has the filter behind it, in pipelines and in map joins. -/
def IsScoped (o condition : Operation) : Prop :=
  o.Everywhere (Followed condition) (Followed condition)

/-- Every source of a pipeline has the filter behind it. -/
def PipesScoped (o condition : Operation) : Prop := o.Everywhere (Followed condition) fun _ => True

/-- Every source that stands directly in a map join has the filter behind it. -/
def JoinsScoped (o condition : Operation) : Prop := o.Everywhere (fun _ => True) (Followed condition)

/-- The stages without those behind the sources. -/
def dropBehindSources : List Operation → List Operation
  | [] => []
  | .source id :: _ :: stages => .source id :: dropBehindSources stages
  | stage :: stages => stage :: dropBehindSources stages

/-- A plan without the stage behind each source of a pipeline. -/
def unrestricted : Operation → Operation := mapPipes dropBehindSources

end Operation

namespace Planner

open Operation

variable {condition : Operation}

theorem restrict_eq (condition o : Operation) :
    restrict condition o = mapPipes (afterSources condition) o := by
  rw [← transform_onPipe]
  refine congrArg (fun f => Id.run (transform f o)) (funext fun o => ?_)
  cases o <;> rfl

/-! ## Putting the filter in -/

theorem followed_afterSources (condition : Operation) (stages : List Operation) :
    Followed condition (afterSources condition stages) := by
  induction stages with
  | nil => trivial
  | cons stage stages ih =>
    cases stage with
    | source id => exact ⟨rfl, ih⟩
    | _ => exact ih

theorem everywhereAll_afterSources {pipes joins : List Operation → Prop}
    (h : condition.Everywhere pipes joins) (stages : List Operation) :
    EverywhereAll pipes joins (afterSources condition stages) ↔
      EverywhereAll pipes joins stages := by
  induction stages with
  | nil => exact Iff.rfl
  | cons stage stages ih =>
    cases stage with
    | source id =>
      constructor
      · intro ⟨hsource, _, hrest⟩
        exact ⟨hsource, ih.mp hrest⟩
      · intro ⟨hsource, hrest⟩
        exact ⟨hsource, h, ih.mpr hrest⟩
    | _ => exact and_congr_right fun _ => ih

theorem afterSources_of_noSource {stages : List Operation} (h : NoSource stages) :
    afterSources condition stages = stages := by
  induction stages with
  | nil => rfl
  | cons stage stages ih =>
    have hrest := ih fun id hid => h id (List.mem_cons_of_mem stage hid)
    cases stage with
    | source id => exact absurd List.mem_cons_self (h id)
    | _ => exact congrArg (_ :: ·) hrest

/-! ## Taking it out -/

theorem dropBehindSources_afterSources (condition : Operation) (stages : List Operation) :
    dropBehindSources (mapPipesAll dropBehindSources (afterSources condition stages)) =
      mapPipesAll dropBehindSources stages := by
  induction stages with
  | nil => rfl
  | cons stage stages ih =>
    cases stage with
    | source id => exact congrArg (Operation.source id :: ·) ih
    | sortDirection term =>
      obtain ⟨e, d⟩ := term
      exact congrArg (_ :: ·) ih
    | _ => exact congrArg (_ :: ·) ih

theorem unrestricted_restrict (condition o : Operation) :
    (restrict condition o).unrestricted = o := by
  rw [restrict_eq]
  exact mapPipes_mapPipes (dropBehindSources_afterSources condition) o

/-- A filter without sources is no other operation's image. -/
theorem restrict_eq_iff (h : condition.IsSourceFree) (o : Operation) :
    restrict condition o = .filter condition ↔ o = .filter condition := by
  have hself : restrict condition (.filter condition) = .filter condition := by
    rw [restrict_eq]
    exact mapPipes_eq_self (o := .filter condition)
      (fun stages hstages => afterSources_of_noSource hstages) h
  constructor
  · intro ho
    rw [← unrestricted_restrict condition o, ho]
    exact (congrArg unrestricted hself.symm).trans (unrestricted_restrict condition _)
  · intro ho
    rw [ho, hself]

/-! ## Where it is -/

theorem followed_mapPipesAll (h : condition.IsSourceFree) (stages : List Operation) :
    Followed condition (mapPipesAll (afterSources condition) stages) ↔
      Followed condition stages := by
  induction stages with
  | nil => exact Iff.rfl
  | cons stage stages ih =>
    cases stage with
    | source id =>
      refine and_congr ?_ ih
      cases stages with
      | nil => exact Iff.rfl
      | cons next stages =>
        have hnext := restrict_eq_iff h next
        rw [restrict_eq] at hnext
        simpa [mapPipesAll] using hnext
    | sortDirection term =>
      obtain ⟨e, d⟩ := term
      exact ih
    | _ => exact ih

theorem isScoped_self (h : condition.IsSourceFree) : condition.IsScoped condition := by
  have hfollowed : ∀ stages, NoSource stages → Followed condition stages := by
    intro stages hstages
    have hself : afterSources condition stages = stages := afterSources_of_noSource hstages
    exact hself ▸ followed_afterSources condition stages
  exact Everywhere.imp hfollowed hfollowed h

/-- Behind the sources of pipelines the filter is always, and in map joins where it was. -/
theorem isScoped_restrict (h : condition.IsSourceFree) (o : Operation) :
    (restrict condition o).PipesScoped condition ∧
      ((restrict condition o).IsScoped condition ↔ o.JoinsScoped condition) := by
  have hself := isScoped_self h
  rw [restrict_eq]
  constructor
  · have hpipes : condition.PipesScoped condition :=
      Everywhere.imp (fun _ hstages => hstages) (fun _ _ => trivial) hself
    have hmap := everywhere_mapPipes ⟨followed_afterSources condition,
      everywhereAll_afterSources hpipes, fun _ => Iff.rfl⟩ o
    exact hmap.mpr (everywhere_of_forall (fun _ => trivial) (fun _ => trivial) o)
  · exact everywhere_mapPipes ⟨followed_afterSources condition,
      everywhereAll_afterSources hself, followed_mapPipesAll h⟩ o

end Planner

open Planner Operation

variable {query globalFilter : Node} {params : Params} {o : Operation}

/-- **What a global filter does to a plan.** Taking out the stage behind each source of a pipeline
gives the plan without it. If it reads from no source itself, it is behind every source of every
pipeline; and it is behind every source there is exactly when the plan without it has it behind
every source that stands directly in a map join. -/
theorem plan_scoped (h : plan query (some globalFilter) params = .ok o) :
    ∃ base condition, plan query none params = .ok base ∧
      (∃ n n', (compose params globalFilter).run n = .ok (condition, n')) ∧
      o.unrestricted = base ∧
      (condition.IsSourceFree → o.PipesScoped condition ∧
        (o.IsScoped condition ↔ base.JoinsScoped condition)) := by
  unfold plan at h ⊢
  cases hquery : (compose params query).run 1 with
  | error e =>
    rw [hquery] at h
    cases h
  | ok planned =>
    obtain ⟨base, next⟩ := planned
    rw [hquery] at h
    cases hfilter : (compose params globalFilter).run next with
    | error e =>
      change ((compose params globalFilter).run next >>= _) = _ at h
      rw [hfilter] at h
      cases h
    | ok filtered =>
      obtain ⟨condition, next'⟩ := filtered
      change ((compose params globalFilter).run next >>= _) = _ at h
      rw [hfilter] at h
      cases h
      exact ⟨base, condition, rfl, ⟨next, next', hfilter⟩, unrestricted_restrict condition base,
        fun hfree => isScoped_restrict hfree base⟩

/-- The documents of a reference are restricted. -/
theorem plan_scoped_reference :
    ∃ o, plan (.postfixed .arrow (.attr "author"))
      (some (.binary .equals (.attr "tenant") (.string "a"))) [] = .ok o ∧
      o.IsScoped (.binary .eq (.attr "tenant") (.literal (.string "a"))) := by
  have hplan : plan (.postfixed .arrow (.attr "author"))
      (some (.binary .equals (.attr "tenant") (.string "a"))) [] =
      .ok (.pipe [.source 1, .filter (.binary .eq (.attr "tenant") (.literal (.string "a"))),
        .filter (.binary .eq (.accessor [.parent, .attr "author", .attr "_ref"]) (.attr "_id")),
        .subscript ⟨0, 1, true⟩] (some "author")) := by
    with_unfolding_all rfl
  obtain ⟨base, condition, hbase, ⟨n, n', hcondition⟩, -, hscoped⟩ := plan_scoped hplan
  cases hcondition
  cases hbase
  refine ⟨_, hplan, (hscoped ⟨trivial, trivial⟩).2.mpr ?_⟩
  exact ⟨trivial, trivial, ⟨trivial, trivial⟩, trivial, trivial⟩

/-- The documents of a reference that is followed further are not. -/
theorem plan_unscoped :
    ∃ o, plan (.postfixed .arrow (.dot (.postfixed .arrow (.attr "author")) (.attr "publisher")))
      (some (.binary .equals (.attr "tenant") (.string "a"))) [] = .ok o ∧
      IsSourceFree (.binary .eq (.attr "tenant") (.literal (.string "a"))) ∧
      ¬ o.IsScoped (.binary .eq (.attr "tenant") (.literal (.string "a"))) := by
  refine ⟨_, by with_unfolding_all rfl, ⟨trivial, trivial⟩, ?_⟩
  intro h
  -- the source in the map join has only the filter of the reference behind it
  obtain ⟨-, -, -, ⟨⟨hfilter, -⟩, -⟩, -⟩ := h
  cases hfilter

end DocQuery
