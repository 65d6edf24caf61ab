import DocQuery.Proofs.Plan.Scoping
import DocQuery.Proofs.Plan.Sources
import Mathlib.Data.List.Nodup

/-!
# Source ids under a global filter

Composition hands out every id once, so the sources of a plan without a global filter are told apart
by their ids. The filter is composed with ids of its own, but only once: putting it behind each
source of each pipeline copies the ids in it as well. **A source of the filter therefore stands in
the plan as often as the filter does**, every other source once, and the ids of a plan are unique
exactly when the filter reads from no source or is put at one place at most (`plan_sources`).

What is fetched is kept under the id of its source, so the copies share what the first of them
fetched, although each may want other documents (`plan_sources_repeated`).
-/

set_option autoImplicit false

namespace DocQuery
namespace Operation

/-! ## Where a global filter is put -/

/-- How many of the stages are sources. -/
def sourceStages : List Operation → Nat
  | [] => 0
  | source _ :: stages => sourceStages stages + 1
  | _ :: stages => sourceStages stages

mutual

/-- At how many places a filter is put: behind the sources that stand in a pipeline. -/
def sites : Operation → Nat
  | source _ | accessor _ | literal _ | splat | subscript _ => 0
  | filter condition => sites condition
  | binary _ lhs rhs => sites lhs + sites rhs
  | not operand => sites operand
  | object members => sitesMembers members
  | array elements => sitesAll elements
  | assignment _ value => sites value
  | range start stop _ => sites start + sites stop
  | ordering terms => sitesTerms terms
  | sortDirection (.mk e _) => sites e
  | call _ arguments => sitesAll arguments
  | pipe stages _ => sitesAll stages + sourceStages stages
  | mapJoin stages => sitesAll stages

def sitesAll : List Operation → Nat
  | [] => 0
  | o :: os => sites o + sitesAll os

def sitesMembers : List Member → Nat
  | [] => 0
  | .assignment _ value :: ms => sites value + sitesMembers ms
  | .splat :: ms => sitesMembers ms

def sitesTerms : List SortTerm → Nat
  | [] => 0
  | .mk e _ :: ts => sites e + sitesTerms ts

end

/-- What is done to the pipelines inside stages makes no stage a source, nor the other way round. -/
theorem sourceStages_mapPipesAll (f : List Operation → List Operation) (stages : List Operation) :
    sourceStages (mapPipesAll f stages) = sourceStages stages := by
  induction stages with
  | nil => rfl
  | cons stage stages ih =>
    cases stage with
    | source id => exact congrArg (· + 1) ih
    | sortDirection term =>
      cases term
      exact ih
    | _ => exact ih

end Operation

namespace Planner

open Operation

variable {condition : Operation} {id : SourceId}

/-! ## Counting the copies -/

/-- Behind each source of a list of stages come the sources of the filter. -/
theorem count_afterSources (condition : Operation) (id : SourceId) (stages : List Operation) :
    (sourcesAll (afterSources condition stages)).count id =
      (sourcesAll stages).count id + sourceStages stages * condition.sources.count id := by
  induction stages with
  | nil => simp [afterSources, sourcesAll, sourceStages]
  | cons stage stages ih =>
    have hother : sourcesAll (afterSources condition (stage :: stages)) =
          stage.sources ++ sourcesAll (afterSources condition stages) ∧
        sourceStages (stage :: stages) = sourceStages stages ∨ ∃ n, stage = .source n := by
      cases stage with
      | source n => exact .inr ⟨n, rfl⟩
      | _ => exact .inl ⟨rfl, rfl⟩
    rcases hother with ⟨hsources, hstages⟩ | ⟨n, rfl⟩
    · rw [hsources, hstages, sourcesAll, List.count_append, List.count_append, ih]
      omega
    · simp only [afterSources, sourcesAll, sources, sourceStages, List.count_append, ih,
        Nat.add_mul]
      omega

mutual

/-- A source of the filter is in the plan once more for each place that the filter is put at. -/
theorem count_mapPipes (condition : Operation) (id : SourceId) : ∀ o : Operation,
    (mapPipes (afterSources condition) o).sources.count id =
      o.sources.count id + o.sites * condition.sources.count id
  | .source _ | .accessor _ | .literal _ | .splat | .subscript _ => by simp [mapPipes, sources, sites]
  | .filter inner => count_mapPipes condition id inner
  | .not operand => count_mapPipes condition id operand
  | .assignment _ value => count_mapPipes condition id value
  | .sortDirection (.mk e _) => count_mapPipes condition id e
  | .binary _ lhs rhs | .range lhs rhs _ => by
    simp only [mapPipes, sources, sites, List.count_append, Nat.add_mul,
      count_mapPipes condition id lhs, count_mapPipes condition id rhs]
    omega
  | .object members => count_mapPipesMembers condition id members
  | .array elements => count_mapPipesAll condition id elements
  | .ordering terms => count_mapPipesTerms condition id terms
  | .call _ arguments => count_mapPipesAll condition id arguments
  | .pipe stages _ => by
    simp only [mapPipes, sources, sites, Nat.add_mul, count_afterSources, sourceStages_mapPipesAll,
      count_mapPipesAll condition id stages]
    omega
  | .mapJoin stages => count_mapPipesAll condition id stages

theorem count_mapPipesAll (condition : Operation) (id : SourceId) : ∀ os : List Operation,
    (sourcesAll (mapPipesAll (afterSources condition) os)).count id =
      (sourcesAll os).count id + sitesAll os * condition.sources.count id
  | [] => by simp [mapPipesAll, sourcesAll, sitesAll]
  | o :: os => by
    simp only [mapPipesAll, sourcesAll, sitesAll, List.count_append, Nat.add_mul,
      count_mapPipes condition id o, count_mapPipesAll condition id os]
    omega

theorem count_mapPipesMembers (condition : Operation) (id : SourceId) : ∀ ms : List Member,
    (sourcesMembers (mapPipesMembers (afterSources condition) ms)).count id =
      (sourcesMembers ms).count id + sitesMembers ms * condition.sources.count id
  | [] => by simp [mapPipesMembers, sourcesMembers, sitesMembers]
  | .assignment _ value :: ms => by
    simp only [mapPipesMembers, sourcesMembers, sitesMembers, List.count_append, Nat.add_mul,
      count_mapPipes condition id value, count_mapPipesMembers condition id ms]
    omega
  | .splat :: ms => count_mapPipesMembers condition id ms

theorem count_mapPipesTerms (condition : Operation) (id : SourceId) : ∀ ts : List SortTerm,
    (sourcesTerms (mapPipesTerms (afterSources condition) ts)).count id =
      (sourcesTerms ts).count id + sitesTerms ts * condition.sources.count id
  | [] => by simp [mapPipesTerms, sourcesTerms, sitesTerms]
  | .mk e _ :: ts => by
    simp only [mapPipesTerms, sourcesTerms, sitesTerms, List.count_append, Nat.add_mul,
      count_mapPipes condition id e, count_mapPipesTerms condition id ts]
    omega

end

theorem count_restrict (condition o : Operation) (id : SourceId) :
    (restrict condition o).sources.count id =
      o.sources.count id + o.sites * condition.sources.count id := by
  rw [restrict_eq]
  exact count_mapPipes condition id o

/-- Where the ids of a plan and of a filter are told apart, those of the two together are if the
filter has none or is put at one place at most. -/
theorem nodup_restrict_iff {o : Operation} (h : (o.sources ++ condition.sources).Nodup) :
    (restrict condition o).sources.Nodup ↔ condition.sources = [] ∨ o.sites ≤ 1 := by
  have hboth := List.nodup_iff_count_le_one.mp h
  simp only [List.count_append] at hboth
  rw [List.nodup_iff_count_le_one]
  simp only [count_restrict]
  constructor
  · intro hunique
    by_cases hnone : condition.sources = []
    · exact .inl hnone
    · right
      obtain ⟨id, hid⟩ := List.exists_mem_of_ne_nil _ hnone
      have hcopies : o.sites * 1 ≤ o.sites * condition.sources.count id :=
        Nat.mul_le_mul_left _ (List.count_pos_iff.mpr hid)
      have hid := hunique id
      omega
  · rintro (hnone | hsites) id
    · have hid := hboth id
      simp only [hnone, List.count_nil, Nat.mul_zero] at hid ⊢
      exact hid
    · have hid := hboth id
      have hcopies : o.sites * condition.sources.count id ≤ 1 * condition.sources.count id :=
        Nat.mul_le_mul_right _ hsites
      omega

end Planner

open Planner Operation

variable {query : Node} {globalFilter : Option Node} {params : Params} {o : Operation}

/-- **Which sources of a plan have an id of their own.** Without a global filter all of them have.
With one, each id in the filter is told apart from those of the plan without it, and is taken as
often as the filter is put behind a source; so all have an id of their own exactly when the filter
reads from no source or is put at one place at most. -/
theorem plan_sources (h : plan query globalFilter params = .ok o) :
    ∃ base, plan query none params = .ok base ∧ base.sources.Nodup ∧
      (globalFilter = none → o = base) ∧
      ∀ filter, globalFilter = some filter → ∃ condition n n',
        (compose params filter).run n = .ok (condition, n') ∧
        (base.sources ++ condition.sources).Nodup ∧
        (∀ id, o.sources.count id =
          base.sources.count id + base.sites * condition.sources.count id) ∧
        (o.sources.Nodup ↔ condition.sources = [] ∨ base.sites ≤ 1) := by
  unfold plan at h ⊢
  cases hquery : (compose params query).run 1 with
  | error e =>
    rw [hquery] at h
    cases h
  | ok planned =>
    obtain ⟨base, next⟩ := planned
    rw [hquery] at h
    have hbase : Counted 1 next base.sources := counted_compose hquery
    refine ⟨base, rfl, hbase.nodup, ?_, ?_⟩
    · rintro rfl
      cases h
      rfl
    · rintro filter rfl
      change ((compose params filter).run next >>= _) = _ at h
      cases hfilter : (compose params filter).run next with
      | error e =>
        rw [hfilter] at h
        cases h
      | ok filtered =>
        obtain ⟨condition, next'⟩ := filtered
        rw [hfilter] at h
        cases h
        have hboth := (hbase.append (counted_compose hfilter)).nodup
        exact ⟨condition, next, next', hfilter, hboth, count_restrict condition base,
          nodup_restrict_iff hboth⟩

/-- One source, and a filter that counts documents: two ids. -/
theorem plan_sources_single :
    ∃ o, plan .everything
      (some (.binary .greater (.functionCall "count" [.everything]) (.integer 0))) [] = .ok o ∧
      o.sources.Nodup := by
  have hplan : plan .everything
      (some (.binary .greater (.functionCall "count" [.everything]) (.integer 0))) [] =
      .ok (.pipe [.source 1, .filter (.binary .gt (.call .count [.pipe [.source 2] none])
        (.literal (.int 0)))] none) := by
    with_unfolding_all rfl
  obtain ⟨base, hbase, -, -, hfiltered⟩ := plan_sources hplan
  obtain ⟨condition, n, n', hcondition, -, -, hunique⟩ := hfiltered _ rfl
  cases hbase
  exact ⟨_, hplan, hunique.mpr (.inr (Nat.le_refl 1))⟩

/-- Two sources, and the same filter: its source stands behind both of them. -/
theorem plan_sources_repeated :
    ∃ o, plan (.array [.everything, .everything])
      (some (.binary .greater (.functionCall "count" [.everything]) (.integer 0))) [] = .ok o ∧
      o.sources = [1, 3, 2, 3] ∧ ¬o.sources.Nodup := by
  refine ⟨_, by with_unfolding_all rfl, rfl, ?_⟩
  decide

end DocQuery
