import DocQuery.Proofs.Engine.Ordering
import DocQuery.Proofs.Fetch.Nesting
import DocQuery.Proofs.Value.Truth

/-!
# Answering a specification

What a fetcher may give for the specification of some stages, in place of all documents
(`Pushdown.Serves`): all of them; enough of them, in the order they are stored in; or exactly what
the specification asks for, sorted and cut, with the position of the first one.

**The stages make the same of any of these** (`steps_of_serves`). The engine applies every stage
again, so the answer must not be hurt by that: each step turns an answer for the stages from there
on into an answer for the stages behind it, until nothing is left to ask for and the two lists of
items are the same.
-/

set_option autoImplicit false

namespace DocQuery

namespace FetchSpec

/-- Whether a value passes the filter: whether that is exactly `true`. -/
def passes (spec : FetchSpec) (v : Value) : Bool :=
  match spec.filter with
  | none => true
  | some filter => Local.holds filter v

end FetchSpec

namespace Pushdown

open Local

/-! ## Filters of specifications -/

theorem holds_and (lhs rhs : Operation) (v : Value) :
    holds (.binary .and lhs rhs) v = (holds lhs v && holds rhs v) := by
  unfold holds
  rw [eval]
  cases eval lhs v with
  | error e => rfl
  | ok a =>
    cases eval rhs v with
    | error e => simp [bind, Except.bind]
    | ok b =>
      show (Operator.conjunction a b).same (.bool true) = _
      rw [Bool.eq_iff_iff, Bool.and_eq_true, Value.same_true, Value.same_true, Value.same_true,
        Operator.conjunction_eq_true]

theorem passes_applyFilter (spec : FetchSpec) (condition : Operation) (v : Value) :
    (spec.applyFilter condition).passes v = (spec.passes v && holds condition v) := by
  unfold FetchSpec.passes FetchSpec.applyFilter
  cases spec.filter with
  | none => rfl
  | some so_far => exact holds_and so_far condition v

variable {spec : FetchSpec} {items given : List Scope} {offset : Nat}

theorem filter_passes_of_none (h : spec.filter = none) (items : List Scope) :
    (items.filter fun s => spec.passes s.value) = items := by
  rw [List.filter_eq_self]
  intro s _
  rw [FetchSpec.passes, h]

/-! ## Answers -/

/-- None of the items is an array, which a filter would take apart. -/
def Whole (items : List Scope) : Prop := ∀ s ∈ items, s.value.asArray? = none

theorem candidates_of_whole (h : Whole items) (start : Nat) :
    (Scoped.many items start).candidates = (items, start) := by
  have hflat : items.flatMap Scoped.explode = items := by
    induction items with
    | nil => rfl
    | cons s items ih =>
      have hs := h s List.mem_cons_self
      have hexplode : Scoped.explode s = [s] := by
        unfold Scoped.explode
        cases hv : s.value with
        | array vs =>
          rw [hv] at hs
          cases hs
        | _ => rfl
      rw [List.flatMap_cons, hexplode, ih fun t ht => h t (List.mem_cons_of_mem s ht)]
      rfl
  show (items.flatMap Scoped.explode, start) = _
  rw [hflat]

/-- What may be given for a specification in place of all items. -/
inductive Serves (spec : FetchSpec) (items given : List Scope) (offset : Nat) : Prop where
  /-- All of them. -/
  | all (eq : given = items) (front : offset = 0)
  /-- Items in the order they have, those that pass the filter included. -/
  | enough (whole : Whole items) (mem : ∀ s ∈ given, s ∈ items)
      (passing : (given.filter fun s => spec.passes s.value) =
        items.filter fun s => spec.passes s.value)
      (front : offset = 0)
  /-- Those that pass the filter, sorted and cut. -/
  | exact (whole : spec.hasConstraints = true → Whole items)
      (window : sorted spec.ordering given = spec.windowed
        (sorted spec.ordering (items.filter fun s => spec.passes s.value)))
      (front : offset ≤ spec.offset) (first : given ≠ [] → offset = spec.offset)

namespace Serves

/-- Where nothing is asked for everything is given. -/
theorem eq_of_everything (h : Serves .everything items given offset) :
    given = items ∧ offset = 0 := by
  cases h with
  | all eq front => exact ⟨eq, front⟩
  | enough whole mem passing front =>
    rw [filter_passes_of_none rfl, filter_passes_of_none rfl] at passing
    exact ⟨passing, front⟩
  | exact whole window front first =>
    rw [filter_passes_of_none rfl] at window
    change sorted [] given = sorted [] items at window
    rw [sorted_nil, sorted_nil] at window
    exact ⟨window, Nat.le_zero.mp front⟩

/-- What is given for a window. -/
theorem of_isWindow (hspec : spec.IsWindow) (h : Serves spec items given offset) :
    spec.Cuts items given offset := by
  cases h with
  | all eq front => exact .inl ⟨eq, front⟩
  | enough whole mem passing front =>
    rw [filter_passes_of_none hspec.filter, filter_passes_of_none hspec.filter] at passing
    exact .inl ⟨passing, front⟩
  | exact whole window front first =>
    rw [filter_passes_of_none hspec.filter, hspec.ordering, sorted_nil, sorted_nil] at window
    exact .inr ⟨window, front, first⟩

theorem of_windowed (hspec : spec.IsWindow) (h : given = spec.windowed items)
    (front : offset ≤ spec.offset) (first : given ≠ [] → offset = spec.offset) :
    Serves spec items given offset := by
  refine .exact (fun hc => ?_) ?_ front first
  · rw [hspec.hasConstraints] at hc
    cases hc
  · rw [filter_passes_of_none hspec.filter, hspec.ordering, sorted_nil, sorted_nil, h]

/-- Only items that pass are given where the answer is exact. -/
theorem mem_of_window (window : sorted spec.ordering given = spec.windowed
    (sorted spec.ordering (items.filter fun s => spec.passes s.value))) :
    ∀ s ∈ given, s ∈ items ∧ spec.passes s.value = true := by
  intro s hs
  have hmem : s ∈ sorted spec.ordering given := mem_sorted.mpr hs
  rw [window] at hmem
  exact List.mem_filter.mp (mem_sorted.mp ((spec.windowed_sublist _).subset hmem))

/-- Nothing is given that is no item. -/
theorem mem (h : Serves spec items given offset) : ∀ s ∈ given, s ∈ items := by
  cases h with
  | all eq front => exact fun s hs => eq ▸ hs
  | enough whole mem passing front => exact mem
  | exact whole window front first => exact fun s hs => (mem_of_window window s hs).1

theorem whole (h : Serves spec items given offset) (hspec : spec.hasConstraints = true)
    (hne : ¬(given = items ∧ offset = 0)) : Whole items := by
  cases h with
  | all eq front => exact absurd ⟨eq, front⟩ hne
  | enough whole mem passing front => exact whole
  | exact whole window front first => exact whole hspec

end Serves

/-! ## A filter -/

theorem filter_passes_applyFilter (spec : FetchSpec) (condition : Operation) (items : List Scope) :
    (items.filter fun s => (spec.applyFilter condition).passes s.value) =
      (items.filter fun s => holds condition s.value).filter fun s => spec.passes s.value := by
  rw [List.filter_filter]
  exact List.filter_congr fun s _ => passes_applyFilter spec condition s.value

/-- Behind a filter the rest of the stages is still served: what does not pass it goes, from an
answer that is exact nothing does. -/
theorem serves_filter {condition : Operation}
    (h : Serves (spec.applyFilter condition) items given offset) :
    Serves spec (items.filter fun s => holds condition s.value)
      (given.filter fun s => holds condition s.value) offset := by
  cases h with
  | all eq front => exact .all (by rw [eq]) front
  | enough whole mem passing front =>
    rw [filter_passes_applyFilter, filter_passes_applyFilter] at passing
    refine .enough (fun s hs => whole s (List.mem_filter.mp hs).1) (fun s hs => ?_) passing front
    obtain ⟨hs, hholds⟩ := List.mem_filter.mp hs
    exact List.mem_filter.mpr ⟨mem s hs, hholds⟩
  | exact whole window front first =>
    have hmem := Serves.mem_of_window window
    have hgiven : (given.filter fun s => holds condition s.value) = given := by
      rw [List.filter_eq_self]
      intro s hs
      have hpasses := (hmem s hs).2
      rw [passes_applyFilter, Bool.and_eq_true] at hpasses
      exact hpasses.2
    rw [filter_passes_applyFilter] at window
    rw [hgiven]
    exact .exact (fun _ s hs => whole rfl s (List.mem_filter.mp hs).1) window front first

/-! ## An ordering -/

theorem hasConstraints_applyOrdering {terms : List SortTerm} (h : spec.hasConstraints = true) :
    (spec.applyOrdering terms).hasConstraints = true := by
  rcases Bool.or_eq_true_iff.mp h with hfilter | hordering
  · exact Bool.or_eq_true_iff.mpr (.inl hfilter)
  · refine Bool.or_eq_true_iff.mpr (.inr ?_)
    have hne : spec.ordering ≠ [] := by simpa using hordering
    simp [FetchSpec.applyOrdering, hne]

theorem whole_sorted {terms : List SortTerm} (h : Whole items) : Whole (sorted terms items) :=
  fun s hs => h s (mem_sorted.mp hs)

/-- Behind an ordering the rest of the stages is still served: sorting by all keys at once is
sorting by those of this ordering and then by those behind it. -/
theorem serves_ordering {terms : List SortTerm}
    (hkeys : ∀ s ∈ items, GoodKeys terms s)
    (hrest : ∀ s ∈ items, spec.passes s.value = true → GoodKeys spec.ordering s)
    (h : Serves (spec.applyOrdering terms) items given offset) :
    Serves spec (sorted terms items) (sorted terms given) offset := by
  cases h with
  | all eq front => exact .all (by rw [eq]) front
  | enough whole mem passing front =>
    refine .enough (whole_sorted whole)
      (fun s hs => mem_sorted.mpr (mem s (mem_sorted.mp hs))) ?_ front
    rw [filter_sorted (fun s hs => hkeys s (mem s hs)), filter_sorted hkeys]
    exact congrArg (sorted terms) passing
  | exact whole window front first =>
    have hmem := Serves.mem_of_window window
    have hpass : ∀ s ∈ items.filter fun s => spec.passes s.value,
        GoodKeys spec.ordering s ∧ GoodKeys terms s := by
      intro s hs
      obtain ⟨hs, hpasses⟩ := List.mem_filter.mp hs
      exact ⟨hrest s hs hpasses, hkeys s hs⟩
    refine .exact (fun hc => whole_sorted (whole (hasConstraints_applyOrdering hc))) ?_ front ?_
    · rw [sorted_sorted (fun s hs => hrest s (hmem s hs).1 (hmem s hs).2)
        (fun s hs => hkeys s (hmem s hs).1), filter_sorted hkeys,
        sorted_sorted (fun s hs => (hpass s hs).1) (fun s hs => (hpass s hs).2)]
      exact window
    · intro hne
      refine first fun hnil => hne ?_
      rw [hnil]
      rfl

/-! ## A subscript -/

/-- What is left for the windows behind a stage serves the rest of the stages. -/
theorem Serves.of_cuts (h : spec.project.Cuts items given offset) :
    Serves spec items given offset := by
  cases hconstraints : spec.hasConstraints with
  | true =>
    rw [FetchSpec.project, if_pos hconstraints] at h
    obtain ⟨hgiven, hoffset⟩ := h.eq_of_everything
    exact .all hgiven hoffset
  | false =>
    rw [FetchSpec.project_of_hasConstraints hconstraints] at h
    rcases h with ⟨hgiven, hoffset⟩ | ⟨hgiven, front, first⟩
    · exact .all hgiven hoffset
    · exact .of_windowed (FetchSpec.isWindow_of_hasConstraints hconstraints) hgiven front first

/-- Behind a subscript the same is left of what was given as of all items, or the rest of the stages
is still served. -/
theorem serves_subscript {w : Subscript} (hw : w.IsPlanned) (hbounds : spec.HasBounds)
    (h : Serves (spec.applySubscript w) items given offset) :
    (Scoped.many given offset).subscript w = (Scoped.many items 0).subscript w ∨
      ∃ items' given' offset', (Scoped.many items 0).subscript w = .many items' 0 ∧
        (Scoped.many given offset).subscript w = .many given' offset' ∧
          Serves spec items' given' offset' := by
  have hcuts := h.of_isWindow (FetchSpec.isWindow_applySubscript spec w)
  cases hfirst : w.first with
  | true =>
    refine .inl ?_
    rw [Scoped.subscript_many_index hfirst, Scoped.subscript_many_index hfirst,
      hcuts.pick? hw hfirst]
  | false =>
    refine .inr ⟨_, _, _, ?_, Scoped.subscript_many_slice hfirst,
      .of_cuts (hcuts.narrow hw hfirst hbounds)⟩
    rw [Scoped.subscript_many_slice hfirst, Window.narrow_remaining]

/-! ## A projection -/

/-- Behind a stage that maps the items the rest of the stages is still served. -/
theorem serves_map {o : Operation} (h : Serves spec.project items given offset) :
    Serves spec (items.map (mapped o)) (given.map (mapped o)) offset := by
  have hproject := FetchSpec.isWindow_project spec
  unfold FetchSpec.project at h hproject
  cases hconstraints : spec.hasConstraints with
  | true =>
    rw [hconstraints] at h
    obtain ⟨rfl, rfl⟩ := h.eq_of_everything
    exact .all rfl rfl
  | false =>
    rw [hconstraints] at h hproject
    rcases h.of_isWindow hproject with ⟨rfl, rfl⟩ | ⟨hgiven, front, first⟩
    · exact .all rfl rfl
    · refine .of_windowed hproject ?_ front fun hne => first fun hnil => hne ?_
      · rw [hgiven]
        exact spec.map_windowed (mapped o) items
      · rw [hnil]
        rfl

/-! ## All stages -/

/-- No sort key is a double, at any item that reaches its ordering. -/
def NoFloatKeys : List Operation → Scoped → Prop
  | [], _ => True
  | stage :: rest, input =>
    (∀ terms, stage = .ordering terms → ∀ s ∈ input.sortItems.1, ∀ key ∈ keys terms s.value,
      key.isFloat = false) ∧
    ∀ next, Step stage input next → NoFloatKeys rest next

theorem goodKeys_of_step {terms : List SortTerm} {rest : List Operation} {next : Scoped}
    (hstep : Step (.ordering terms) (.many items 0) next)
    (hkeys : NoFloatKeys (.ordering terms :: rest) (.many items 0)) :
    ∀ s ∈ items, GoodKeys terms s := by
  intro s hs
  obtain ⟨heval, -⟩ := hstep
  obtain ⟨ks, hks⟩ := heval s hs
  refine ⟨ks, hks, fun key hkey => ?_⟩
  refine hkeys.1 terms rfl s hs key ?_
  rw [keys_eq hks]
  exact hkey

/-- An item that passes the filter of a specification reaches all its orderings, so its keys are
good. -/
theorem goodKeys_of_steps {stages : List Operation} {items : List Scope} {r : Scoped}
    (hwhole : (FetchSpec.ofStages stages).hasConstraints = true → Whole items)
    (hrun : Steps stages (.many items 0) r) (hkeys : NoFloatKeys stages (.many items 0)) :
    ∀ s ∈ items, (FetchSpec.ofStages stages).passes s.value = true →
      GoodKeys (FetchSpec.ofStages stages).ordering s := by
  induction stages generalizing items with
  | nil => exact fun s _ _ => .nil s
  | cons stage rest ih =>
    obtain ⟨next, hstep, hrest⟩ := hrun
    cases stage with
    | filter condition =>
      have hall := hwhole rfl
      intro s hs hpasses
      rw [FetchSpec.ofStages, passes_applyFilter, Bool.and_eq_true] at hpasses
      have hnext := hkeys.2 next hstep
      rw [Step, candidates_of_whole hall] at hstep
      obtain ⟨-, rfl⟩ := hstep
      exact ih (fun _ t ht => hall t (List.mem_filter.mp ht).1) hrest hnext s
        (List.mem_filter.mpr ⟨hs, hpasses.2⟩) hpasses.1
    | ordering terms =>
      intro s hs hpasses
      have hgood := goodKeys_of_step hstep hkeys
      have hnext := hkeys.2 next hstep
      obtain ⟨-, rfl⟩ := hstep
      have hlater := ih (fun hc => whole_sorted (hwhole (hasConstraints_applyOrdering hc)))
        hrest hnext s (mem_sorted.mpr hs) hpasses
      exact hlater.append (hgood s hs)
    | subscript w =>
      intro s _ _
      rw [FetchSpec.ofStages, (FetchSpec.isWindow_applySubscript _ w).ordering]
      exact .nil s
    | _ =>
      intro s _ _
      have hnone := (FetchSpec.isWindow_project (FetchSpec.ofStages rest)).ordering
      rw [FetchSpec.ofStages, hnone]
      · exact .nil s
      all_goals simp

/-- **Stages make the same of what serves them as of all items.** -/
theorem steps_of_serves {stages : List Operation} {items given : List Scope} {offset : Nat}
    {r : Scoped} (hlocal : ∀ stage ∈ stages, stage.isLocalStage = true)
    (hplanned : ∀ w, .subscript w ∈ stages → w.IsPlanned)
    (hserves : Serves (.ofStages stages) items given offset)
    (hrun : Steps stages (.many items 0) r) (hkeys : NoFloatKeys stages (.many items 0)) :
    Steps stages (.many given offset) r := by
  induction stages generalizing items given offset with
  | nil =>
    obtain ⟨rfl, rfl⟩ := hserves.eq_of_everything
    exact hrun
  | cons stage rest ih =>
    by_cases hall : given = items ∧ offset = 0
    · obtain ⟨rfl, rfl⟩ := hall
      exact hrun
    · obtain ⟨next, hstep, hrest⟩ := hrun
      have hnext := hkeys.2 next hstep
      have hlocal' := fun t ht => hlocal t (List.mem_cons_of_mem stage ht)
      have hplanned' := fun w hw => hplanned w (List.mem_cons_of_mem stage hw)
      have hmap : isMap stage = true → FetchSpec.ofStages (stage :: rest) =
          (FetchSpec.ofStages rest).project → Steps (stage :: rest) (.many given offset) r := by
        intro hmap hspec
        obtain ⟨heval, rfl⟩ := (step_many hmap).mp hstep
        refine ⟨_, (step_many hmap).mpr ⟨fun s hs => heval s (hserves.mem s hs), rfl⟩, ?_⟩
        rw [hspec] at hserves
        exact ih hlocal' hplanned' (serves_map hserves) hrest hnext
      cases stage with
      | filter condition =>
        have hwhole := hserves.whole rfl hall
        rw [Step, candidates_of_whole hwhole] at hstep
        obtain ⟨heval, rfl⟩ := hstep
        refine ⟨.many (given.filter fun s => holds condition s.value) offset, ?_,
          ih hlocal' hplanned' (serves_filter hserves) hrest hnext⟩
        rw [Step, candidates_of_whole fun s hs => hwhole s (hserves.mem s hs)]
        exact ⟨fun s hs => heval s (hserves.mem s hs), rfl⟩
      | ordering terms =>
        have hgood := goodKeys_of_step hstep hkeys
        obtain ⟨heval, rfl⟩ := hstep
        have hwhole : (FetchSpec.ofStages rest).hasConstraints = true →
            Whole (sorted terms items) := fun hc =>
          whole_sorted (hserves.whole (hasConstraints_applyOrdering hc) hall)
        have hlater := goodKeys_of_steps hwhole hrest hnext
        refine ⟨.many (sorted terms given) offset,
          ⟨fun s hs => heval s (hserves.mem s hs), rfl⟩, ?_⟩
        exact ih hlocal' hplanned' (serves_ordering hgood
          (fun s hs hpasses => hlater s (mem_sorted.mpr hs) hpasses) hserves) hrest hnext
      | subscript w =>
        obtain rfl := hstep
        have hbounds := FetchSpec.bounds_ofStages hplanned'
        refine ⟨_, rfl, ?_⟩
        rcases serves_subscript (hplanned w List.mem_cons_self) hbounds hserves with
          hsame | ⟨items', given', offset', hitems, hgiven, hserves'⟩
        · rw [hsame]
          exact hrest
        · rw [hitems] at hrest hnext
          rw [hgiven]
          exact ih hlocal' hplanned' hserves' hrest hnext
      | source _ | assignment _ _ | splat | range _ _ _ | sortDirection _ | pipe _ _
      | mapJoin _ => cases hlocal _ List.mem_cons_self
      | _ => exact hmap rfl rfl

end Pushdown
end DocQuery
