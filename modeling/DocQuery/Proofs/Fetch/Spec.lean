import DocQuery.Fetch.Spec

/-!
# Specifications as folds over stages

`FetchSpec.ofStages` is the specification that the stages behind a source fold into. A window comes
only from subscripts, with bounds that count from the front (`bounds_ofStages`); and **what a window
or a projection is applied to is not filtered or sorted afterwards**: both leave neither a filter
nor an ordering in front of them.
-/

set_option autoImplicit false

namespace DocQuery

/-- A subscript as plans have them: bounds of 64 bits, and one position for an index. -/
structure Subscript.IsPlanned (w : Subscript) : Prop where
  start_le : w.start ≤ maxInt64
  stop_le : w.stop ≤ maxInt64
  index : w.first = true → w.stop = w.start + 1

namespace FetchSpec

/-- The specification of a fetch, from the stages behind the source. -/
def ofStages : List Operation → FetchSpec
  | [] => .everything
  | .filter condition :: rest => (ofStages rest).applyFilter condition
  | .subscript w :: rest => (ofStages rest).applySubscript w
  | .ordering terms :: rest => (ofStages rest).applyOrdering terms
  | _ :: rest => (ofStages rest).project

/-- A projection at the end adds nothing to what the stages before it fetch. -/
theorem ofStages_append_object (stages : List Operation) (members : List Member) :
    ofStages (stages ++ [.object members]) = ofStages stages := by
  induction stages with
  | nil => rfl
  | cons stage rest ih => cases stage <;> simp only [List.cons_append, ofStages, ih]

/-- A specification without filter and ordering. -/
structure IsWindow (spec : FetchSpec) : Prop where
  filter : spec.filter = none
  ordering : spec.ordering = []

variable {spec : FetchSpec}

theorem isWindow_everything : everything.IsWindow := ⟨rfl, rfl⟩

theorem isWindow_of_hasConstraints (h : spec.hasConstraints = false) : spec.IsWindow := by
  obtain ⟨hfilter, hordering⟩ := Bool.or_eq_false_iff.mp h
  exact ⟨by simpa using hfilter, by simpa using hordering⟩

theorem IsWindow.hasConstraints (h : spec.IsWindow) : spec.hasConstraints = false := by
  rw [FetchSpec.hasConstraints, h.filter, h.ordering]
  rfl

theorem isWindow_project (spec : FetchSpec) : spec.project.IsWindow := by
  unfold project
  cases h : spec.hasConstraints with
  | true => exact isWindow_everything
  | false => exact isWindow_of_hasConstraints h

theorem isWindow_applyWindow (spec : FetchSpec) (start stop : Int) :
    (spec.applyWindow start stop).IsWindow := by
  unfold applyWindow
  split
  · exact isWindow_everything
  · have hproject := isWindow_project spec
    unfold project at hproject
    dsimp only
    split
    · exact ⟨hproject.filter, hproject.ordering⟩
    · exact ⟨hproject.filter, hproject.ordering⟩

theorem isWindow_applySubscript (spec : FetchSpec) (w : Subscript) :
    (spec.applySubscript w).IsWindow :=
  isWindow_applyWindow _ w.start w.stop

/-! ## Bounds -/

/-- A bound that counts from the front. -/
def IsBound (n : Int) : Prop := 0 ≤ n ∧ n ≤ maxInt64

/-- No window, or one with two bounds that count from the front. -/
def HasBounds (spec : FetchSpec) : Prop :=
  spec.start = none ∧ spec.stop = none ∨
    ∃ a b, spec.start = some a ∧ spec.stop = some b ∧ IsBound a ∧ IsBound b

theorem hasBounds_everything : everything.HasBounds := .inl ⟨rfl, rfl⟩

theorem HasBounds.project (h : spec.HasBounds) : spec.project.HasBounds := by
  unfold FetchSpec.project
  split
  · exact hasBounds_everything
  · exact h

theorem isBound_saturate {n : Int} (h : 0 ≤ n) : IsBound (saturate n) := by
  have hmax : (0 : Int) ≤ maxInt64 := by decide
  unfold IsBound saturate
  omega

theorem HasBounds.applyWindow (h : spec.HasBounds) {start stop : Int} (hstart : start ≤ maxInt64)
    (hstop : stop ≤ maxInt64) : (spec.applyWindow start stop).HasBounds := by
  have hproject := h.project
  unfold FetchSpec.project at hproject
  unfold FetchSpec.applyWindow
  split
  · exact hasBounds_everything
  · next hneg =>
    dsimp only
    rcases hproject with ⟨hnone, hnone'⟩ | ⟨a, b, ha, hb, hab, hbb⟩
    · rw [hnone, hnone']
      exact .inr ⟨start, stop, rfl, rfl, ⟨by omega, hstart⟩, ⟨by omega, hstop⟩⟩
    · rw [ha, hb]
      have hsum := isBound_saturate (n := b + start) (by have := hbb.1; omega)
      refine .inr ⟨_, _, rfl, rfl, isBound_saturate (by have := hab.1; omega), ?_⟩
      unfold IsBound at hsum ⊢
      omega

theorem HasBounds.applySubscript (h : spec.HasBounds) {w : Subscript} (hw : w.IsPlanned) :
    (spec.applySubscript w).HasBounds := by
  unfold FetchSpec.applySubscript
  split
  · exact hasBounds_everything.applyWindow hw.start_le hw.stop_le
  · exact h.applyWindow hw.start_le hw.stop_le

theorem bounds_ofStages {stages : List Operation}
    (h : ∀ w, .subscript w ∈ stages → w.IsPlanned) : (ofStages stages).HasBounds := by
  induction stages with
  | nil => exact hasBounds_everything
  | cons stage rest ih =>
    have hrest := ih fun w hw => h w (List.mem_cons_of_mem stage hw)
    cases stage with
    | filter condition => exact hrest
    | ordering terms => exact hrest
    | subscript w => exact hrest.applySubscript (h w List.mem_cons_self)
    | _ => exact hrest.project

/-! ## Filters -/

/-- A property of filters that a conjunction inherits from its operands holds of the filter of a
specification if it holds of the stages' filters. -/
theorem filter_ofStages {P : Operation → Prop}
    (hand : ∀ lhs rhs, P lhs → P rhs → P (.binary .and lhs rhs)) {stages : List Operation}
    (h : ∀ condition, .filter condition ∈ stages → P condition) :
    ∀ filter, (ofStages stages).filter = some filter → P filter := by
  induction stages with
  | nil =>
    intro filter hfilter
    cases hfilter
  | cons stage rest ih =>
    intro filter hfilter
    have hrest := ih fun condition hc => h condition (List.mem_cons_of_mem stage hc)
    cases stage with
    | filter condition =>
      have hcondition := h condition List.mem_cons_self
      simp only [ofStages, applyFilter, Option.some.injEq] at hfilter
      cases hso : (ofStages rest).filter with
      | none =>
        rw [hso] at hfilter
        exact hfilter ▸ hcondition
      | some so_far =>
        rw [hso] at hfilter
        exact hfilter ▸ hand so_far condition (hrest so_far hso) hcondition
    | ordering terms => exact hrest filter hfilter
    | subscript w =>
      rw [ofStages, (isWindow_applySubscript _ w).filter] at hfilter
      cases hfilter
    | _ =>
      have hnone := (isWindow_project (ofStages rest)).filter
      rw [ofStages, hnone] at hfilter
      · cases hfilter
      all_goals simp

/-! ## Orderings -/

/-- The sort terms of a specification are terms of the stages' orderings. -/
theorem ordering_ofStages {P : SortTerm → Prop} {stages : List Operation}
    (h : ∀ terms, .ordering terms ∈ stages → ∀ term ∈ terms, P term) :
    ∀ term ∈ (ofStages stages).ordering, P term := by
  induction stages with
  | nil =>
    intro term hterm
    cases hterm
  | cons stage rest ih =>
    have hrest := ih fun terms ht => h terms (List.mem_cons_of_mem stage ht)
    intro term hterm
    cases stage with
    | filter condition => exact hrest term hterm
    | ordering terms =>
      rcases List.mem_append.mp hterm with hterm | hterm
      · exact hrest term hterm
      · exact h terms List.mem_cons_self term hterm
    | subscript w =>
      rw [ofStages, (isWindow_applySubscript _ w).ordering] at hterm
      cases hterm
    | _ =>
      have hnone := (isWindow_project (ofStages rest)).ordering
      rw [ofStages, hnone] at hterm
      · cases hterm
      all_goals simp

end FetchSpec
end DocQuery
