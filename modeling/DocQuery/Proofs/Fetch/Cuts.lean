import DocQuery.Proofs.Fetch.Documents

/-!
# Orderings and windows

Orderings and subscripts in any number and order (`Operation.isCut`). A fetch takes over those in
front: behind a window whatever it cannot do any more is dropped. **The stages that it takes over
fold into the same specification as all of them** (`Pushdown.exists_pushed`), so an answer to the
specification serves these stages, and what they make of it the stages behind them get.

They give documents to each other, or null where there is none at an index, so their sort keys are
keys of documents or of null (`Pushdown.noFloatKeys_of_cuts`).
-/

set_option autoImplicit false

namespace DocQuery

/-- A stage that sorts or cuts. -/
def Operation.isCut : Operation → Bool
  | ordering _ | subscript _ => true
  | _ => false

namespace FetchSpec

variable {cuts : List Operation}

theorem filter_ofStages_cuts (h : ∀ stage ∈ cuts, stage.isCut = true) :
    (ofStages cuts).filter = none := by
  have hnone : ∀ filter, (ofStages cuts).filter = some filter → False :=
    filter_ofStages (fun _ _ hl _ => hl) fun condition hc => nomatch h _ hc
  cases hfilter : (ofStages cuts).filter with
  | none => rfl
  | some filter => exact (hnone filter hfilter).elim

/-- An ordering behind a window is dropped. -/
theorem applySubscript_of_ordering {spec : FetchSpec} (h : spec.ordering ≠ []) (w : Subscript) :
    spec.applySubscript w = everything.applySubscript w := by
  have hconstraints : spec.hasConstraints = true :=
    Bool.or_eq_true_iff.mpr (.inr (by simpa using h))
  have hwindow : spec.applyWindow w.start w.stop = everything.applyWindow w.start w.stop := by
    unfold applyWindow
    rw [hconstraints]
    rfl
  unfold applySubscript
  cases w.first with
  | true => rfl
  | false => exact hwindow

end FetchSpec

theorem Operation.allLocal_of_forall {os : List Operation} (h : ∀ o ∈ os, o.isLocal = true) :
    allLocal os = true := by
  induction os with
  | nil => rfl
  | cons o os ih =>
    rw [allLocal, h o List.mem_cons_self, ih fun t ht => h t (List.mem_cons_of_mem o ht)]
    rfl

namespace Local

theorem exists_eval_of_mem {os : List Operation} {v : Value} {values : List Value}
    (h : evalAll os v = .ok values) {w : Value} (hw : w ∈ values) : ∃ o ∈ os, eval o v = .ok w := by
  induction os generalizing values with
  | nil =>
    cases h
    cases hw
  | cons o os ih =>
    obtain ⟨a, ho, h⟩ := exists_of_bind_eq_ok h
    obtain ⟨rest, hos, h⟩ := exists_of_bind_eq_ok h
    cases h
    rcases List.mem_cons.mp hw with rfl | hw
    · exact ⟨o, List.mem_cons_self, ho⟩
    · obtain ⟨o', ho', hw⟩ := ih hos hw
      exact ⟨o', List.mem_cons_of_mem o ho', hw⟩

/-- A sort key is the value of a key expression. -/
theorem exists_eval_of_mem_keys {terms : List SortTerm} {v key : Value} (h : key ∈ keys terms v) :
    ∃ term ∈ terms, eval term.expression v = .ok key := by
  unfold keys at h
  cases hkeys : evalAll (terms.map (·.expression)) v with
  | error e =>
    rw [hkeys] at h
    cases h
  | ok ks =>
    rw [hkeys] at h
    obtain ⟨o, ho, hkey⟩ := exists_eval_of_mem hkeys h
    obtain ⟨term, hterm, rfl⟩ := List.mem_map.mp ho
    exact ⟨term, hterm, hkey⟩

end Local

/-- What holds of the values of all scopes of a result. -/
def Scoped.All (P : Value → Prop) : Scoped → Prop
  | one s => P s.value
  | many items _ => ∀ s ∈ items, P s.value

namespace Pushdown

open Local

variable {cuts : List Operation} {P : Value → Prop} {input next : Scoped}

/-- **What a fetch takes over of orderings and subscripts**: the stages in front that fold into the
same specification. It sorts by all that they sort by. -/
theorem exists_pushed (h : ∀ stage ∈ cuts, stage.isCut = true) :
    ∃ pushed left, cuts = pushed ++ left ∧ FetchSpec.ofStages pushed = FetchSpec.ofStages cuts ∧
      ∀ terms, .ordering terms ∈ pushed → ∀ term ∈ terms,
        term ∈ (FetchSpec.ofStages cuts).ordering := by
  induction cuts with
  | nil => exact ⟨[], [], rfl, rfl, fun _ h => nomatch h⟩
  | cons stage rest ih =>
    obtain ⟨pushed, left, rfl, hspec, hterms⟩ := ih fun t ht => h t (List.mem_cons_of_mem stage ht)
    cases stage with
    | ordering terms =>
      refine ⟨.ordering terms :: pushed, left, rfl, ?_, fun terms' hmem term hterm => ?_⟩
      · rw [FetchSpec.ofStages, FetchSpec.ofStages, hspec]
      · refine List.mem_append.mpr ?_
        rcases List.mem_cons.mp hmem with heq | hmem
        · cases heq
          exact .inr hterm
        · exact .inl (hterms terms' hmem term hterm)
    | subscript w =>
      by_cases hordering : (FetchSpec.ofStages (pushed ++ left)).ordering = []
      · refine ⟨.subscript w :: pushed, left, rfl, ?_, fun terms hmem term hterm => ?_⟩
        · rw [FetchSpec.ofStages, FetchSpec.ofStages, hspec]
        · rcases List.mem_cons.mp hmem with heq | hmem
          · cases heq
          · have hnone := hterms terms hmem term hterm
            rw [hordering] at hnone
            cases hnone
      · refine ⟨[.subscript w], pushed ++ left, rfl, ?_, fun terms hmem => ?_⟩
        · exact (FetchSpec.applySubscript_of_ordering hordering w).symm
        · cases List.mem_singleton.mp hmem
    | _ => cases h _ List.mem_cons_self

/-! ## What orderings and subscripts give each other -/

theorem all_sortItems (hscalar : ∀ v, P v → v.asArray? = none) (h : input.All P) :
    ∀ s ∈ input.sortItems.1, P s.value := by
  cases input with
  | many items start => exact h
  | one s =>
    have hs := hscalar s.value h
    unfold Scoped.sortItems
    dsimp only
    split
    · next vs hv =>
      rw [hv] at hs
      cases hs
    · exact List.forall_mem_singleton.mpr h

theorem all_subscript (hscalar : ∀ v, P v → v.asArray? = none) (hnull : P .null) (h : input.All P)
    (w : Subscript) : (input.subscript w).All P := by
  cases input with
  | many items start =>
    unfold Scoped.subscript
    dsimp only
    split
    · show P (((Window.index? items.length start w.start).bind (items[·]?)).getD
        (.detached .null)).value
      cases hindex : (Window.index? items.length start w.start).bind (items[·]?) with
      | none => exact hnull
      | some s =>
        obtain ⟨i, -, hi⟩ := Option.bind_eq_some_iff.mp hindex
        exact h s (List.mem_of_getElem? hi)
    · exact fun s hs => h s (Window.mem_of_mem_cut hs)
  | one s =>
    have hs := hscalar s.value h
    unfold Scoped.subscript
    dsimp only
    split
    · show P (s.first w.start).value
      unfold Scope.first
      split
      · next vs hv =>
        rw [hv] at hs
        cases hs
      · exact hnull
    · show P (s.slice w.start w.stop).value
      unfold Scope.slice
      split
      · next vs hv =>
        rw [hv] at hs
        cases hs
      · exact hnull

/-- Orderings and subscripts have no doubles for keys if no value that they are applied to has. -/
theorem noFloatKeys_of_cuts (hcuts : ∀ stage ∈ cuts, stage.isCut = true)
    (hscalar : ∀ v, P v → v.asArray? = none) (hnull : P .null)
    (hkeys : ∀ terms, .ordering terms ∈ cuts → ∀ v, P v → ∀ key ∈ keys terms v, key.isFloat = false)
    (h : input.All P) : NoFloatKeys cuts input := by
  induction cuts generalizing input with
  | nil => trivial
  | cons stage rest ih =>
    have ih := fun {input} => @ih input (fun t ht => hcuts t (List.mem_cons_of_mem stage ht))
      fun terms ht => hkeys terms (List.mem_cons_of_mem stage ht)
    have hitems := all_sortItems hscalar h
    refine ⟨fun terms hterms s hs => ?_, fun next hstep => ih ?_⟩
    · exact hkeys terms (hterms ▸ List.mem_cons_self) s.value (hitems s hs)
    · cases stage with
      | ordering terms =>
        obtain ⟨-, rfl⟩ := hstep
        exact fun s hs => hitems s (Sorting.mem_sortBy.mp hs)
      | subscript w =>
        obtain rfl := hstep
        exact all_subscript hscalar hnull h w
      | _ => cases hcuts _ List.mem_cons_self

end Pushdown
end DocQuery
