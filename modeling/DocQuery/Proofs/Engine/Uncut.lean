import DocQuery.Proofs.Engine.Paired
import DocQuery.Proofs.Fetch.Window
import DocQuery.Proofs.Value.Sorting

/-!
# Collections that nothing has been cut from

A scope keeps the logical position of the first item of its collection, since a fetcher may have cut
off what lies in front. The position is carried along by some stages and dropped by others. **Where
the fetcher cuts nothing off it is zero everywhere** (`keepsUncut_exec`): in the result of every operation,
in the items of a collection, and in all the scopes around them.
-/

set_option autoImplicit false

namespace DocQuery

/-! ## Scopes -/

/-- A scope whose collection is whole, inside scopes that are so as well. -/
inductive Scope.Uncut : Scope → Prop
  | mk {s : Scope} (start : s.start = 0) (parent : ∀ p, s.parent = some p → p.Uncut) : s.Uncut

namespace Scope

variable {s : Scope}

theorem Uncut.start (h : s.Uncut) : s.start = 0 := by
  cases h with
  | mk start parent => exact start

theorem Uncut.parent (h : s.Uncut) {p : Scope} (hp : s.parent = some p) : p.Uncut := by
  cases h with
  | mk start parent => exact parent p hp

theorem uncut_detached (v : Value) : (detached v).Uncut :=
  .mk rfl fun _ hp => nomatch hp

theorem Uncut.withValue (h : s.Uncut) (v : Value) : (s.withValue v).Uncut :=
  .mk h.start fun _ hp => h.parent hp

theorem Uncut.element (h : s.Uncut) (v : Value) : (s.element v).Uncut :=
  .mk rfl fun _ hp => h.parent hp

theorem Uncut.derived (h : s.Uncut) (v : Value) : (s.derived v).Uncut :=
  .mk rfl fun _ hp => h.parent hp

/-- What is inside a scope begins a collection of its own. -/
theorem Uncut.inside (h : s.Uncut) {t : Scope} (hstart : t.start = 0) (hparent : t.parent = some s) :
    t.Uncut := by
  refine .mk hstart fun p hp => ?_
  rw [hparent] at hp
  cases hp
  exact h

theorem Uncut.narrowed (h : s.Uncut) (v : Value) (w : Subscript) : (s.narrowed v w 0).Uncut :=
  .mk rfl fun _ hp => h.parent hp

theorem Uncut.first (h : s.Uncut) (index : Int) : (s.first index).Uncut := by
  unfold Scope.first
  split
  · exact h.narrowed _ _
  · exact h.withValue .null

theorem Uncut.slice (h : s.Uncut) (start stop : Int) : (s.slice start stop).Uncut := by
  unfold Scope.slice
  split
  · next items hvalue =>
    have hremaining : (Window.bounds items.length s.start start stop).2.2 = 0 := by
      rw [h.start]
      exact Window.narrow_remaining ⟨start, stop, false⟩ items
    show (s.narrowed _ _ (Window.bounds items.length s.start start stop).2.2).Uncut
    rw [hremaining]
    exact h.narrowed _ _
  · exact h.withValue .null

theorem Uncut.attr (h : s.Uncut) (name : String) : (s.attr name).Uncut := h.inside rfl rfl

theorem Uncut.resolve (h : s.Uncut) (path : List PathStep) : (s.resolve path).Uncut := by
  induction path generalizing s with
  | nil => exact h
  | cons step path ih =>
    cases step with
    | parent =>
      rw [resolve]
      cases hparent : s.parent with
      | none => exact uncut_detached .null
      | some p =>
        have hp := h.parent hparent
        dsimp only
        split
        · exact hp
        · exact ih hp
    | attr name =>
      rw [resolve]
      split
      · exact h.attr name
      · exact ih (h.attr name)

theorem Uncut.lookup (h : s.Uncut) (id : Value) : (s.lookup id).Uncut := h.inside rfl rfl

end Scope

/-! ## Results -/

/-- A result of whole collections. -/
def Scoped.Uncut : Scoped → Prop
  | .one s => s.Uncut
  | .many items start => start = 0 ∧ ∀ s ∈ items, s.Uncut

namespace Scoped

variable {r : Scoped} {s base : Scope}

theorem Uncut.collapse (h : r.Uncut) (hs : s.Uncut) : (r.collapse s).Uncut := by
  cases r with
  | one t => exact h
  | many items start => exact hs.withValue _

theorem uncut_elementsOf (h : s.Uncut) (vs : List Value) : ∀ t ∈ elementsOf s vs, t.Uncut := by
  intro t ht
  obtain ⟨v, -, rfl⟩ := List.mem_map.mp ht
  exact h.element v

theorem uncut_explode (h : s.Uncut) : ∀ t ∈ explode s, t.Uncut := by
  unfold explode
  split
  · exact uncut_elementsOf h _
  · intro t ht
    obtain rfl := List.mem_singleton.mp ht
    exact h

theorem Uncut.candidates (h : r.Uncut) : r.candidates.2 = 0 ∧ ∀ s ∈ r.candidates.1, s.Uncut := by
  cases r with
  | one s =>
    have hs : s.Uncut := h
    unfold Scoped.candidates
    dsimp only
    split
    · exact ⟨hs.start, uncut_elementsOf hs _⟩
    · exact ⟨rfl, fun t ht => List.mem_singleton.mp ht ▸ hs⟩
  | many items start =>
    refine ⟨h.1, fun t ht => ?_⟩
    obtain ⟨s, hs, ht⟩ := List.mem_flatMap.mp ht
    exact uncut_explode (h.2 s hs) t ht

theorem Uncut.sortItems (h : r.Uncut) : r.sortItems.2 = 0 ∧ ∀ s ∈ r.sortItems.1, s.Uncut := by
  cases r with
  | one s =>
    have hs : s.Uncut := h
    unfold Scoped.sortItems
    dsimp only
    split
    · exact ⟨hs.start, uncut_elementsOf hs _⟩
    · exact ⟨rfl, fun t ht => List.mem_singleton.mp ht ▸ hs⟩
  | many items start => exact h

theorem Uncut.subscript (h : r.Uncut) (w : Subscript) : (r.subscript w).Uncut := by
  cases r with
  | one s =>
    have hs : s.Uncut := h
    show (if w.first then s.first w.start else s.slice w.start w.stop).Uncut
    split
    · exact hs.first _
    · exact hs.slice _ _
  | many items start =>
    obtain ⟨rfl, hitems⟩ := h
    cases hfirst : w.first with
    | true =>
      rw [subscript_many_index hfirst]
      cases hpick : Window.pick? w items 0 with
      | none => exact Scope.uncut_detached .null
      | some s =>
        obtain ⟨i, -, hs⟩ := Option.bind_eq_some_iff.mp hpick
        exact hitems s (List.mem_of_getElem? hs)
    | false =>
      rw [subscript_many_slice hfirst]
      exact ⟨Window.narrow_remaining w items,
        fun s hs => hitems s (Window.mem_of_mem_cut hs)⟩

theorem Uncut.joinOwner (h : r.Uncut) (hbase : base.Uncut) : (r.joinOwner base).Uncut := by
  cases r with
  | one s => exact h
  | many items start =>
    unfold Scoped.joinOwner
    dsimp only
    split <;> exact hbase.inside rfl rfl

end Scoped

theorem Scope.Uncut.lookupAll {s : Scope} (h : s.Uncut) (ids : Value) : (s.lookupAll ids).Uncut := by
  unfold Scope.lookupAll
  split
  · refine ⟨rfl, fun t ht => ?_⟩
    obtain ⟨id, -, rfl⟩ := List.mem_map.mp ht
    exact h.lookup id
  · exact h.lookup _

/-! ## Sessions -/

/-- A session in which every source is at hand from its first document on. -/
def Session.Uncut (σ : Session) : Prop :=
  ∀ id data, σ.context.source? id = some data → data.start = 0

/-- A fetcher that leaves nothing out in front. -/
def Fetcher.Uncut (fetcher : Fetcher) : Prop :=
  ∀ n spec response, fetcher n spec = .ok response → response.start = 0

theorem Session.uncut_empty : Session.empty.Uncut := fun _ _ h => nomatch h

theorem Fetcher.uncut_fullScan (documents : List Json) : (fullScan documents).Uncut := by
  intro n spec response h
  cases h
  rfl

namespace Run

variable {α β : Type} {P : α → Prop} {Q : β → Prop} {x : Run α} {f : α → Run β}

/-- From a session of whole sources a run comes to one, and to a result with the property. -/
def KeepsUncut (x : Run α) (P : α → Prop) : Prop :=
  ∀ σ a τ, σ.Uncut → x.Yields σ a τ → P a ∧ τ.Uncut

theorem keepsUncut_pure {a : α} (h : P a) : KeepsUncut (pure a) P := by
  intro σ b τ hσ hb
  obtain ⟨rfl, rfl⟩ := yields_pure.mp hb
  exact ⟨h, hσ⟩

theorem keepsUncut_throw (e : ExecError) : KeepsUncut (throw e : Run α) P :=
  fun _ _ _ _ h => absurd h not_yields_throw

theorem KeepsUncut.bind (h : KeepsUncut x P) (hf : ∀ a, P a → KeepsUncut (f a) Q) :
    KeepsUncut (x >>= f) Q := by
  intro σ b τ hσ hb
  obtain ⟨a, ρ, ha, hb⟩ := yields_bind.mp hb
  obtain ⟨hP, hρ⟩ := h σ a ρ hσ ha
  exact hf a hP ρ b τ hρ hb

theorem keepsUncut_ofExcept (e : Except ExecError α) : KeepsUncut (ofExcept e) fun _ => True := by
  intro σ a τ hσ ha
  obtain ⟨-, rfl⟩ := yields_ofExcept.mp ha
  exact ⟨trivial, hσ⟩

/-- The caches say where a source begins. -/
theorem keepsUncut_context : KeepsUncut Run.context
    fun c => ∀ id data, c.source? id = some data → data.start = 0 := by
  intro σ c τ hσ hc
  obtain ⟨rfl, rfl⟩ := yields_context.mp hc
  exact ⟨hσ, hσ⟩

theorem keepsUncut_mapM {P : α → Prop} {Q : β → Prop} {f : α → Run β}
    (h : ∀ a, P a → KeepsUncut (f a) Q) {xs : List α} (hxs : ∀ x ∈ xs, P x) :
    KeepsUncut (xs.mapM f) fun ys => ∀ y ∈ ys, Q y := by
  induction xs with
  | nil => exact keepsUncut_pure fun _ hy => nomatch hy
  | cons x xs ih =>
    obtain ⟨hx, hxs⟩ := List.forall_mem_cons.mp hxs
    rw [List.mapM_cons]
    exact (h x hx).bind fun y hy => (ih hxs).bind fun ys hys =>
      keepsUncut_pure (List.forall_mem_cons.mpr ⟨hy, hys⟩)

/-- Asking for references says nothing of the sources. -/
theorem keepsUncut_call (function : Function) (subject : Value) (values : List Value) :
    KeepsUncut (Builtin.call function subject values) fun _ => True := by
  cases function with
  | references =>
    intro σ v τ hσ hv
    obtain ⟨b, ρ, hb, hv⟩ := yields_bind.mp hv
    obtain ⟨-, rfl⟩ := yields_modifyContext.mp hb
    obtain ⟨-, rfl⟩ := yields_pure.mp hv
    refine ⟨trivial, fun id data hdata => hσ id data ?_⟩
    rw [← Engine.source?_refersTo]
    exact hdata
  | _ => exact keepsUncut_pure trivial

theorem keepsUncut_fetch {fetcher : Fetcher} (h : fetcher.Uncut) (id : SourceId) (spec : FetchSpec) :
    KeepsUncut (Run.fetch fetcher id spec) fun _ => True := by
  intro σ u τ hσ hu
  obtain ⟨response, hresponse, rfl⟩ := yields_fetch.mp hu
  refine ⟨trivial, fun other data hdata => ?_⟩
  by_cases hother : other = id
  · obtain rfl := hother
    rw [Engine.source?_store] at hdata
    cases hdata
    exact h _ _ _ hresponse
  · have hkept := Engine.source?_fetched_of_ne (σ := σ) hother spec response
    exact hσ other data (hkept.symm.trans hdata)

end Run

/-! ## Runs -/

namespace Engine

open Run

variable {fetcher : Fetcher} {input : Scoped} {s base : Scope}

theorem keepsUncut_mapScopes {f : Scope → Run Scoped}
    (h : ∀ s, s.Uncut → KeepsUncut (f s) Scoped.Uncut) (hinput : input.Uncut) :
    KeepsUncut (mapScopes f input) Scoped.Uncut := by
  cases input with
  | one s => exact h s hinput
  | many items start =>
    obtain ⟨rfl, hitems⟩ := hinput
    have hitem : ∀ s : Scope, s.Uncut →
        KeepsUncut (do return (← f s).collapse s : Run Scope) Scope.Uncut :=
      fun s hs => (h s hs).bind fun r hr => keepsUncut_pure (hr.collapse hs)
    exact (keepsUncut_mapM hitem hitems).bind fun _ hmapped => keepsUncut_pure ⟨rfl, hmapped⟩

theorem keepsUncut_keepScopes {condition : Scope → Run Scoped}
    (h : ∀ s, s.Uncut → KeepsUncut (condition s) Scoped.Uncut) {items : List Scope}
    (hitems : ∀ s ∈ items, s.Uncut) :
    KeepsUncut (keepScopes condition items) fun kept => ∀ s ∈ kept, s.Uncut := by
  induction items with
  | nil => exact keepsUncut_pure fun _ hs => nomatch hs
  | cons s items ih =>
    obtain ⟨hs, hitems⟩ := List.forall_mem_cons.mp hitems
    refine (h s hs).bind fun verdict _ => (ih hitems).bind fun kept hkept => keepsUncut_pure ?_
    split
    · exact List.forall_mem_cons.mpr ⟨hs, hkept⟩
    · exact hkept

theorem keepsUncut_filterScopes {condition : Scope → Run Scoped}
    (h : ∀ s, s.Uncut → KeepsUncut (condition s) Scoped.Uncut) (hinput : input.Uncut) :
    KeepsUncut (filterScopes condition input) Scoped.Uncut := by
  obtain ⟨hstart, hitems⟩ := hinput.candidates
  exact (keepsUncut_keepScopes h hitems).bind fun _ hkept => keepsUncut_pure ⟨hstart, hkept⟩

theorem keepsUncut_sortScopes {keys : Scope → Run (List Value)}
    (h : ∀ s, s.Uncut → KeepsUncut (keys s) fun _ => True) (directions : List Direction)
    (hinput : input.Uncut) : KeepsUncut (sortScopes directions keys input) Scoped.Uncut := by
  obtain ⟨hstart, hitems⟩ := hinput.sortItems
  have hitem : ∀ s : Scope, s.Uncut →
      KeepsUncut (do return (← keys s, s) : Run (List Value × Scope)) fun p => p.2.Uncut :=
    fun s hs => (h s hs).bind fun _ _ => keepsUncut_pure hs
  refine (keepsUncut_mapM hitem hitems).bind fun keyed hkeyed => keepsUncut_pure ⟨hstart, ?_⟩
  intro s hs
  obtain ⟨p, hp, rfl⟩ := List.mem_map.mp hs
  exact hkeyed p (((Sorting.sortBy_perm _ keyed).mem_iff).mp hp)

theorem keepsUncut_finish (s : Scope) (spec : FetchSpec) :
    KeepsUncut (finish s spec) fun _ => True := by
  unfold finish
  cases spec.filter with
  | none => exact keepsUncut_pure trivial
  | some filter =>
    refine keepsUncut_context.bind fun c _ => (keepsUncut_ofExcept _).bind fun widened _ => ?_
    cases widened <;> exact keepsUncut_pure trivial

mutual

/-- **What is run where nothing is cut off has its collections whole.** -/
theorem keepsUncut_exec (h : fetcher.Uncut) : ∀ (o : Operation) {s : Scope}, s.Uncut →
    KeepsUncut (exec fetcher o s) Scoped.Uncut
  | .source id, s, hs => by
    refine keepsUncut_context.bind fun c hc => ?_
    cases hdata : c.source? id with
    | none => exact keepsUncut_throw _
    | some data => exact keepsUncut_pure (hs.inside (hc id data hdata) rfl)
  | .filter condition, s, hs => keepsUncut_exec h condition hs
  | .binary op lhs rhs, s, hs =>
    (keepsUncut_exec h lhs hs).bind fun _ _ => (keepsUncut_exec h rhs hs).bind fun _ _ =>
      (keepsUncut_ofExcept _).bind fun v _ => keepsUncut_pure (hs.derived v)
  | .not operand, s, hs =>
    (keepsUncut_exec h operand hs).bind fun _ _ => keepsUncut_pure (hs.derived _)
  | .accessor path, s, hs => keepsUncut_pure (hs.resolve path)
  | .literal v, s, hs => keepsUncut_pure (Scope.uncut_detached v)
  | .object members, s, hs =>
    (keepsUncut_execMembers h members hs []).bind fun _ _ => keepsUncut_pure (hs.withValue _)
  | .array elements, s, hs =>
    (keepsUncut_execAll h elements hs).bind fun _ _ => keepsUncut_pure (hs.withValue _)
  | .call function arguments, s, hs =>
    (keepsUncut_execAll h arguments hs).bind fun _ _ =>
      (keepsUncut_call function s.value _).bind fun _ _ => keepsUncut_pure (hs.withValue _)
  | .pipe stages _, s, hs => keepsUncut_run h stages hs
  | .mapJoin stages, s, hs => by
    have hparent : (s.parent.getD .root).Uncut := by
      cases hp : s.parent with
      | none => exact Scope.uncut_detached _
      | some p => exact hs.parent hp
    exact (keepsUncut_run h stages hparent).bind fun ids _ => keepsUncut_pure (hs.lookupAll _)
  | .assignment _ _, _, _ | .splat, _, _ | .subscript _, _, _ | .range _ _ _, _, _
  | .ordering _, _, _ | .sortDirection _, _, _ => keepsUncut_throw _

theorem keepsUncut_execAll (h : fetcher.Uncut) : ∀ (os : List Operation) {s : Scope}, s.Uncut →
    KeepsUncut (execAll fetcher os s) fun _ => True
  | [], _, _ => keepsUncut_pure trivial
  | o :: os, _, hs =>
    (keepsUncut_exec h o hs).bind fun _ _ => (keepsUncut_execAll h os hs).bind fun _ _ =>
      keepsUncut_pure trivial

theorem keepsUncut_execMembers (h : fetcher.Uncut) : ∀ (ms : List Member) {s : Scope}, s.Uncut →
    ∀ fields : Fields Value, KeepsUncut (execMembers fetcher ms s fields) fun _ => True
  | [], _, _, _ => keepsUncut_pure trivial
  | .assignment _ value :: ms, _, hs, _ =>
    (keepsUncut_exec h value hs).bind fun _ _ => keepsUncut_execMembers h ms hs _
  | .splat :: ms, _, hs, _ => keepsUncut_execMembers h ms hs _

theorem keepsUncut_execKeys (h : fetcher.Uncut) : ∀ (terms : List SortTerm) {s : Scope}, s.Uncut →
    KeepsUncut (execKeys fetcher terms s) fun _ => True
  | [], _, _ => keepsUncut_pure trivial
  | .mk e _ :: terms, _, hs =>
    (keepsUncut_exec h e hs).bind fun _ _ => (keepsUncut_execKeys h terms hs).bind fun _ _ =>
      keepsUncut_pure trivial

theorem keepsUncut_run (h : fetcher.Uncut) : ∀ (stages : List Operation) {s : Scope}, s.Uncut →
    KeepsUncut (run fetcher stages s) Scoped.Uncut
  | [], _, hs => keepsUncut_pure (hs.derived .null)
  | first :: rest, s, hs => by
    have hread : KeepsUncut (exec fetcher first s >>= fun input => applyStages fetcher rest input s)
        Scoped.Uncut :=
      (keepsUncut_exec h first hs).bind fun _ hinput => keepsUncut_applyStages h rest hinput hs
    cases first with
    | source id =>
      rw [run_source]
      refine keepsUncut_context.bind fun c _ => ?_
      split
      · exact (keepsUncut_compileStages h rest hs).bind fun _ _ => (keepsUncut_finish s _).bind fun _ _ =>
          (keepsUncut_fetch h id _).bind fun _ _ => hread
      · exact hread
    | _ => exact hread

theorem keepsUncut_applyStages (h : fetcher.Uncut) : ∀ (stages : List Operation) {input : Scoped}
    {base : Scope}, input.Uncut → base.Uncut →
      KeepsUncut (applyStages fetcher stages input base) Scoped.Uncut
  | [], _, _, hinput, _ => keepsUncut_pure hinput
  | stage :: rest, input, base, hinput, hbase => by
    have hexec := fun s (hs : Scope.Uncut s) => keepsUncut_exec h stage hs
    rw [applyStages_eq_bind]
    refine KeepsUncut.bind ?_ fun next hnext => keepsUncut_applyStages h rest hnext hbase
    cases stage with
    | subscript w => exact keepsUncut_pure (hinput.subscript w)
    | ordering terms =>
      exact keepsUncut_sortScopes (fun s hs => keepsUncut_execKeys h terms hs) _ hinput
    | filter condition =>
      exact keepsUncut_filterScopes (fun s hs => keepsUncut_exec h condition hs) hinput
    | mapJoin stages =>
      exact (keepsUncut_run h stages hbase).bind fun ids _ =>
        keepsUncut_pure ((hinput.joinOwner hbase).lookupAll _)
    | _ => exact keepsUncut_mapScopes hexec hinput

theorem keepsUncut_compileStages (h : fetcher.Uncut) : ∀ (stages : List Operation) {s : Scope},
    s.Uncut → KeepsUncut (compileStages fetcher stages s) fun _ => True
  | [], _, _ => keepsUncut_pure trivial
  | stage :: rest, s, hs => by
    rw [compileStages_eq_bind]
    refine (keepsUncut_compileStages h rest hs).bind fun spec _ => ?_
    cases stage with
    | mapJoin stages =>
      refine keepsUncut_context.bind fun c _ => ?_
      cases Join.siblings? c s with
      | none => exact keepsUncut_pure trivial
      | some subjects =>
        have hsubject : ∀ v : Value, True → KeepsUncut (run fetcher stages (.detached v)) Scoped.Uncut :=
          fun v _ => keepsUncut_run h stages (Scope.uncut_detached v)
        exact (keepsUncut_mapM hsubject fun _ _ => trivial).bind fun _ _ => keepsUncut_pure trivial
    | filter _ | subscript _ | ordering _ | object _ | accessor _ | array _ | pipe _ _ | call _ _
    | literal _ | binary _ _ _ | not _ => exact keepsUncut_pure trivial
    | _ => exact keepsUncut_throw _

end

end Engine
end DocQuery
