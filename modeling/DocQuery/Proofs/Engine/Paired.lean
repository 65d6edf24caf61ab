import DocQuery.Proofs.Engine.Errors
import DocQuery.Proofs.Engine.Exec
import DocQuery.Proofs.Plan.Features
import Mathlib.Data.List.Forall2

/-!
# Two runs side by side

A statement about two runs of a plan, or about all runs from a session on, is a relation between
sessions that every operation keeps (`Run.Tracks`). Most of the engine keeps any such relation:
operators, projections, orderings and windows never look at the session. **What has to be shown is
what happens where a pipeline reads from its source** (`Engine.Handles`): that carries over to every
plan that conforms (`Engine.tracks_exec`).

The two runs start in scopes that are alike: of the same value, and the same altogether where plans
may go to the enclosing value.
-/

set_option autoImplicit false

namespace DocQuery

/-! ## Outcomes -/

namespace Run

/-- How two runs are compared: which sessions go together, and whether the first run may fail on its
own. -/
structure Pairing where
  keep : Session → Session → Prop
  lenient : Prop

variable {p : Pairing} {α β γ δ : Type} {R : α → β → Prop} {S : γ → δ → Prop}

/-- Outcomes that go together: values that do, or one error, in sessions that do. -/
inductive Matches (p : Pairing) (R : α → β → Prop) :
    Except ExecError α × Session → Except ExecError β × Session → Prop
  | ok {a b σ ρ} (value : R a b) (session : p.keep σ ρ) : Matches p R (.ok a, σ) (.ok b, ρ)
  | error {e σ ρ} (ordinary : e.isOrdinary = true) (session : p.keep σ ρ) :
    Matches p R (.error e, σ) (.error e, ρ)
  | excused {e σ outcome} (lenient : p.lenient) : Matches p R (.error e, σ) outcome

/-- From sessions that go together, two runs come to outcomes that do. -/
def Tracks (p : Pairing) (R : α → β → Prop) (x : Run α) (y : Run β) : Prop :=
  ∀ σ ρ, p.keep σ ρ → Matches p R (x.run.run σ) (y.run.run ρ)

theorem Matches.imp {R' : α → β → Prop} {outcome : Except ExecError α × Session}
    {outcome' : Except ExecError β × Session} (h : Matches p R outcome outcome')
    (himp : ∀ a b, R a b → R' a b) : Matches p R' outcome outcome' := by
  cases h with
  | ok hvalue hsession => exact .ok (himp _ _ hvalue) hsession
  | error hordinary hsession => exact .error hordinary hsession
  | excused hlenient => exact .excused hlenient

theorem Tracks.imp {R' : α → β → Prop} {x : Run α} {y : Run β} (h : Tracks p R x y)
    (himp : ∀ a b, R a b → R' a b) : Tracks p R' x y :=
  fun σ ρ hkeep => (h σ ρ hkeep).imp himp

theorem tracks_pure {a : α} {b : β} (h : R a b) : Tracks p R (pure a) (pure b) :=
  fun _ _ hkeep => .ok h hkeep

theorem tracks_throw {e : ExecError} (h : e.isOrdinary = true) :
    Tracks p R (throw e) (throw e) := fun _ _ hkeep => .error h hkeep

theorem tracks_bind {x : Run α} {y : Run β} {f : α → Run γ} {g : β → Run δ}
    (h : Tracks p R x y) (hrest : ∀ a b, R a b → Tracks p S (f a) (g b)) :
    Tracks p S (x >>= f) (y >>= g) := by
  intro σ ρ hkeep
  have hx : (x >>= f).run.run σ =
      StateT.run (ExceptT.bindCont f (x.run.run σ).1) (x.run.run σ).2 := rfl
  have hy : (y >>= g).run.run ρ =
      StateT.run (ExceptT.bindCont g (y.run.run ρ).1) (y.run.run ρ).2 := rfl
  have hfirst := h σ ρ hkeep
  rw [hx, hy]
  generalize x.run.run σ = outcome at hfirst
  generalize y.run.run ρ = outcome' at hfirst
  cases hfirst with
  | ok hvalue hsession => exact hrest _ _ hvalue _ _ hsession
  | error hordinary hsession => exact .error hordinary hsession
  | excused hlenient => exact .excused hlenient

theorem tracks_ofExcept {e : Except ExecError α} (h : ∀ err, e = .error err → err.isOrdinary = true) :
    Tracks p Eq (ofExcept e) (ofExcept e) := by
  cases e with
  | ok a => exact tracks_pure rfl
  | error err => exact tracks_throw (h err rfl)

theorem tracks_mapM {Q : γ → δ → Prop} {f : γ → Run α} {g : δ → Run β} {xs : List γ} {ys : List δ}
    (hlist : List.Forall₂ Q xs ys) (h : ∀ x y, Q x y → Tracks p R (f x) (g y)) :
    Tracks p (List.Forall₂ R) (xs.mapM f) (ys.mapM g) := by
  induction hlist with
  | nil => exact tracks_pure .nil
  | cons hhead _ ih =>
    rw [List.mapM_cons, List.mapM_cons]
    exact tracks_bind (h _ _ hhead) fun _ _ hab =>
      tracks_bind ih fun _ _ hrest => tracks_pure (.cons hab hrest)

end Run

/-! ## Scopes -/

/-- Scopes of the same value, and the same altogether where plans may go to the enclosing value. -/
structure Scope.Alike (parents : Bool) (s t : Scope) : Prop where
  value : s.value = t.value
  start : s.start = t.start
  same : parents = true → s = t

namespace Scope.Alike

variable {parents : Bool} {s t : Scope}

theorem refl (s : Scope) : s.Alike parents s := ⟨rfl, rfl, fun _ => rfl⟩

theorem withValue (h : s.Alike parents t) (v : Value) :
    (s.withValue v).Alike parents (t.withValue v) :=
  ⟨rfl, h.start, fun hparents => congrArg (Scope.withValue · v) (h.same hparents)⟩

theorem derived (h : s.Alike parents t) (v : Value) :
    (s.derived v).Alike parents (t.derived v) :=
  ⟨rfl, rfl, fun hparents => congrArg (Scope.derived · v) (h.same hparents)⟩

theorem element (h : s.Alike parents t) (v : Value) :
    (s.element v).Alike parents (t.element v) :=
  ⟨rfl, rfl, fun hparents => congrArg (Scope.element · v) (h.same hparents)⟩

theorem first (h : s.Alike parents t) (index : Int) :
    (s.first index).Alike parents (t.first index) := by
  refine ⟨?_, ?_, fun hparents => congrArg (Scope.first · index) (h.same hparents)⟩
  · simp only [Scope.first, h.value, h.start]
    split <;> simp only [Scope.narrowed, Scope.withValue]
  · simp only [Scope.first, h.value]
    split <;> simp only [Scope.narrowed, Scope.withValue, h.start]

theorem slice (h : s.Alike parents t) (start stop : Int) :
    (s.slice start stop).Alike parents (t.slice start stop) := by
  refine ⟨?_, ?_, fun hparents => congrArg (Scope.slice · start stop) (h.same hparents)⟩
  · simp only [Scope.slice, h.value, h.start]
    split <;> simp only [Scope.narrowed, Scope.withValue]
  · simp only [Scope.slice, h.value]
    split <;> simp only [Scope.narrowed, Scope.withValue, h.start]

theorem resolve (h : s.Alike parents t) {path : List PathStep}
    (hpath : parents = true ∨ .parent ∉ path) :
    (s.resolve path).Alike parents (t.resolve path) := by
  rcases hpath with rfl | hpath
  · rw [h.same rfl]
    exact refl _
  · induction path generalizing s t with
    | nil => exact h
    | cons step path ih =>
      cases step with
      | parent => exact absurd List.mem_cons_self hpath
      | attr name =>
        have hattr : (s.attr name).Alike parents (t.attr name) :=
          ⟨congrArg (·.getD name) h.value, rfl, fun hparents => by rw [h.same hparents]⟩
        rw [Scope.resolve, Scope.resolve, hattr.value]
        split
        · exact hattr
        · exact ih hattr fun hmem => hpath (List.mem_cons_of_mem _ hmem)

end Scope.Alike

/-- Results whose scopes are alike. -/
inductive Scoped.Alike (parents : Bool) : Scoped → Scoped → Prop
  | one {s t} (scope : s.Alike parents t) : Alike parents (.one s) (.one t)
  | many {items items'} (start : Nat) (all : List.Forall₂ (Scope.Alike parents) items items') :
    Alike parents (.many items start) (.many items' start)

namespace Scoped.Alike

variable {parents : Bool} {r r' : Scoped} {s t : Scope}

theorem refl : ∀ r : Scoped, r.Alike parents r
  | .one s => .one (.refl s)
  | .many _ start => .many start (List.forall₂_same.mpr fun s _ => .refl s)

theorem same (h : r.Alike true r') : r = r' := by
  cases h with
  | one hscope => rw [hscope.same rfl]
  | many start hitems =>
    have heq := hitems.imp fun _ _ hst => hst.same rfl
    rw [List.forall₂_eq_eq_eq] at heq
    rw [heq]

theorem values {items items' : List Scope}
    (h : List.Forall₂ (Scope.Alike parents) items items') :
    items.map (·.value) = items'.map (·.value) := by
  rw [← List.forall₂_eq_eq_eq, List.forall₂_map_left_iff, List.forall₂_map_right_iff]
  exact h.imp fun _ _ hst => hst.value

theorem value (h : r.Alike parents r') : r.value = r'.value := by
  cases h with
  | one hscope => exact hscope.value
  | many start hitems => exact congrArg Value.array (values hitems)

theorem collapse (h : r.Alike parents r') (hscope : s.Alike parents t) :
    (r.collapse s).Alike parents (r'.collapse t) := by
  have hvalue := h.value
  cases h with
  | one h => exact h
  | many start hitems =>
    show (s.withValue _).Alike parents (t.withValue _)
    rw [hvalue]
    exact hscope.withValue _

theorem elementsOf (h : s.Alike parents t) (items : List Value) :
    List.Forall₂ (Scope.Alike parents) (Scoped.elementsOf s items) (Scoped.elementsOf t items) := by
  unfold Scoped.elementsOf
  rw [List.forall₂_map_left_iff, List.forall₂_map_right_iff, List.forall₂_same]
  exact fun v _ => h.element v

theorem explode (h : s.Alike parents t) :
    List.Forall₂ (Scope.Alike parents) (Scoped.explode s) (Scoped.explode t) := by
  unfold Scoped.explode
  rw [h.value]
  split
  · exact elementsOf h _
  · exact .cons h .nil

theorem candidates (h : r.Alike parents r') :
    List.Forall₂ (Scope.Alike parents) r.candidates.1 r'.candidates.1 ∧
      r.candidates.2 = r'.candidates.2 := by
  cases h with
  | one h =>
    unfold Scoped.candidates
    simp only [h.value, h.start]
    split
    · exact ⟨elementsOf h _, rfl⟩
    · exact ⟨.cons h .nil, rfl⟩
  | many start hitems => exact ⟨List.rel_flatMap hitems fun _ _ h => explode h, rfl⟩

theorem sortItems (h : r.Alike parents r') :
    List.Forall₂ (Scope.Alike parents) r.sortItems.1 r'.sortItems.1 ∧
      r.sortItems.2 = r'.sortItems.2 := by
  cases h with
  | one h =>
    unfold Scoped.sortItems
    simp only [h.value, h.start]
    split
    · exact ⟨elementsOf h _, rfl⟩
    · exact ⟨.cons h .nil, rfl⟩
  | many start hitems => exact ⟨hitems, rfl⟩

theorem getElem? {items items' : List Scope}
    (h : List.Forall₂ (Scope.Alike parents) items items') (i : Nat) :
    (items[i]?.getD (.detached .null)).Alike parents (items'[i]?.getD (.detached .null)) := by
  induction h generalizing i with
  | nil => exact .refl _
  | cons hhead _ ih =>
    cases i with
    | zero => exact hhead
    | succ i => exact ih i

theorem subscript (h : r.Alike parents r') (w : Subscript) :
    (r.subscript w).Alike parents (r'.subscript w) := by
  cases h with
  | one h =>
    refine .one ?_
    split
    · exact h.first _
    · exact h.slice _ _
  | @many items items' start hitems =>
    unfold Scoped.subscript
    simp only [hitems.length_eq]
    split
    · refine .one ?_
      cases Window.index? items'.length start w.start with
      | none => exact .refl _
      | some i => exact getElem? hitems i
    · exact .many _ (List.forall₂_take _ (List.forall₂_drop _ hitems))

end Scoped.Alike

/-! ## Sorting -/

namespace Sorting

variable {α β : Type} {less : α → α → Bool} {less' : β → β → Bool} {R : α → β → Prop}

theorem forall₂_place
    (hless : ∀ a b a' b', R a a' → R b b' → less a b = less' a' b') {x : α} {x' : β}
    (hx : R x x') {ys : List α} {ys' : List β} (h : List.Forall₂ R ys ys') :
    List.Forall₂ R (place less x ys) (place less' x' ys') := by
  induction h with
  | nil => exact .cons hx .nil
  | cons hhead htail ih =>
    rw [place, place, hless _ _ _ _ hx hhead]
    split
    · exact .cons hhead ih
    · exact .cons hx (.cons hhead htail)

/-- Lists of items that compare alike are sorted alike. -/
theorem forall₂_sortBy
    (hless : ∀ a b a' b', R a a' → R b b' → less a b = less' a' b') {xs : List α} {xs' : List β}
    (h : List.Forall₂ R xs xs') : List.Forall₂ R (sortBy less xs) (sortBy less' xs') := by
  have hfold : List.Forall₂ R (xs.foldl (fun placed x => place less x placed) [])
      (xs'.foldl (fun placed x => place less' x placed) []) :=
    List.rel_foldl (P := List.Forall₂ R) (R := R)
      (fun _ _ hplaced _ _ hx => forall₂_place hless hx hplaced) .nil h
  exact List.forall₂_reverse_iff.mpr hfold

end Sorting

/-! ## Stages over scopes -/

namespace Engine

open Run Operation

variable {p : Pairing} {parents : Bool} {input input' : Scoped}

theorem tracks_mapScopes {f g : Scope → Run Scoped}
    (h : ∀ s t, s.Alike parents t → Tracks p (Scoped.Alike parents) (f s) (g t))
    (hinput : input.Alike parents input') :
    Tracks p (Scoped.Alike parents) (mapScopes f input) (mapScopes g input') := by
  cases hinput with
  | one hscope => exact h _ _ hscope
  | many start hitems =>
    refine tracks_bind (tracks_mapM hitems fun s t hst => ?_) fun _ _ hmapped =>
      tracks_pure (.many start hmapped)
    exact tracks_bind (h s t hst) fun _ _ hr => tracks_pure (hr.collapse hst)

theorem tracks_keepScopes {f g : Scope → Run Scoped} {items items' : List Scope}
    (h : ∀ s t, s.Alike parents t → Tracks p (Scoped.Alike parents) (f s) (g t))
    (hitems : List.Forall₂ (Scope.Alike parents) items items') :
    Tracks p (List.Forall₂ (Scope.Alike parents)) (keepScopes f items) (keepScopes g items') := by
  induction hitems with
  | nil => exact tracks_pure .nil
  | cons hhead _ ih =>
    refine tracks_bind (h _ _ hhead) fun r r' hr => tracks_bind ih fun kept kept' hkept => ?_
    refine tracks_pure ?_
    rw [hr.value]
    split
    · exact .cons hhead hkept
    · exact hkept

theorem tracks_filterScopes {f g : Scope → Run Scoped}
    (h : ∀ s t, s.Alike parents t → Tracks p (Scoped.Alike parents) (f s) (g t))
    (hinput : input.Alike parents input') :
    Tracks p (Scoped.Alike parents) (filterScopes f input) (filterScopes g input') := by
  obtain ⟨hitems, hstart⟩ := hinput.candidates
  have hkept := tracks_keepScopes h hitems
  refine tracks_bind hkept fun kept kept' hkept => tracks_pure ?_
  show Scoped.Alike parents (.many kept input.candidates.2) (.many kept' input'.candidates.2)
  rw [hstart]
  exact .many _ hkept

theorem tracks_sortScopes {f g : Scope → Run (List Value)} (directions : List Direction)
    (h : ∀ s t, s.Alike parents t → Tracks p Eq (f s) (g t))
    (hinput : input.Alike parents input') :
    Tracks p (Scoped.Alike parents) (sortScopes directions f input)
      (sortScopes directions g input') := by
  obtain ⟨hitems, hstart⟩ := hinput.sortItems
  have hkeyed := tracks_mapM hitems (p := p)
    (R := fun (a b : List Value × Scope) => a.1 = b.1 ∧ a.2.Alike parents b.2)
    (f := fun s => do return (← f s, s)) (g := fun s => do return (← g s, s))
    fun s t hst => tracks_bind (h s t hst) fun _ _ hkeys => tracks_pure ⟨hkeys, hst⟩
  refine tracks_bind hkeyed fun keyed keyed' hkeyed => tracks_pure ?_
  show Scoped.Alike parents (.many ((sortByKeys directions keyed).map (·.2)) input.sortItems.2)
    (.many ((sortByKeys directions keyed').map (·.2)) input'.sortItems.2)
  rw [hstart]
  refine .many _ ?_
  rw [List.forall₂_map_left_iff, List.forall₂_map_right_iff]
  refine (Sorting.forall₂_sortBy (fun a b a' b' ha hb => ?_) hkeyed).imp fun a b hab => hab.2
  rw [ha.1, hb.1]

/-! ## Plans

The engine takes one stage after the other. -/

section

variable (fetcher : Fetcher)

/-- What a stage makes of a result. -/
def applyStage (stage : Operation) (input : Scoped) (base : Scope) : Run Scoped :=
  match stage with
  | .subscript w => pure (input.subscript w)
  | .ordering terms =>
    sortScopes (terms.map (·.direction)) (fun s => execKeys fetcher terms s) input
  | .filter condition => filterScopes (fun s => exec fetcher condition s) input
  | .mapJoin stages => do
    let ids ← run fetcher stages base
    pure ((input.joinOwner base).lookupAll ids.value)
  | stage => mapScopes (fun s => exec fetcher stage s) input

theorem applyStages_eq_bind (stage : Operation) (rest : List Operation) (input : Scoped)
    (base : Scope) : applyStages fetcher (stage :: rest) input base =
      applyStage fetcher stage input base >>= fun next => applyStages fetcher rest next base := by
  rw [applyStages_cons]
  cases stage with
  | mapJoin stages => exact (bind_assoc ..).symm
  | _ => rfl

/-- The ids that a map join finds for the siblings. -/
def joinIds (stages : List Operation) : Option (List Value) → FetchSpec → Run FetchSpec
  | none, spec => return spec
  | some subjects, spec => do
    let found ← subjects.mapM fun v => run fetcher stages (.detached v)
    let ids := found.foldl (fun ids r => addIds ids (Join.spread r.value)) []
    return spec.applyFilter (idFilter ids)

/-- What a stage adds to the specification of those behind it. -/
def compileStage (stage : Operation) (s : Scope) (spec : FetchSpec) : Run FetchSpec :=
  match stage with
  | .filter condition => return spec.applyFilter condition
  | .subscript w => return spec.applySubscript w
  | .ordering terms => return spec.applyOrdering terms
  | .mapJoin stages => do
    let c ← Run.context
    joinIds fetcher stages (Join.siblings? c s) { FetchSpec.everything with filter := spec.filter }
  | .object _ | .accessor _ | .array _ | .pipe _ _ | .call _ _ | .literal _ | .binary _ _ _
  | .not _ => return spec.project
  | stage => throw (.uncompilableStage stage.kind)

theorem compileStages_eq_bind (stage : Operation) (rest : List Operation) (s : Scope) :
    compileStages fetcher (stage :: rest) s =
      compileStages fetcher rest s >>= compileStage fetcher stage s := by
  rw [compileStages.eq_def]
  refine congrArg (compileStages fetcher rest s >>= ·) (funext fun spec => ?_)
  cases stage with
  | mapJoin stages =>
    refine congrArg (Run.context >>= ·) (funext fun c => ?_)
    cases Join.siblings? c s <;> rfl
  | _ => rfl

end

/-- What has to be shown of two runs, once for all plans: how a pipeline goes on from its source,
given that everything behind the source keeps the relation; how `references()` is answered; and,
where there are map joins, that the caches are the same. -/
structure Handles (p : Pairing) (fetcher fetcher' : Fetcher) (f : Features)
    (reads : SourceId → List Operation → Prop) : Prop where
  source : f.sources = true → ∀ (id : SourceId) (rest : List Operation) (s t : Scope),
    reads id rest → ConformsAll f reads rest → s.Alike f.parents t →
    (∀ stages, stages <:+ rest → ∀ input input', input.Alike f.parents input' →
      Tracks p (Scoped.Alike f.parents) (applyStages fetcher stages input s)
        (applyStages fetcher' stages input' t)) →
    Tracks p Eq (compileStages fetcher rest s) (compileStages fetcher' rest t) →
    Tracks p (Scoped.Alike f.parents) (run fetcher (.source id :: rest) s)
      (run fetcher' (.source id :: rest) t)
  references : f.references = true → ∀ (subject : Value) (values : List Value),
    Tracks p Eq (Builtin.call .references subject values) (Builtin.call .references subject values)
  context : f.joins = true → ∀ σ ρ, p.keep σ ρ → σ.context = ρ.context

section

variable {fetcher fetcher' : Fetcher} {f : Features} {reads : SourceId → List Operation → Prop}

theorem tracks_call (h : Handles p fetcher fetcher' f reads) {function : Function}
    (hfunction : function = .references → f.references = true) (subject : Value)
    (values : List Value) :
    Tracks p Eq (Builtin.call function subject values) (Builtin.call function subject values) := by
  cases function with
  | references => exact h.references (hfunction rfl) subject values
  | _ => exact tracks_pure rfl

/-- Where there are map joins, the caches are the same. -/
theorem tracks_context (h : Handles p fetcher fetcher' f reads) (hjoins : f.joins = true) :
    Tracks p Eq Run.context Run.context :=
  fun σ ρ hkeep => .ok (h.context hjoins σ ρ hkeep) hkeep

theorem tracks_joinIds {stages : List Operation}
    (h : ∀ v, Tracks p (Scoped.Alike parents) (run fetcher stages (.detached v))
      (run fetcher' stages (.detached v))) (subjects : Option (List Value)) (spec : FetchSpec) :
    Tracks p Eq (joinIds fetcher stages subjects spec) (joinIds fetcher' stages subjects spec) := by
  cases subjects with
  | none => exact tracks_pure rfl
  | some subjects =>
    have hlist : List.Forall₂ Eq subjects subjects := List.forall₂_same.mpr fun _ _ => rfl
    have hfound := tracks_mapM hlist (fun v _ hv => hv ▸ h v :
      ∀ v v', v = v' → Tracks p (Scoped.Alike parents) (run fetcher stages (.detached v))
        (run fetcher' stages (.detached v')))
    refine tracks_bind hfound fun found found' hfound => ?_
    have hvalues : found.map (·.value) = found'.map (·.value) := by
      rw [← List.forall₂_eq_eq_eq, List.forall₂_map_left_iff, List.forall₂_map_right_iff]
      exact hfound.imp fun _ _ hr => hr.value
    refine tracks_pure (congrArg (fun ids => spec.applyFilter (idFilter ids)) ?_)
    have hfold : ∀ rs : List Scoped, rs.foldl (fun ids r => addIds ids (Join.spread r.value)) [] =
        (rs.map (·.value)).foldl (fun ids v => addIds ids (Join.spread v)) [] := fun rs => by
      rw [List.foldl_map]
    rw [hfold, hfold, hvalues]

theorem run_of_conforms {first : Operation} (h : first.Conforms f reads) (rest : List Operation)
    (s : Scope) : run fetcher (first :: rest) s = (do
      let input ← exec fetcher first s
      applyStages fetcher rest input s) := by
  rw [run_cons]
  cases first <;> first | exact h.elim | rfl

mutual

/-- **A plan that conforms keeps what its sources keep.** -/
theorem tracks_exec (h : Handles p fetcher fetcher' f reads) : ∀ {o : Operation},
    o.Conforms f reads → ∀ {s t : Scope}, s.Alike f.parents t →
      Tracks p (Scoped.Alike f.parents) (exec fetcher o s) (exec fetcher' o t)
  | .source _, ho, _, _, _ => ho.elim
  | .filter condition, ho, _, _, hst => tracks_exec h (o := condition) ho hst
  | .binary op lhs rhs, ho, s, t, hst => by
    rw [exec_binary, exec_binary]
    refine tracks_bind (tracks_exec h ho.1 hst) fun a a' ha => ?_
    refine tracks_bind (tracks_exec h ho.2 hst) fun b b' hb => ?_
    rw [ha.value, hb.value]
    refine tracks_bind (tracks_ofExcept fun _ => Operator.isOrdinary_apply) fun v _ hv => ?_
    exact tracks_pure (hv ▸ .one (hst.derived v))
  | .not operand, ho, s, t, hst => by
    rw [exec_not, exec_not]
    refine tracks_bind (tracks_exec h (o := operand) ho hst) fun a a' ha => ?_
    rw [ha.value]
    exact tracks_pure (.one (hst.derived _))
  | .accessor path, ho, _, _, hst => tracks_pure (.one (hst.resolve ho))
  | .literal _, _, _, _, _ => tracks_pure (.one (.refl _))
  | .object members, ho, s, t, hst => by
    rw [exec_object, exec_object]
    refine tracks_bind (tracks_execMembers h members ho hst []) fun fields _ hfields => ?_
    exact tracks_pure (hfields ▸ .one (hst.withValue _))
  | .array elements, ho, s, t, hst => by
    rw [exec_array, exec_array]
    refine tracks_bind (tracks_execAll h elements ho hst) fun values _ hvalues => ?_
    exact tracks_pure (hvalues ▸ .one (hst.withValue _))
  | .call function arguments, ho, s, t, hst => by
    rw [exec_call, exec_call]
    refine tracks_bind (tracks_execAll h arguments ho.2 hst) fun values _ hvalues => ?_
    obtain rfl := hvalues
    rw [hst.value]
    refine tracks_bind (tracks_call h ho.1 t.value values) fun v _ hv => ?_
    exact tracks_pure (hv ▸ .one (hst.withValue _))
  | .pipe stages _, ho, _, _, hst => tracks_run h stages ho hst
  | .mapJoin stages, ho, s, t, hst => by
    obtain rfl := hst.same ho.2.1
    refine tracks_bind (tracks_run h stages ho.2.2 (.refl _)) fun ids ids' hids => ?_
    rw [hids.value]
    exact tracks_pure (.refl _)
  | .assignment _ _, _, _, _, _ | .splat, _, _, _, _ | .subscript _, _, _, _, _
  | .range _ _ _, _, _, _, _ | .ordering _, _, _, _, _ | .sortDirection _, _, _, _, _ =>
    tracks_throw rfl

theorem tracks_execAll (h : Handles p fetcher fetcher' f reads) : ∀ os : List Operation,
    ConformsAll f reads os → ∀ {s t : Scope}, s.Alike f.parents t →
      Tracks p Eq (execAll fetcher os s) (execAll fetcher' os t)
  | [], _, _, _, _ => tracks_pure rfl
  | o :: os, ho, s, t, hst => by
    rw [execAll_cons, execAll_cons]
    refine tracks_bind (tracks_exec h ho.1 hst) fun a a' ha => ?_
    refine tracks_bind (tracks_execAll h os ho.2 hst) fun rest rest' hrest => tracks_pure ?_
    rw [ha.value, hrest]

theorem tracks_execMembers (h : Handles p fetcher fetcher' f reads) : ∀ ms : List Member,
    ConformsMembers f reads ms → ∀ {s t : Scope}, s.Alike f.parents t → ∀ fields : Fields Value,
      Tracks p Eq (execMembers fetcher ms s fields) (execMembers fetcher' ms t fields)
  | [], _, _, _, _, _ => tracks_pure rfl
  | .assignment name value :: ms, hms, s, t, hst, fields => by
    rw [execMembers_assignment, execMembers_assignment]
    refine tracks_bind (tracks_exec h hms.1 hst) fun a a' ha => ?_
    rw [ha.value]
    exact tracks_execMembers h ms hms.2 hst _
  | .splat :: ms, hms, s, t, hst, fields => by
    have hvalue := hst.value
    show Tracks p Eq (execMembers fetcher ms s (fields.merge (s.value.asObject?.getD [])))
      (execMembers fetcher' ms t (fields.merge (t.value.asObject?.getD [])))
    rw [hvalue]
    exact tracks_execMembers h ms hms hst _

theorem tracks_execKeys (h : Handles p fetcher fetcher' f reads) : ∀ terms : List SortTerm,
    ConformsTerms f reads terms → ∀ {s t : Scope}, s.Alike f.parents t →
      Tracks p Eq (execKeys fetcher terms s) (execKeys fetcher' terms t)
  | [], _, _, _, _ => tracks_pure rfl
  | .mk e _ :: terms, hterms, s, t, hst => by
    refine tracks_bind (tracks_exec h hterms.1 hst) fun a a' ha => ?_
    refine tracks_bind (tracks_execKeys h terms hterms.2 hst) fun rest rest' hrest => ?_
    rw [ha.value, hrest]
    exact tracks_pure rfl

theorem tracks_run (h : Handles p fetcher fetcher' f reads) : ∀ stages : List Operation,
    ConformsStages f reads stages → ∀ {s t : Scope}, s.Alike f.parents t →
      Tracks p (Scoped.Alike f.parents) (run fetcher stages s) (run fetcher' stages t)
  | [], _, _, _, hst => tracks_pure (.one (hst.derived _))
  | first :: rest, hstages, s, t, hst => by
    have happly := fun stages hsuffix => tracks_applyStages h rest hstages.2 stages hsuffix hst
    have hcompile := tracks_compileStages h rest hstages.2 hst
    rcases hstages.1 with ⟨id, rfl, hsources, hreads⟩ | hfirst
    · exact h.source hsources id rest s t hreads hstages.2 hst happly hcompile
    · have hexec := tracks_exec h hfirst hst
      rw [run_of_conforms hfirst, run_of_conforms hfirst]
      exact tracks_bind hexec fun r r' hr => happly rest (List.suffix_refl _) r r' hr

theorem tracks_applyStages (h : Handles p fetcher fetcher' f reads) : ∀ rest : List Operation,
    ConformsAll f reads rest → ∀ stages, stages <:+ rest → ∀ {s t : Scope}, s.Alike f.parents t →
      ∀ input input', input.Alike f.parents input' →
        Tracks p (Scoped.Alike f.parents) (applyStages fetcher stages input s)
          (applyStages fetcher' stages input' t)
  | [], _, stages, hsuffix, s, t, hst, input, input', hinput => by
    obtain rfl := List.suffix_nil.mp hsuffix
    exact tracks_pure hinput
  | stage :: rest, hrest, stages, hsuffix, s, t, hst, input, input', hinput => by
    have ih := tracks_applyStages h rest hrest.2
    rcases List.suffix_cons_iff.mp hsuffix with rfl | hsuffix
    · have hexec := fun s t (hst : Scope.Alike f.parents s t) => tracks_exec h hrest.1 hst
      rw [applyStages_eq_bind, applyStages_eq_bind]
      refine tracks_bind ?_ fun next next' hnext => ih rest (List.suffix_refl _) hst next next' hnext
      cases stage with
      | subscript w => exact tracks_pure (hinput.subscript w)
      | ordering terms =>
        exact tracks_sortScopes _ (fun s t hst => tracks_execKeys h terms hrest.1 hst) hinput
      | filter condition => exact tracks_filterScopes hexec hinput
      | mapJoin stages =>
        obtain ⟨-, hparents, hstages⟩ := hrest.1
        refine tracks_bind (tracks_run h stages hstages hst) fun ids ids' hids => tracks_pure ?_
        rw [hparents] at hinput
        rw [hids.value, hinput.same, hst.same hparents]
        exact .refl _
      | _ => exact tracks_mapScopes hexec hinput
    · exact ih stages hsuffix hst input input' hinput

theorem tracks_compileStages (h : Handles p fetcher fetcher' f reads) : ∀ rest : List Operation,
    ConformsAll f reads rest → ∀ {s t : Scope}, s.Alike f.parents t →
      Tracks p Eq (compileStages fetcher rest s) (compileStages fetcher' rest t)
  | [], _, _, _, _ => tracks_pure rfl
  | stage :: rest, hrest, s, t, hst => by
    rw [compileStages_eq_bind, compileStages_eq_bind]
    refine tracks_bind (tracks_compileStages h rest hrest.2 hst) fun spec _ hspec => ?_
    obtain rfl := hspec
    cases stage with
    | mapJoin stages =>
      obtain ⟨hjoins, hparents, hstages⟩ := hrest.1
      obtain rfl := hst.same hparents
      have hrun := fun v => tracks_run h stages hstages (.refl (.detached v))
      refine tracks_bind (tracks_context h hjoins) fun c _ hc => ?_
      obtain rfl := hc
      exact tracks_joinIds hrun _ _
    | filter _ | subscript _ | ordering _ | object _ | accessor _ | array _ | pipe _ _ | call _ _
    | literal _ | binary _ _ _ | not _ => exact tracks_pure rfl
    | _ => exact tracks_throw rfl

end

end

end Engine
end DocQuery
