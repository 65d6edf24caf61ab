import DocQuery.Proofs.Engine.Correlated
import DocQuery.Proofs.Engine.Dialogue

/-!
# Dialogues about values alone

An operation without sources, map joins and `^` asks its session for nothing but references
(`secluded_exec`). What becomes of its dialogue when every value answers for itself is a function of
the scope: `Dialogue.truth` is what it comes to, and `Dialogue.subjects` are the values that it asks
on the way. **Where the session is faithful to these values, running the operation comes to the
truth** (`comesTo_exec`). Nothing is said of sessions that take one of the values for another.

An operation without pipelines asks of the value at hand and of no other (`asksOf_exec`).
-/

set_option autoImplicit false

namespace DocQuery

/-- `references()`, and nothing else that reaches beyond a value. -/
def Features.secluded : Features := ⟨false, false, false, true⟩

/-- An operation that depends on the value that it is evaluated at and on references of values. -/
abbrev Operation.IsSecluded (o : Operation) : Prop := o.Conforms .secluded Planner.anySource

namespace Dialogue

open Operation Run

variable {α β : Type} {d : Dialogue α} {f : α → Dialogue β} {v : Value}

/-- A dialogue that neither reads the caches nor fetches. -/
def Secluded : Dialogue α → Prop
  | done _ | fail _ => True
  | look _ | fetch _ _ _ => False
  | refer _ _ next => ∀ b, (next b).Secluded

/-- What a dialogue comes to when every value answers for itself and nothing is in the caches. -/
def truth : Dialogue α → Except ExecError α
  | done a => .ok a
  | fail e => .error e
  | look next => (next .empty).truth
  | refer subject ids next => (next (subject.refersTo ids)).truth
  | fetch _ _ next => next.truth

/-- The values that are asked on the way. -/
def subjects : Dialogue α → List Value
  | done _ | fail _ => []
  | look next => (next .empty).subjects
  | refer subject ids next => subject :: (next (subject.refersTo ids)).subjects
  | fetch _ _ next => next.subjects

/-! ## One step after the other -/

theorem Secluded.bind (h : d.Secluded) (hf : ∀ a, (f a).Secluded) : (d >>= f).Secluded := by
  induction d with
  | done a => exact hf a
  | fail e => exact h
  | look next ih => exact h.elim
  | refer subject ids next ih => exact fun b => ih b (h b)
  | fetch id spec next ih => exact h.elim

theorem mem_subjects_bind : v ∈ (d >>= f).subjects ↔
    v ∈ d.subjects ∨ ∃ a, d.truth = .ok a ∧ v ∈ (f a).subjects := by
  induction d with
  | done a =>
    show v ∈ (f a).subjects ↔ _
    simp [subjects, truth]
  | fail e =>
    show v ∈ [] ↔ _
    simp [subjects, truth]
  | look next ih => exact ih .empty
  | refer subject ids next ih =>
    show v ∈ subject :: ((next (subject.refersTo ids)) >>= f).subjects ↔ _
    rw [List.mem_cons, ih, ← or_assoc, ← List.mem_cons]
    rfl
  | fetch id spec next ih => exact ih

theorem secluded_pure (a : α) : (pure a : Dialogue α).Secluded := trivial

theorem secluded_ofExcept (e : Except ExecError α) : (ofExcept e).Secluded := by
  cases e <;> trivial

theorem secluded_mapM {f : α → Dialogue β} (h : ∀ x, (f x).Secluded) (xs : List α) :
    (xs.mapM f).Secluded := by
  induction xs with
  | nil => trivial
  | cons x xs ih =>
    rw [List.mapM_cons]
    exact (h x).bind fun _ => ih.bind fun _ => trivial

/-! ## What operations ask -/

theorem secluded_mapScopes {f : Scope → Dialogue Scoped} (h : ∀ s, (f s).Secluded)
    (input : Scoped) : (mapScopes f input).Secluded := by
  cases input with
  | one s => exact h s
  | many items start =>
    have hitem := fun s => (h s).bind fun r => secluded_pure (r.collapse s)
    exact (secluded_mapM hitem items).bind fun _ => trivial

theorem secluded_keepScopes {condition : Scope → Dialogue Scoped} (h : ∀ s, (condition s).Secluded)
    (items : List Scope) : (keepScopes condition items).Secluded := by
  induction items with
  | nil => trivial
  | cons s items ih => exact (h s).bind fun _ => ih.bind fun _ => trivial

theorem secluded_filterScopes {condition : Scope → Dialogue Scoped}
    (h : ∀ s, (condition s).Secluded) (input : Scoped) : (filterScopes condition input).Secluded :=
  (secluded_keepScopes h _).bind fun _ => trivial

theorem secluded_sortScopes {keys : Scope → Dialogue (List Value)} (h : ∀ s, (keys s).Secluded)
    (directions : List Direction) (input : Scoped) :
    (sortScopes directions keys input).Secluded := by
  have hitem := fun s => (h s).bind fun ks => secluded_pure (ks, s)
  exact (secluded_mapM hitem _).bind fun _ => trivial

theorem secluded_call (function : Function) (subject : Value) (values : List Value) :
    (call function subject values).Secluded := by
  unfold call
  cases Builtin.pure? function values with
  | some v => trivial
  | none => exact fun _ => trivial

mutual

/-- **An operation without sources and joins asks for references and nothing else.** -/
theorem secluded_exec : ∀ {o : Operation}, o.IsSecluded → ∀ s : Scope, (exec o s).Secluded
  | .filter condition, h, s => secluded_exec (o := condition) h s
  | .binary op lhs rhs, h, s => by
    rw [exec]
    exact (secluded_exec h.1 s).bind fun _ => (secluded_exec h.2 s).bind fun _ =>
      (secluded_ofExcept _).bind fun _ => trivial
  | .not operand, h, s => by
    rw [exec]
    exact (secluded_exec (o := operand) h s).bind fun _ => trivial
  | .object members, h, s => by
    rw [exec]
    exact (secluded_execMembers h s []).bind fun _ => trivial
  | .array elements, h, s => by
    rw [exec]
    exact (secluded_execAll h s).bind fun _ => trivial
  | .call function arguments, h, s => by
    rw [exec]
    exact (secluded_execAll h.2 s).bind fun _ => (secluded_call ..).bind fun _ => trivial
  | .pipe stages _, h, s => secluded_run h s
  | .source _, h, _ => h.elim
  | .mapJoin _, h, _ => nomatch h.1
  | .accessor _, _, s | .literal _, _, s | .assignment _ _, _, s | .splat, _, s
  | .subscript _, _, s | .range _ _ _, _, s | .ordering _, _, s | .sortDirection _, _, s => trivial

theorem secluded_execAll : ∀ {os : List Operation}, ConformsAll .secluded Planner.anySource os →
    ∀ s : Scope, (execAll os s).Secluded
  | [], _, _ => trivial
  | o :: os, h, s => by
    rw [execAll]
    exact (secluded_exec h.1 s).bind fun _ => (secluded_execAll h.2 s).bind fun _ => trivial

theorem secluded_execMembers : ∀ {ms : List Member},
    ConformsMembers .secluded Planner.anySource ms → ∀ (s : Scope) (fields : Fields Value),
      (execMembers ms s fields).Secluded
  | [], _, _, _ => trivial
  | .assignment name value :: ms, h, s, fields => by
    rw [execMembers]
    exact (secluded_exec h.1 s).bind fun _ => secluded_execMembers h.2 s _
  | .splat :: ms, h, s, fields => @secluded_execMembers ms h s _

theorem secluded_execKeys : ∀ {terms : List SortTerm},
    ConformsTerms .secluded Planner.anySource terms → ∀ s : Scope, (execKeys terms s).Secluded
  | [], _, _ => trivial
  | .mk e _ :: terms, h, s => by
    rw [execKeys]
    exact (secluded_exec h.1 s).bind fun _ => (secluded_execKeys h.2 s).bind fun _ => trivial

theorem secluded_run : ∀ {stages : List Operation},
    ConformsStages .secluded Planner.anySource stages → ∀ s : Scope, (run stages s).Secluded
  | [], _, _ => trivial
  | first :: rest, ⟨hfirst, hrest⟩, s => by
    have hfirst : first.IsSecluded :=
      hfirst.resolve_left fun ⟨_, _, hsources, _⟩ => nomatch hsources
    have hread := (secluded_exec hfirst s).bind fun input => secluded_applyStages hrest input s
    cases first with
    | source id => exact hfirst.elim
    | _ => exact hread

theorem secluded_applyStages : ∀ {stages : List Operation},
    ConformsAll .secluded Planner.anySource stages → ∀ (input : Scoped) (base : Scope),
      (applyStages stages input base).Secluded
  | [], _, _, _ => trivial
  | stage :: rest, ⟨hstage, hrest⟩, input, base => by
    have hbehind := fun next => secluded_applyStages hrest next base
    have hexec := fun s => secluded_exec hstage s
    rw [applyStages.eq_def]
    dsimp only
    cases stage with
    | subscript w => exact hbehind _
    | ordering terms =>
      exact (secluded_sortScopes (fun s => secluded_execKeys hstage s) _ input).bind hbehind
    | filter condition => exact (secluded_filterScopes hexec input).bind hbehind
    | mapJoin stages => nomatch hstage.1
    | _ => exact (secluded_mapScopes hexec input).bind hbehind

end

/-! ## Running comes to the truth -/

variable {keep : Session → Prop} {fetcher : Fetcher} {s : Scope} {o : Operation}

theorem comesTo_within (h : d.Secluded) (hkeep : ∀ v ∈ d.subjects, Session.Faithful keep v) :
    ComesTo keep id (d.within fetcher) d.truth := by
  induction d with
  | done a => exact comesTo_pure id a
  | fail e => exact comesTo_throw id e
  | look next ih => exact h.elim
  | refer subject ids next ih =>
    have hfaithful := hkeep subject List.mem_cons_self
    intro σ hσ
    have hrun : ((refer subject ids next).within fetcher).run.run σ =
        ((next (σ.context.refersTo subject ids).1).within fetcher).run.run
          { σ with context := (σ.context.refersTo subject ids).2 } := rfl
    rw [hrun, hfaithful.decides σ hσ ids]
    exact ih _ (h _) (fun v hv => hkeep v (List.mem_cons_of_mem _ hv)) _ (hfaithful.keeps σ hσ ids)
  | fetch id spec next ih => exact h.elim

/-- **A secluded operation comes to the truth** in sessions that are faithful to what it asks. -/
theorem comesTo_exec (h : o.IsSecluded)
    (hkeep : ∀ v ∈ (exec o s).subjects, Session.Faithful keep v) :
    ComesTo keep id (Engine.exec fetcher o s) (exec o s).truth := by
  rw [← within_exec]
  exact comesTo_within (secluded_exec h s) hkeep

theorem comesTo_execAll {os : List Operation} (h : ConformsAll .secluded Planner.anySource os)
    (hkeep : ∀ v ∈ (execAll os s).subjects, Session.Faithful keep v) :
    ComesTo keep id (Engine.execAll fetcher os s) (execAll os s).truth := by
  rw [← within_execAll]
  exact comesTo_within (secluded_execAll h s) hkeep

/-! ## Whom operations ask -/

/-- A dialogue that asks of one value only. -/
def AsksOf (v : Value) (d : Dialogue α) : Prop := ∀ w ∈ d.subjects, w = v

theorem AsksOf.bind (h : AsksOf v d) (hf : ∀ a, AsksOf v (f a)) : AsksOf v (d >>= f) := by
  intro w hw
  rcases mem_subjects_bind.mp hw with hw | ⟨a, -, hw⟩
  · exact h w hw
  · exact hf a w hw

theorem asksOf_pure (a : α) : AsksOf v (pure a : Dialogue α) := fun _ hw => nomatch hw

theorem asksOf_ofExcept (e : Except ExecError α) : AsksOf v (ofExcept e) := by
  cases e <;> exact fun _ hw => nomatch hw

theorem asksOf_call (function : Function) (subject : Value) (values : List Value) :
    AsksOf subject (call function subject values) := by
  unfold call
  cases Builtin.pure? function values with
  | some v => exact asksOf_pure v
  | none => exact fun _ hw => List.mem_singleton.mp hw

variable {paths : List PathStep → Bool} {functions : Function → Bool}

mutual

/-- **An operation without pipelines asks of the value that it is evaluated at.** -/
theorem asksOf_exec : ∀ {o : Operation}, o.within paths functions = true → ∀ s : Scope,
    AsksOf s.value (exec o s)
  | .filter condition, h, s => asksOf_exec (o := condition) h s
  | .binary op lhs rhs, h, s => by
    obtain ⟨hl, hr⟩ := Bool.and_eq_true_iff.mp h
    rw [exec]
    exact (asksOf_exec hl s).bind fun _ => (asksOf_exec hr s).bind fun _ =>
      (asksOf_ofExcept _).bind fun _ => asksOf_pure _
  | .not operand, h, s => by
    rw [exec]
    exact (asksOf_exec (o := operand) h s).bind fun _ => asksOf_pure _
  | .object members, h, s => by
    rw [exec]
    exact (asksOf_execMembers h s []).bind fun _ => asksOf_pure _
  | .array elements, h, s => by
    rw [exec]
    exact (asksOf_execAll h s).bind fun _ => asksOf_pure _
  | .call function arguments, h, s => by
    obtain ⟨-, harguments⟩ := Bool.and_eq_true_iff.mp h
    rw [exec]
    exact (asksOf_execAll harguments s).bind fun _ =>
      (asksOf_call _ s.value _).bind fun _ => asksOf_pure _
  | .source _, h, _ | .pipe _ _, h, _ | .mapJoin _, h, _ => by
    cases h
  | .accessor _, _, s | .literal _, _, s | .assignment _ _, _, s | .splat, _, s
  | .subscript _, _, s | .range _ _ _, _, s | .ordering _, _, s | .sortDirection _, _, s =>
    fun _ hw => nomatch hw

theorem asksOf_execAll : ∀ {os : List Operation}, allWithin paths functions os = true →
    ∀ s : Scope, AsksOf s.value (execAll os s)
  | [], _, _ => asksOf_pure _
  | o :: os, h, s => by
    obtain ⟨ho, hos⟩ := Bool.and_eq_true_iff.mp h
    rw [execAll]
    exact (asksOf_exec ho s).bind fun _ => (asksOf_execAll hos s).bind fun _ => asksOf_pure _

theorem asksOf_execMembers : ∀ {ms : List Member}, membersWithin paths functions ms = true →
    ∀ (s : Scope) (fields : Fields Value), AsksOf s.value (execMembers ms s fields)
  | [], _, _, _ => asksOf_pure _
  | .assignment name value :: ms, h, s, fields => by
    obtain ⟨hvalue, hms⟩ := Bool.and_eq_true_iff.mp h
    rw [execMembers]
    exact (asksOf_exec hvalue s).bind fun _ => asksOf_execMembers hms s _
  | .splat :: ms, h, s, fields => @asksOf_execMembers ms h s _

end

end Dialogue
end DocQuery
