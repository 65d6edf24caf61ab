import DocQuery.Proofs.Engine.Dialogue

/-!
# What expressions fail with

An expression is an operation that has a value, and whose parts have one wherever they are asked for
it; it reads from no source. **All that it can fail with is a type error of a membership**
(`failsByType_exec`): evaluating the rest always succeeds.
-/

set_option autoImplicit false

namespace DocQuery

namespace Operation

mutual

/-- Whether an operation has a value without a fetch, unless a membership inside has none. An
ordering or a window is none, but may follow on an expression in a pipeline. -/
def isExpression : Operation → Bool
  | filter condition => isExpression condition
  | binary _ lhs rhs => isExpression lhs && isExpression rhs
  | not operand => isExpression operand
  | accessor _ | literal _ => true
  | object members => membersAreExpressions members
  | array elements => areExpressions elements
  | call _ arguments => areExpressions arguments
  | pipe [] _ => true
  | pipe (first :: rest) _ => isExpression first && areStages rest
  | source _ | mapJoin _ | assignment _ _ | splat | subscript _ | range _ _ _ | ordering _
  | sortDirection _ => false

def areExpressions : List Operation → Bool
  | [] => true
  | o :: os => isExpression o && areExpressions os

def membersAreExpressions : List Member → Bool
  | [] => true
  | .assignment _ value :: ms => isExpression value && membersAreExpressions ms
  | .splat :: ms => membersAreExpressions ms

def termsAreExpressions : List SortTerm → Bool
  | [] => true
  | .mk e _ :: ts => isExpression e && termsAreExpressions ts

/-- Whether the stages behind the first one of a pipeline are expressions, orderings and windows. -/
def areStages : List Operation → Bool
  | [] => true
  | subscript _ :: rest => areStages rest
  | ordering terms :: rest => termsAreExpressions terms && areStages rest
  | stage :: rest => isExpression stage && areStages rest

end

end Operation

namespace Dialogue

open Operation Run

variable {α β : Type} {d : Dialogue α} {f : α → Dialogue β}

/-- A dialogue that asks for references at most, and fails with type errors at most. -/
def FailsByType : Dialogue α → Prop
  | done _ => True
  | fail e => e.isOfType = true
  | look _ | fetch _ _ _ => False
  | refer _ _ next => ∀ b, (next b).FailsByType

theorem FailsByType.bind (h : d.FailsByType) (hf : ∀ a, (f a).FailsByType) :
    (d >>= f).FailsByType := by
  induction d with
  | done a => exact hf a
  | fail e => exact h
  | look next ih => exact h.elim
  | refer subject ids next ih => exact fun b => ih b (h b)
  | fetch id spec next ih => exact h.elim

theorem failsByType_pure (a : α) : (pure a : Dialogue α).FailsByType := trivial

theorem failsByType_apply (op : BinaryOp) (a b : Value) :
    (ofExcept (Operator.apply op a b)).FailsByType := by
  cases h : Operator.apply op a b with
  | ok v => trivial
  | error e => exact Operator.isOfType_of_apply h

theorem failsByType_mapM {f : α → Dialogue β} (h : ∀ x, (f x).FailsByType) (xs : List α) :
    (xs.mapM f).FailsByType := by
  induction xs with
  | nil => trivial
  | cons x xs ih =>
    rw [List.mapM_cons]
    exact (h x).bind fun _ => ih.bind fun _ => trivial

theorem failsByType_mapScopes {f : Scope → Dialogue Scoped} (h : ∀ s, (f s).FailsByType)
    (input : Scoped) : (mapScopes f input).FailsByType := by
  cases input with
  | one s => exact h s
  | many items start =>
    have hitem := fun s => (h s).bind fun r => failsByType_pure (r.collapse s)
    exact (failsByType_mapM hitem items).bind fun _ => trivial

theorem failsByType_filterScopes {condition : Scope → Dialogue Scoped}
    (h : ∀ s, (condition s).FailsByType) (input : Scoped) :
    (filterScopes condition input).FailsByType := by
  have hkeep : ∀ items, (keepScopes condition items).FailsByType := by
    intro items
    induction items with
    | nil => trivial
    | cons s items ih => exact (h s).bind fun _ => ih.bind fun _ => trivial
  exact (hkeep _).bind fun _ => trivial

theorem failsByType_sortScopes {keys : Scope → Dialogue (List Value)}
    (h : ∀ s, (keys s).FailsByType) (directions : List Direction) (input : Scoped) :
    (sortScopes directions keys input).FailsByType := by
  have hitem := fun s => (h s).bind fun ks => failsByType_pure (ks, s)
  exact (failsByType_mapM hitem _).bind fun _ => trivial

theorem failsByType_call (function : Function) (subject : Value) (values : List Value) :
    (call function subject values).FailsByType := by
  unfold call
  cases Builtin.pure? function values with
  | some v => trivial
  | none => exact fun _ => trivial

mutual

/-- **An expression fails with type errors at most.** -/
theorem failsByType_exec : ∀ {o : Operation}, o.isExpression = true → ∀ s : Scope,
    (exec o s).FailsByType
  | .filter condition, h, s => failsByType_exec (o := condition) h s
  | .binary op lhs rhs, h, s => by
    obtain ⟨hl, hr⟩ := Bool.and_eq_true_iff.mp h
    rw [exec]
    exact (failsByType_exec hl s).bind fun _ => (failsByType_exec hr s).bind fun _ =>
      (failsByType_apply op _ _).bind fun _ => trivial
  | .not operand, h, s => by
    rw [exec]
    exact (failsByType_exec (o := operand) h s).bind fun _ => trivial
  | .object members, h, s => by
    rw [exec]
    exact (failsByType_execMembers h s []).bind fun _ => trivial
  | .array elements, h, s => by
    rw [exec]
    exact (failsByType_execAll h s).bind fun _ => trivial
  | .call function arguments, h, s => by
    rw [exec]
    exact (@failsByType_execAll arguments h s).bind fun _ =>
      (failsByType_call ..).bind fun _ => trivial
  | .pipe [] _, _, _ => trivial
  | .pipe (first :: rest) _, h, s => by
    obtain ⟨hfirst, hrest⟩ := Bool.and_eq_true_iff.mp h
    have hrun := (failsByType_exec hfirst s).bind fun input =>
      failsByType_applyStages hrest input s
    cases first with
    | source id => cases hfirst
    | _ => exact hrun
  | .accessor _, _, s | .literal _, _, s => trivial
  | .source _, h, _ | .mapJoin _, h, _ | .assignment _ _, h, _ | .splat, h, _ | .subscript _, h, _
  | .range _ _ _, h, _ | .ordering _, h, _ | .sortDirection _, h, _ => nomatch h

theorem failsByType_execAll : ∀ {os : List Operation}, areExpressions os = true → ∀ s : Scope,
    (execAll os s).FailsByType
  | [], _, _ => trivial
  | o :: os, h, s => by
    obtain ⟨ho, hos⟩ := Bool.and_eq_true_iff.mp h
    rw [execAll]
    exact (failsByType_exec ho s).bind fun _ => (failsByType_execAll hos s).bind fun _ => trivial

theorem failsByType_execMembers : ∀ {ms : List Member}, membersAreExpressions ms = true →
    ∀ (s : Scope) (fields : Fields Value), (execMembers ms s fields).FailsByType
  | [], _, _, _ => trivial
  | .assignment name value :: ms, h, s, fields => by
    obtain ⟨hvalue, hms⟩ := Bool.and_eq_true_iff.mp h
    rw [execMembers]
    exact (failsByType_exec hvalue s).bind fun _ => failsByType_execMembers hms s _
  | .splat :: ms, h, s, fields => @failsByType_execMembers ms h s _

theorem failsByType_execKeys : ∀ {terms : List SortTerm}, termsAreExpressions terms = true →
    ∀ s : Scope, (execKeys terms s).FailsByType
  | [], _, _ => trivial
  | .mk e _ :: terms, h, s => by
    obtain ⟨he, hterms⟩ := Bool.and_eq_true_iff.mp h
    rw [execKeys]
    exact (failsByType_exec he s).bind fun _ =>
      (failsByType_execKeys hterms s).bind fun _ => trivial

theorem failsByType_applyStages : ∀ {stages : List Operation}, areStages stages = true →
    ∀ (input : Scoped) (base : Scope), (applyStages stages input base).FailsByType
  | [], _, _, _ => trivial
  | stage :: rest, h, input, base => by
    rw [applyStages.eq_def]
    dsimp only
    cases stage with
    | subscript w => exact @failsByType_applyStages rest h _ base
    | ordering terms =>
      obtain ⟨hterms, hrest⟩ := Bool.and_eq_true_iff.mp h
      exact (failsByType_sortScopes (fun s => failsByType_execKeys hterms s) _ input).bind
        fun next => failsByType_applyStages hrest next base
    | filter condition =>
      obtain ⟨hstage, hrest⟩ := Bool.and_eq_true_iff.mp h
      exact (failsByType_filterScopes (fun s => failsByType_exec hstage s) input).bind
        fun next => failsByType_applyStages hrest next base
    | mapJoin stages => cases h
    | _ =>
      obtain ⟨hstage, hrest⟩ := Bool.and_eq_true_iff.mp h
      exact (failsByType_mapScopes (fun s => failsByType_exec hstage s) input).bind
        fun next => failsByType_applyStages hrest next base

end

/-- What such a dialogue ends with, ends its run. -/
theorem FailsByType.run {fetcher : Fetcher} {e : ExecError} (h : d.FailsByType) :
    ∀ {σ : Session}, ((d.within fetcher).run.run σ).1 = .error e → e.isOfType = true := by
  induction d with
  | done a => exact fun hrun => nomatch hrun
  | fail e' =>
    intro σ hrun
    cases hrun
    exact h
  | look next ih => exact h.elim
  | refer subject ids next ih => exact fun hrun => ih _ (h _) hrun
  | fetch id spec next ih => exact h.elim

end Dialogue
end DocQuery
