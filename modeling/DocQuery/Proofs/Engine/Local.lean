import DocQuery.Proofs.Engine.Yields
import DocQuery.Proofs.Store.Document
import DocQuery.Store.Pushdown

/-!
# Local operations

An operation is local when it asks for nothing but the value it is evaluated at: it has no pipeline
in it, does not go to the enclosing scope and does not ask for references. Local operations are
functions of that value (`Local.eval`), and **running one is evaluating it** (`exec_eq_eval`): the
session is neither read nor changed, and only the scope of the result looks at the scope it came
from.
-/

set_option autoImplicit false

namespace DocQuery

namespace Operation

mutual

/-- An operation that depends on the value it is evaluated at and on nothing else. What is no
expression depends on nothing: it fails. -/
def isLocal : Operation → Bool
  | filter condition => isLocal condition
  | binary _ lhs rhs => isLocal lhs && isLocal rhs
  | not operand => isLocal operand
  | accessor path => (attributeNames? path).isSome
  | literal _ => true
  | object members => membersLocal members
  | array elements => allLocal elements
  | call function arguments => function != .references && allLocal arguments
  | source _ | pipe _ _ | mapJoin _ => false
  | assignment _ _ | splat | subscript _ | range _ _ _ | ordering _ | sortDirection _ => true

def allLocal : List Operation → Bool
  | [] => true
  | o :: os => isLocal o && allLocal os

def membersLocal : List Member → Bool
  | [] => true
  | .assignment _ value :: ms => isLocal value && membersLocal ms
  | .splat :: ms => membersLocal ms

end

end Operation

namespace Local

/-! ## Evaluation -/

mutual

/-- The value of a local operation at a value. -/
def eval : Operation → Value → Except ExecError Value
  | .filter condition, v => eval condition v
  | .binary op lhs rhs, v => do
    let a ← eval lhs v
    let b ← eval rhs v
    Operator.apply op a b
  | .not operand, v => do
    let a ← eval operand v
    return Operator.negation a
  | .accessor path, v => .ok (v.follow ((Operation.attributeNames? path).getD []))
  | .literal w, _ => .ok w
  | .object members, v => do
    let fields ← evalMembers members v []
    return .object fields
  | .array elements, v => do
    let values ← evalAll elements v
    return .array values
  | .call function arguments, v => do
    let values ← evalAll arguments v
    return (Builtin.pure? function values).getD .null
  | o, _ => .error (.invalidOperation o.kind)

def evalAll : List Operation → Value → Except ExecError (List Value)
  | [], _ => .ok []
  | o :: os, v => do
    let a ← eval o v
    let rest ← evalAll os v
    return a :: rest

def evalMembers : List Member → Value → Fields Value → Except ExecError (Fields Value)
  | [], _, fields => .ok fields
  | .assignment name value :: ms, v, fields => do
    let a ← eval value v
    evalMembers ms v (if a.isNull then fields else fields.insert name a)
  | .splat :: ms, v, fields => evalMembers ms v (fields.merge (v.asObject?.getD []))

end

/-- The scope of a result: where an accessor leads to, or a place for a value that was made. -/
def scopeOf : Operation → Scope → Value → Scope
  | .filter condition, s, v => scopeOf condition s v
  | .accessor path, s, _ => s.resolve path
  | .literal _, _, v => .detached v
  | .binary _ _ _, s, v | .not _, s, v => s.derived v
  | _, s, v => s.withValue v

/-- What running a local operation in a scope gives. -/
def result (o : Operation) (s : Scope) : Except ExecError Scoped :=
  (eval o s.value).map fun v => .one (scopeOf o s v)

theorem value_scopeOf {s : Scope} {v : Value} : ∀ {o : Operation}, o.isLocal = true →
    eval o s.value = .ok v → (scopeOf o s v).value = v
  | .filter condition, h, hv => value_scopeOf (o := condition) h hv
  | .accessor path, h, hv => by
    obtain ⟨names, hnames⟩ := Option.isSome_iff_exists.mp h
    rw [eval, hnames] at hv
    cases hv
    exact Scope.value_resolve hnames s
  | .binary _ _ _, _, _ | .not _, _, _ | .literal _, _, _ | .object _, _, _ | .array _, _, _
  | .call _ _, _, _ => rfl
  | .assignment _ _, _, hv | .splat, _, hv | .subscript _, _, hv | .range _ _ _, _, hv
  | .ordering _, _, hv | .sortDirection _, _, hv => by
    cases hv
  | .source _, h, _ | .pipe _ _, h, _ | .mapJoin _, h, _ => by
    cases h

/-! ## Running is evaluating -/

variable {fetcher : Fetcher}

mutual

theorem exec_eq_eval : ∀ {o : Operation}, o.isLocal = true → ∀ s : Scope,
    Engine.exec fetcher o s = Run.ofExcept (result o s)
  | .filter condition, h, s => exec_eq_eval (o := condition) h s
  | .binary op lhs rhs, h, s => by
    obtain ⟨hl, hr⟩ := Bool.and_eq_true_iff.mp h
    rw [Engine.exec, exec_eq_eval hl s, exec_eq_eval hr s]
    unfold result
    rw [eval]
    cases ha : eval lhs s.value with
    | error e => rfl
    | ok a =>
      cases hb : eval rhs s.value with
      | error e => rfl
      | ok b =>
        show (Run.ofExcept (Operator.apply op (scopeOf lhs s a).value (scopeOf rhs s b).value) >>=
          fun v => pure (Scoped.one (s.derived v))) = Run.ofExcept (Except.map _ (Operator.apply op a b))
        rw [value_scopeOf hl ha, value_scopeOf hr hb]
        cases Operator.apply op a b <;> rfl
  | .not operand, h, s => by
    rw [Engine.exec, exec_eq_eval (o := operand) h s]
    unfold result
    rw [eval]
    cases ha : eval operand s.value with
    | error e => rfl
    | ok a =>
      show (pure (.one (s.derived (Operator.negation (scopeOf operand s a).value))) : Run Scoped) = _
      rw [value_scopeOf (o := operand) h ha]
      rfl
  | .accessor path, h, s => by
    rw [Engine.exec]
    rfl
  | .literal w, _, s => by
    rw [Engine.exec]
    rfl
  | .object members, h, s => by
    rw [Engine.exec, execMembers_eq_eval h s []]
    unfold result
    rw [eval]
    cases evalMembers members s.value [] <;> rfl
  | .array elements, h, s => by
    rw [Engine.exec, execAll_eq_eval h s]
    unfold result
    rw [eval]
    cases evalAll elements s.value <;> rfl
  | .call function arguments, h, s => by
    obtain ⟨hfunction, harguments⟩ := Bool.and_eq_true_iff.mp h
    rw [Engine.exec, execAll_eq_eval harguments s]
    unfold result
    rw [eval]
    cases evalAll arguments s.value with
    | error e => rfl
    | ok values =>
      cases function with
      | references => simp at hfunction
      | _ => rfl
  | .assignment _ _, _, s | .splat, _, s | .subscript _, _, s | .range _ _ _, _, s
  | .ordering _, _, s | .sortDirection _, _, s => by
    rw [Engine.exec]
    rfl
  | .source _, h, _ | .pipe _ _, h, _ | .mapJoin _, h, _ => by
    cases h

theorem execAll_eq_eval : ∀ {os : List Operation}, Operation.allLocal os = true → ∀ s : Scope,
    Engine.execAll fetcher os s = Run.ofExcept (evalAll os s.value)
  | [], _, s => by
    rw [Engine.execAll]
    rfl
  | o :: os, h, s => by
    obtain ⟨ho, hos⟩ := Bool.and_eq_true_iff.mp h
    rw [Engine.execAll, exec_eq_eval ho s, execAll_eq_eval hos s]
    unfold result
    rw [evalAll]
    cases ha : eval o s.value with
    | error e => rfl
    | ok a =>
      cases evalAll os s.value with
      | error e => rfl
      | ok rest =>
        show (pure ((scopeOf o s a).value :: rest) : Run (List Value)) = _
        rw [value_scopeOf ho ha]
        rfl

theorem execMembers_eq_eval : ∀ {ms : List Member}, Operation.membersLocal ms = true →
    ∀ (s : Scope) (fields : Fields Value),
      Engine.execMembers fetcher ms s fields = Run.ofExcept (evalMembers ms s.value fields)
  | [], _, s, fields => by
    rw [Engine.execMembers]
    rfl
  | .assignment name value :: ms, h, s, fields => by
    obtain ⟨hvalue, hms⟩ := Bool.and_eq_true_iff.mp h
    rw [Engine.execMembers, exec_eq_eval hvalue s]
    unfold result
    rw [evalMembers]
    cases ha : eval value s.value with
    | error e => rfl
    | ok a =>
      show Engine.execMembers fetcher ms s (if (scopeOf value s a).value.isNull then fields
        else fields.insert name (scopeOf value s a).value) = _
      rw [value_scopeOf hvalue ha]
      exact execMembers_eq_eval hms s _
  | .splat :: ms, h, s, fields => by
    rw [Engine.execMembers, evalMembers]
    have hms : Operation.membersLocal ms = true := h
    exact execMembers_eq_eval hms s _

end

/-- The keys of a scope are the values of the key expressions. -/
theorem execKeys_eq_execAll (terms : List SortTerm) (s : Scope) :
    Engine.execKeys fetcher terms s = Engine.execAll fetcher (terms.map (·.expression)) s := by
  induction terms with
  | nil => rfl
  | cons term terms ih =>
    obtain ⟨e, d⟩ := term
    rw [List.map_cons, Engine.execKeys, Engine.execAll, ih]
    rfl

end Local
end DocQuery
