import DocQuery.Proofs.Engine.References
import DocQuery.Proofs.Store.Filter

/-!
# Correlated operations

An operation is correlated when it asks for nothing but the value it is evaluated at, that value's
own references, and attributes of the value around it (`^`). Correlated operations are functions of
these two values (`Correlated.eval`), and **running one is evaluating it** (`comesTo_exec`). One that
calls `references()` changes the session, which has to remember the references of a document as they
are (`Session.Faithful`).

A free operation does not look at the value around it, so it evaluates alike wherever it stands
(`eval_of_isFree`).
-/

set_option autoImplicit false

namespace DocQuery

/-! ## What a run comes to -/

namespace Run

variable {α β γ δ : Type} {keep : Session → Prop}

/-- In every session with `keep`, running `x` comes to `e` as `view` sees it, and `keep` holds of the
session that it leaves. -/
def ComesTo (keep : Session → Prop) (view : α → β) (x : Run α) (e : Except ExecError β) : Prop :=
  ∀ σ, keep σ → ∃ r τ, x.run.run σ = (r, τ) ∧ r.map view = e ∧ keep τ

theorem comesTo_pure (view : α → β) (a : α) : ComesTo keep view (pure a) (.ok (view a)) :=
  fun σ hσ => ⟨.ok a, σ, rfl, rfl, hσ⟩

theorem comesTo_throw (view : α → β) (e : ExecError) : ComesTo keep view (throw e) (.error e) :=
  fun σ hσ => ⟨.error e, σ, rfl, rfl, hσ⟩

theorem comesTo_ofExcept (e : Except ExecError α) : ComesTo keep id (ofExcept e) e := by
  cases e with
  | ok a => exact comesTo_pure id a
  | error e => exact comesTo_throw id e

theorem comesTo_bind {view : α → β} {view' : γ → δ} {x : Run α} {e : Except ExecError β}
    {f : α → Run γ} {g : β → Except ExecError δ} (hx : ComesTo keep view x e)
    (hf : ∀ a, e = .ok (view a) → ComesTo keep view' (f a) (g (view a))) :
    ComesTo keep view' (x >>= f) (e >>= g) := by
  intro σ hσ
  obtain ⟨r, ρ, hr, he, hρ⟩ := hx σ hσ
  have hbind : (x >>= f).run.run σ = StateT.run (ExceptT.bindCont f r) ρ := by
    show (match x.run.run σ with | (r, ρ) => StateT.run (ExceptT.bindCont f r) ρ) = _
    rw [hr]
  rw [hbind]
  cases r with
  | error err =>
    subst he
    exact ⟨.error err, ρ, rfl, rfl, hρ⟩
  | ok a =>
    subst he
    exact hf a rfl ρ hρ

/-- Putting a result into another form that shows the same. -/
theorem comesTo_map {view : α → β} {view' : γ → β} {x : Run α} {e : Except ExecError β}
    (hx : ComesTo keep view x e) (f : α → γ) (hf : ∀ a, view' (f a) = view a) :
    ComesTo keep view' (x >>= fun a => pure (f a)) e := by
  have hok : e >>= .ok = e := by cases e <;> rfl
  have hbind := @comesTo_bind _ _ _ _ keep view view' x e (fun a => pure (f a)) .ok hx
    fun a _ => hf a ▸ comesTo_pure view' (f a)
  rwa [hok] at hbind

/-- A run that yields a value has come to what `view` makes of it. -/
theorem ComesTo.of_yields {view : α → β} {x : Run α} {e : Except ExecError β} {σ τ : Session}
    {a : α} (h : ComesTo keep view x e) (hσ : keep σ) (hx : x.Yields σ a τ) :
    e = .ok (view a) ∧ keep τ := by
  obtain ⟨r, ρ, hr, he, hρ⟩ := h σ hσ
  rw [Yields, hr] at hx
  cases hx
  exact ⟨he.symm, hρ⟩

theorem ComesTo.yields {view : α → β} {x : Run α} {b : β} {σ : Session}
    (h : ComesTo keep view x (.ok b)) (hσ : keep σ) :
    ∃ a τ, x.Yields σ a τ ∧ view a = b ∧ keep τ := by
  obtain ⟨r, τ, hr, he, hτ⟩ := h σ hσ
  cases r with
  | error err => cases he
  | ok a =>
    cases he
    exact ⟨a, τ, hr, rfl, hτ⟩

theorem ComesTo.fails {view : α → β} {x : Run α} {e : ExecError} {σ : Session}
    (h : ComesTo keep view x (.error e)) (hσ : keep σ) : (x.run.run σ).1 = .error e := by
  obtain ⟨r, τ, hr, he, -⟩ := h σ hσ
  rw [hr]
  cases r with
  | error err =>
    cases he
    rfl
  | ok a => cases he

end Run

/-! ## References of documents -/

/-- Whether one of the ids is among the references of a document. One without an id of its own
refers to nothing. -/
def Value.refersTo (v : Value) (ids : List Value) : Bool :=
  (v.getD "_id").isTruthy &&
    (findReferences v).any fun r => ids.any fun id => id.asString? == some r.id

/-- Sessions in which `references()` of a document is decided on the references in it. -/
structure Session.Faithful (keep : Session → Prop) (v : Value) : Prop where
  decides : ∀ σ, keep σ → ∀ ids, (σ.context.refersTo v ids).1 = v.refersTo ids
  keeps : ∀ σ, keep σ → ∀ ids, keep { σ with context := (σ.context.refersTo v ids).2 }

namespace Context

variable {c : Context} {v w : Value}

theorem keepsOwn_iff : c.KeepsOwn v ↔ ∀ key found, documentKey? v = some key →
    c.references.get? key = some found → found = findReferences v := by
  constructor
  · intro h key found hkey hfound
    have hown := h key hkey
    rw [referencesOf, hfound] at hown
    exact hown
  · intro h key hkey
    rw [referencesOf]
    cases hfound : c.references.get? key with
    | none => rfl
    | some found => exact h key found hkey hfound

/-- Asking one value leaves what is remembered of another one right, unless the two share the text
of an `_id` but not their references. -/
theorem KeepsOwn.refersTo_other (h : c.KeepsOwn v)
    (hw : ∀ key, documentKey? w = some key → documentKey? v = some key →
      findReferences w = findReferences v) (ids : List Value) :
    (c.refersTo w ids).2.KeepsOwn v := by
  unfold Context.refersTo
  cases hkey : documentKey? w with
  | none => exact h
  | some key =>
    dsimp only
    unfold referencesOf
    cases hknown : c.references.get? key with
    | some found => exact h
    | none =>
      refine keepsOwn_iff.mpr fun key' found hkey' hfound => ?_
      dsimp only at hfound
      rw [Fields.get?_insert] at hfound
      split at hfound
      · next heq =>
        subst heq
        cases hfound
        exact hw key hkey hkey'
      · exact keepsOwn_iff.mp h key' found hkey' hfound

theorem KeepsOwn.refersTo (h : c.KeepsOwn v) (ids : List Value) :
    (c.refersTo v ids).2.KeepsOwn v :=
  h.refersTo_other (fun _ _ _ => rfl) ids

end Context

theorem Session.faithful_keepsOwn (v : Value) :
    Session.Faithful (fun σ => σ.context.KeepsOwn v) v where
  decides _ h ids := Context.refersTo_eq h ids
  keeps _ h ids := h.refersTo ids

/-! ## Correlated and free operations -/

namespace Operation

mutual

/-- An operation without a pipeline in it that reads only some accessors and calls only some
functions. What is no expression does neither: it fails. -/
def within (paths : List PathStep → Bool) (functions : Function → Bool) : Operation → Bool
  | filter condition => within paths functions condition
  | binary _ lhs rhs => within paths functions lhs && within paths functions rhs
  | not operand => within paths functions operand
  | accessor path => paths path
  | literal _ => true
  | object members => membersWithin paths functions members
  | array elements => allWithin paths functions elements
  | call function arguments => functions function && allWithin paths functions arguments
  | source _ | pipe _ _ | mapJoin _ => false
  | assignment _ _ | splat | subscript _ | range _ _ _ | ordering _ | sortDirection _ => true

def allWithin (paths : List PathStep → Bool) (functions : Function → Bool) : List Operation → Bool
  | [] => true
  | o :: os => within paths functions o && allWithin paths functions os

def membersWithin (paths : List PathStep → Bool) (functions : Function → Bool) : List Member → Bool
  | [] => true
  | .assignment _ value :: ms => within paths functions value && membersWithin paths functions ms
  | .splat :: ms => membersWithin paths functions ms

end

section

variable {p q r : List PathStep → Bool} {f g h : Function → Bool}

mutual

/-- What is within two bounds is within every bound that both imply. -/
theorem within_of_within
    (hpaths : ∀ path, p path = true → q path = true → r path = true)
    (hfunctions : ∀ function, f function = true → g function = true → h function = true) :
    ∀ {o : Operation}, o.within p f = true → o.within q g = true → o.within r h = true
  | .filter condition, hp, hq => within_of_within hpaths hfunctions (o := condition) hp hq
  | .binary _ _ _, hp, hq => by
    obtain ⟨hpl, hpr⟩ := Bool.and_eq_true_iff.mp hp
    obtain ⟨hql, hqr⟩ := Bool.and_eq_true_iff.mp hq
    exact Bool.and_eq_true_iff.mpr
      ⟨within_of_within hpaths hfunctions hpl hql, within_of_within hpaths hfunctions hpr hqr⟩
  | .not operand, hp, hq => within_of_within hpaths hfunctions (o := operand) hp hq
  | .accessor path, hp, hq => hpaths path hp hq
  | .literal _, _, _ | .assignment _ _, _, _ | .splat, _, _ | .subscript _, _, _
  | .range _ _ _, _, _ | .ordering _, _, _ | .sortDirection _, _, _ => rfl
  | .object members, hp, hq => @membersWithin_of_membersWithin hpaths hfunctions members hp hq
  | .array elements, hp, hq => @allWithin_of_allWithin hpaths hfunctions elements hp hq
  | .call function _, hp, hq => by
    obtain ⟨hpf, hpa⟩ := Bool.and_eq_true_iff.mp hp
    obtain ⟨hqf, hqa⟩ := Bool.and_eq_true_iff.mp hq
    exact Bool.and_eq_true_iff.mpr
      ⟨hfunctions function hpf hqf, allWithin_of_allWithin hpaths hfunctions hpa hqa⟩
  | .source _, hp, _ | .pipe _ _, hp, _ | .mapJoin _, hp, _ => by
    cases hp

theorem allWithin_of_allWithin
    (hpaths : ∀ path, p path = true → q path = true → r path = true)
    (hfunctions : ∀ function, f function = true → g function = true → h function = true) :
    ∀ {os : List Operation}, allWithin p f os = true → allWithin q g os = true →
      allWithin r h os = true
  | [], _, _ => rfl
  | _ :: _, hp, hq => by
    obtain ⟨hpo, hpos⟩ := Bool.and_eq_true_iff.mp hp
    obtain ⟨hqo, hqos⟩ := Bool.and_eq_true_iff.mp hq
    exact Bool.and_eq_true_iff.mpr ⟨within_of_within hpaths hfunctions hpo hqo,
      allWithin_of_allWithin hpaths hfunctions hpos hqos⟩

theorem membersWithin_of_membersWithin
    (hpaths : ∀ path, p path = true → q path = true → r path = true)
    (hfunctions : ∀ function, f function = true → g function = true → h function = true) :
    ∀ {ms : List Member}, membersWithin p f ms = true → membersWithin q g ms = true →
      membersWithin r h ms = true
  | [], _, _ => rfl
  | .assignment _ _ :: _, hp, hq => by
    obtain ⟨hpv, hpms⟩ := Bool.and_eq_true_iff.mp hp
    obtain ⟨hqv, hqms⟩ := Bool.and_eq_true_iff.mp hq
    exact Bool.and_eq_true_iff.mpr
      ⟨within_of_within hpaths hfunctions hpv hqv,
        membersWithin_of_membersWithin hpaths hfunctions hpms hqms⟩
  | .splat :: ms, hp, hq => @membersWithin_of_membersWithin hpaths hfunctions ms hp hq

end

end

/-- The names of an accessor that reads attributes of the enclosing value. -/
def outerNames? : List PathStep → Option (List String)
  | .parent :: steps => attributeNames? steps
  | _ => none

/-- An accessor of the value at hand. -/
def isInner (path : List PathStep) : Bool := (attributeNames? path).isSome

/-- An accessor of the value at hand or of the one around it. -/
def isInnerOrOuter (path : List PathStep) : Bool := isInner path || (outerNames? path).isSome

/-- An operation that depends on the value it is evaluated at, with its references, and on nothing
else. -/
def isFree (o : Operation) : Bool := o.within isInner fun _ => true

/-- An operation that also depends on attributes of the enclosing value. -/
def isCorrelated (o : Operation) : Bool := o.within isInnerOrOuter fun _ => true

/-- An operation without `references()`. -/
def asksNoReferences (o : Operation) : Bool := o.within (fun _ => true) (· != .references)

end Operation

namespace Correlated

open Operation

/-! ## Evaluation -/

mutual

/-- The value of a correlated operation, given the enclosing value and the one it is evaluated at. -/
def eval (outer : Value) : Operation → Value → Except ExecError Value
  | .filter condition, v => eval outer condition v
  | .binary op lhs rhs, v => do
    let a ← eval outer lhs v
    let b ← eval outer rhs v
    Operator.apply op a b
  | .not operand, v => do
    let a ← eval outer operand v
    return Operator.negation a
  | .accessor path, v => .ok (match outerNames? path with
    | some names => outer.follow names
    | none => v.follow ((attributeNames? path).getD []))
  | .literal w, _ => .ok w
  | .object members, v => do
    let fields ← evalMembers outer members v []
    return .object fields
  | .array elements, v => do
    let values ← evalAll outer elements v
    return .array values
  | .call function arguments, v => do
    let values ← evalAll outer arguments v
    return (Builtin.pure? function values).getD (.bool (v.refersTo (Builtin.referenceIds values)))
  | o, _ => .error (.invalidOperation o.kind)

def evalAll (outer : Value) : List Operation → Value → Except ExecError (List Value)
  | [], _ => .ok []
  | o :: os, v => do
    let a ← eval outer o v
    let rest ← evalAll outer os v
    return a :: rest

def evalMembers (outer : Value) :
    List Member → Value → Fields Value → Except ExecError (Fields Value)
  | [], _, fields => .ok fields
  | .assignment name value :: ms, v, fields => do
    let a ← eval outer value v
    evalMembers outer ms v (if a.isNull then fields else fields.insert name a)
  | .splat :: ms, v, fields => evalMembers outer ms v (fields.merge (v.asObject?.getD []))

end

section

variable {outer u v : Value}

theorem eval_inner {path : List PathStep} {names : List String}
    (h : attributeNames? path = some names) (v : Value) :
    eval outer (.accessor path) v = .ok (v.follow names) := by
  have hnone : outerNames? path = none := by
    cases path with
    | nil => rfl
    | cons step steps =>
      cases step with
      | parent => cases h
      | attr name => rfl
  rw [eval, hnone, h]
  rfl

theorem exists_of_binary {op : BinaryOp} {lhs rhs : Operation}
    (h : eval outer (.binary op lhs rhs) u = .ok v) :
    ∃ a b, eval outer lhs u = .ok a ∧ eval outer rhs u = .ok b ∧ Operator.apply op a b = .ok v := by
  obtain ⟨a, ha, h⟩ := exists_of_bind_eq_ok h
  obtain ⟨b, hb, h⟩ := exists_of_bind_eq_ok h
  exact ⟨a, b, ha, hb, h⟩

theorem exists_of_not {o : Operation} (h : eval outer (.not o) u = .ok v) :
    ∃ a, eval outer o u = .ok a ∧ v = Operator.negation a := by
  obtain ⟨a, ha, h⟩ := exists_of_bind_eq_ok h
  exact ⟨a, ha, (Except.ok.inj h).symm⟩

theorem exists_of_call {function : Function} {arguments : List Operation}
    (h : eval outer (.call function arguments) u = .ok v) :
    ∃ values, evalAll outer arguments u = .ok values ∧
      v = (Builtin.pure? function values).getD
        (.bool (u.refersTo (Builtin.referenceIds values))) := by
  obtain ⟨values, hvalues, h⟩ := exists_of_bind_eq_ok h
  exact ⟨values, hvalues, (Except.ok.inj h).symm⟩

theorem exists_of_evalAll {o : Operation} {os : List Operation} {values : List Value}
    (h : evalAll outer (o :: os) u = .ok values) :
    ∃ a rest, eval outer o u = .ok a ∧ evalAll outer os u = .ok rest ∧ values = a :: rest := by
  obtain ⟨a, ha, h⟩ := exists_of_bind_eq_ok h
  obtain ⟨rest, hrest, h⟩ := exists_of_bind_eq_ok h
  exact ⟨a, rest, ha, hrest, (Except.ok.inj h).symm⟩

end

/-- The value around a scope; null where there is none. -/
def outerOf (s : Scope) : Value := (s.parent.map (·.value)).getD .null

theorem outerOf_eq {s p : Scope} (h : s.parent = some p) : outerOf s = p.value := by
  rw [outerOf, h]
  rfl

theorem value_resolve_parent {steps : List PathStep} {names : List String}
    (h : attributeNames? steps = some names) (s : Scope) :
    (s.resolve (.parent :: steps)).value = (outerOf s).follow names := by
  rw [Scope.resolve, outerOf]
  cases s.parent with
  | none => exact (Value.follow_null names).symm
  | some p =>
    show (if p.value.isNull then p else p.resolve steps).value = p.value.follow names
    split
    · next hnull => rw [Value.eq_null_of_isNull hnull, Value.follow_null]
    · exact Scope.value_resolve h p

/-! ## Running is evaluating -/

section

open Engine Run

variable {fetcher : Fetcher} {keep : Session → Prop} {s : Scope}

theorem comesTo_accessor {path : List PathStep} (h : isInnerOrOuter path = true) :
    ComesTo keep Scoped.value (exec fetcher (.accessor path) s)
      (eval (outerOf s) (.accessor path) s.value) := by
  have hvalue : eval (outerOf s) (.accessor path) s.value =
      .ok (Scoped.one (s.resolve path)).value := by
    rw [eval]
    show _ = Except.ok (s.resolve path).value
    cases path with
    | nil => rfl
    | cons step steps =>
      cases step with
      | attr name =>
        obtain ⟨names, hnames⟩ : ∃ names, attributeNames? (.attr name :: steps) = some names :=
          Option.isSome_iff_exists.mp (by simpa [isInnerOrOuter, isInner, outerNames?] using h)
        rw [Scope.value_resolve hnames, hnames]
        rfl
      | parent =>
        obtain ⟨names, hnames⟩ : ∃ names, outerNames? (.parent :: steps) = some names :=
          Option.isSome_iff_exists.mp (by simpa [isInnerOrOuter, isInner, attributeNames?] using h)
        rw [value_resolve_parent hnames, hnames]
  rw [hvalue, exec_accessor]
  exact comesTo_pure _ _

variable {functions : Function → Bool}

theorem comesTo_call (hkeep : functions .references = true → Session.Faithful keep s.value)
    {function : Function} (hfunction : functions function = true) (values : List Value) :
    ComesTo keep id (Builtin.call function s.value values)
      (.ok ((Builtin.pure? function values).getD
        (.bool (s.value.refersTo (Builtin.referenceIds values))))) := by
  cases function with
  | references =>
    have hfaithful := hkeep hfunction
    intro σ hσ
    refine ⟨.ok (.bool (σ.context.refersTo s.value (Builtin.referenceIds values)).1), _, rfl, ?_,
      hfaithful.keeps σ hσ _⟩
    rw [hfaithful.decides σ hσ]
    rfl
  | _ => exact comesTo_pure id _

mutual

theorem comesTo_exec (hkeep : functions .references = true → Session.Faithful keep s.value) :
    ∀ {o : Operation}, o.within isInnerOrOuter functions = true →
      ComesTo keep Scoped.value (exec fetcher o s) (eval (outerOf s) o s.value)
  | .filter condition, h => comesTo_exec hkeep (o := condition) h
  | .binary op lhs rhs, h => by
    obtain ⟨hl, hr⟩ := Bool.and_eq_true_iff.mp h
    rw [exec_binary, eval]
    refine comesTo_bind (comesTo_exec hkeep hl) fun a _ => ?_
    refine comesTo_bind (comesTo_exec hkeep hr) fun b _ => ?_
    exact comesTo_map (comesTo_ofExcept (Operator.apply op a.value b.value))
      (fun v => Scoped.one (s.derived v)) fun _ => rfl
  | .not operand, h => by
    rw [exec_not, eval]
    exact comesTo_bind (comesTo_exec hkeep (o := operand) h) fun a _ => comesTo_pure _ _
  | .accessor path, h => comesTo_accessor h
  | .literal w, _ => comesTo_pure _ _
  | .object members, h => by
    rw [exec_object, eval]
    exact comesTo_bind (comesTo_execMembers hkeep h []) fun fields _ => comesTo_pure _ _
  | .array elements, h => by
    rw [exec_array, eval]
    exact comesTo_bind (comesTo_execAll hkeep h) fun values _ => comesTo_pure _ _
  | .call function arguments, h => by
    obtain ⟨hfunction, harguments⟩ := Bool.and_eq_true_iff.mp h
    rw [exec_call, eval]
    refine comesTo_bind (comesTo_execAll hkeep harguments) fun values _ => ?_
    exact comesTo_map (comesTo_call hkeep hfunction values)
      (fun v => Scoped.one (s.withValue v)) fun _ => rfl
  | .assignment _ _, _ | .splat, _ | .subscript _, _ | .range _ _ _, _ | .ordering _, _
  | .sortDirection _, _ => by
    rw [exec, eval]
    · exact comesTo_throw _ _
    all_goals simp
  | .source _, h | .pipe _ _, h | .mapJoin _, h => by
    cases h

theorem comesTo_execAll (hkeep : functions .references = true → Session.Faithful keep s.value) :
    ∀ {os : List Operation}, allWithin isInnerOrOuter functions os = true →
      ComesTo keep id (execAll fetcher os s) (evalAll (outerOf s) os s.value)
  | [], _ => comesTo_pure id []
  | o :: os, h => by
    obtain ⟨ho, hos⟩ := Bool.and_eq_true_iff.mp h
    rw [execAll_cons, evalAll]
    refine comesTo_bind (comesTo_exec hkeep ho) fun a _ => ?_
    exact comesTo_bind (comesTo_execAll hkeep hos) fun rest _ => comesTo_pure id _

theorem comesTo_execMembers
    (hkeep : functions .references = true → Session.Faithful keep s.value) :
    ∀ {ms : List Member}, membersWithin isInnerOrOuter functions ms = true →
      ∀ fields : Fields Value, ComesTo keep id (execMembers fetcher ms s fields)
        (evalMembers (outerOf s) ms s.value fields)
  | [], _, fields => comesTo_pure id fields
  | .assignment name value :: ms, h, fields => by
    obtain ⟨hvalue, hms⟩ := Bool.and_eq_true_iff.mp h
    rw [execMembers_assignment, evalMembers]
    exact comesTo_bind (comesTo_exec hkeep hvalue) fun a _ => comesTo_execMembers hkeep hms _
  | .splat :: ms, h, fields => by
    rw [execMembers, evalMembers]
    exact @comesTo_execMembers hkeep ms h _

end

end

/-! ## Free operations -/

theorem isCorrelated_of_isFree {o : Operation} (h : o.isFree = true) : o.isCorrelated = true :=
  within_of_within (fun _ hpath _ => Bool.or_eq_true_iff.mpr (.inl hpath)) (fun _ _ _ => rfl) h h

variable (outer outer' : Value)

mutual

theorem eval_of_isFree : ∀ {o : Operation}, o.isFree = true → ∀ v : Value,
    eval outer o v = eval outer' o v
  | .filter condition, h, v => eval_of_isFree (o := condition) h v
  | .binary op lhs rhs, h, v => by
    obtain ⟨hl, hr⟩ := Bool.and_eq_true_iff.mp h
    rw [eval, eval, eval_of_isFree hl, eval_of_isFree hr]
  | .not operand, h, v => by
    rw [eval, eval, eval_of_isFree (o := operand) h]
  | .accessor path, h, v => by
    have hnone : outerNames? path = none := by
      cases path with
      | nil => rfl
      | cons step steps =>
        cases step with
        | parent => cases h
        | attr name => rfl
    rw [eval, eval, hnone]
  | .literal w, _, _ => rfl
  | .object members, h, v => by
    rw [eval, eval, evalMembers_of_isFree h]
  | .array elements, h, v => by
    rw [eval, eval, evalAll_of_isFree h]
  | .call function arguments, h, v => by
    rw [eval, eval, evalAll_of_isFree h]
  | .assignment _ _, _, _ | .splat, _, _ | .subscript _, _, _ | .range _ _ _, _, _
  | .ordering _, _, _ | .sortDirection _, _, _ => rfl
  | .source _, h, _ | .pipe _ _, h, _ | .mapJoin _, h, _ => by
    cases h

theorem evalAll_of_isFree : ∀ {os : List Operation},
    allWithin isInner (fun _ => true) os = true → ∀ v : Value,
      evalAll outer os v = evalAll outer' os v
  | [], _, _ => rfl
  | o :: os, h, v => by
    obtain ⟨ho, hos⟩ := Bool.and_eq_true_iff.mp h
    rw [evalAll, evalAll, eval_of_isFree ho, evalAll_of_isFree hos]

theorem evalMembers_of_isFree : ∀ {ms : List Member},
    membersWithin isInner (fun _ => true) ms = true →
      ∀ (v : Value) (fields : Fields Value),
        evalMembers outer ms v fields = evalMembers outer' ms v fields
  | [], _, _, _ => rfl
  | .assignment name value :: ms, h, v, fields => by
    obtain ⟨hvalue, hms⟩ := Bool.and_eq_true_iff.mp h
    rw [evalMembers, evalMembers, eval_of_isFree hvalue]
    exact congrArg _ (funext fun a => evalMembers_of_isFree hms v _)
  | .splat :: ms, h, v, fields => by
    rw [evalMembers, evalMembers]
    exact @evalMembers_of_isFree ms h v _

end

end Correlated
end DocQuery
