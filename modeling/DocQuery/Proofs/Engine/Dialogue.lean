import DocQuery.Proofs.Engine.Paired

/-!
# Plans as dialogues

A run looks at its session in three places: it reads the caches, it asks `references()` of a value,
and it fetches. A `Dialogue` is what is left of a computation when all else is worked out: a tree
that says what is asked next and how it goes on with the answer. `Dialogue.within` plays it against
a fetcher and a session.

`Dialogue.exec` and its companions are the engine written as dialogues, line for line, and **running
a plan is playing its dialogue** (`within_exec`). What a run asks can therefore be read off a tree
that neither the fetcher nor the session has a part in, and a statement about all the questions of a
run is an induction on the tree.
-/

set_option autoImplicit false

namespace DocQuery

/-- A computation that asks its session for something, or comes to an end. -/
inductive Dialogue (α : Type) where
  | done (a : α)
  | fail (e : ExecError)
  /-- Read the caches. -/
  | look (next : Context → Dialogue α)
  /-- Ask whether a value refers to one of the ids. -/
  | refer (subject : Value) (ids : List Value) (next : Bool → Dialogue α)
  | fetch (id : SourceId) (spec : FetchSpec) (next : Dialogue α)

namespace Dialogue

variable {α β γ : Type}

protected def bind : Dialogue α → (α → Dialogue β) → Dialogue β
  | done a, f => f a
  | fail e, _ => fail e
  | look next, f => look fun c => (next c).bind f
  | refer subject ids next, f => refer subject ids fun b => (next b).bind f
  | fetch id spec next, f => fetch id spec (next.bind f)

instance : Monad Dialogue where
  pure := done
  bind := Dialogue.bind

theorem bind_done (d : Dialogue α) : d.bind done = d := by
  induction d with
  | done a => rfl
  | fail e => rfl
  | look next ih => exact congrArg look (funext ih)
  | refer subject ids next ih => exact congrArg (refer subject ids) (funext ih)
  | fetch id spec next ih => exact congrArg (fetch id spec) ih

protected theorem bind_assoc (d : Dialogue α) (f : α → Dialogue β) (g : β → Dialogue γ) :
    (d.bind f).bind g = d.bind fun a => (f a).bind g := by
  induction d with
  | done a => rfl
  | fail e => rfl
  | look next ih => exact congrArg look (funext ih)
  | refer subject ids next ih => exact congrArg (refer subject ids) (funext ih)
  | fetch id spec next ih => exact congrArg (fetch id spec) ih

instance : LawfulMonad Dialogue :=
  LawfulMonad.mk' Dialogue bind_done (fun _ _ => rfl) Dialogue.bind_assoc

/-- A result that needs no asking. -/
def ofExcept : Except ExecError α → Dialogue α
  | .ok a => done a
  | .error e => fail e

/-! ## Playing a dialogue -/

/-- Play a dialogue against a fetcher. -/
def within (fetcher : Fetcher) : Dialogue α → Run α
  | done a => pure a
  | fail e => throw e
  | look next => do (next (← Run.context)).within fetcher
  | refer subject ids next => do
    (next (← Run.modifyContext fun c => c.refersTo subject ids)).within fetcher
  | fetch id spec next => do
    Run.fetch fetcher id spec
    next.within fetcher

variable (fetcher : Fetcher)

theorem within_bind (d : Dialogue α) (f : α → Dialogue β) :
    (d >>= f).within fetcher = d.within fetcher >>= fun a => (f a).within fetcher := by
  induction d with
  | done a =>
    show (f a).within fetcher = (pure a : Run α) >>= fun a => (f a).within fetcher
    rw [pure_bind]
  | fail e => rfl
  | look next ih =>
    show (Run.context >>= fun c => ((next c).bind f).within fetcher) = _
    rw [within, bind_assoc]
    exact congrArg _ (funext ih)
  | refer subject ids next ih =>
    show (Run.modifyContext _ >>= fun b => ((next b).bind f).within fetcher) = _
    rw [within, bind_assoc]
    exact congrArg _ (funext ih)
  | fetch id spec next ih =>
    show (Run.fetch fetcher id spec >>= fun _ => (next.bind f).within fetcher) = _
    rw [within, bind_assoc]
    exact congrArg _ (funext fun _ => ih)

theorem within_ofExcept (e : Except ExecError α) :
    (ofExcept e).within fetcher = Run.ofExcept e := by
  cases e <;> rfl

theorem within_mapM (f : α → Dialogue β) (xs : List α) :
    (xs.mapM f).within fetcher = xs.mapM fun x => (f x).within fetcher := by
  induction xs with
  | nil => rfl
  | cons x xs ih =>
    rw [List.mapM_cons, List.mapM_cons, within_bind]
    refine congrArg _ (funext fun y => ?_)
    rw [within_bind, ih]
    rfl

/-! ## The engine -/

/-- Every scope of a result by a function of its own. -/
def mapScopes (f : Scope → Dialogue Scoped) : Scoped → Dialogue Scoped
  | .one s => f s
  | .many items start => do
    let items ← items.mapM fun s => do return (← f s).collapse s
    return .many items start

/-- The scopes for which a condition is exactly `true`. -/
def keepScopes (condition : Scope → Dialogue Scoped) : List Scope → Dialogue (List Scope)
  | [] => return []
  | s :: rest => do
    let verdict ← condition s
    let rest ← keepScopes condition rest
    return if verdict.value.same (.bool true) then s :: rest else rest

def filterScopes (condition : Scope → Dialogue Scoped) (input : Scoped) : Dialogue Scoped := do
  let (items, start) := input.candidates
  return .many (← keepScopes condition items) start

/-- The scopes in the order of their keys. -/
def sortScopes (directions : List Direction) (keys : Scope → Dialogue (List Value))
    (input : Scoped) : Dialogue Scoped := do
  let (items, start) := input.sortItems
  let keyed ← items.mapM fun s => do return (← keys s, s)
  return .many ((sortByKeys directions keyed).map (·.2)) start

/-- The value of a call in the scope of `subject`. -/
def call (function : Function) (subject : Value) (values : List Value) : Dialogue Value :=
  match Builtin.pure? function values with
  | some v => pure v
  | none => refer subject (Builtin.referenceIds values) fun b => pure (.bool b)

/-- The specification with its filter made independent of the enclosing document. -/
def finish (s : Scope) (spec : FetchSpec) : Dialogue FetchSpec :=
  match spec.filter with
  | none => pure spec
  | some filter => look fun c => do
    match ← ofExcept (Join.generalize c s filter) with
    | none => return .everything
    | some widened => return if widened.same filter then spec else .filtered widened

mutual

/-- Evaluate an operation. -/
def exec : Operation → Scope → Dialogue Scoped
  | .source id, s => look fun c =>
    match c.source? id with
    | some data => pure (.one (s.ofSource id (.array data.documents) data.start))
    | none => fail (.unknownSource id)
  | .filter condition, s => exec condition s
  | .binary op lhs rhs, s => do
    let a ← exec lhs s
    let b ← exec rhs s
    return .one (s.derived (← ofExcept (Operator.apply op a.value b.value)))
  | .not operand, s => do
    let a ← exec operand s
    return .one (s.derived (Operator.negation a.value))
  | .accessor path, s => return .one (s.resolve path)
  | .literal value, _ => return .one (.detached value)
  | .object members, s => do
    return .one (s.withValue (.object (← execMembers members s [])))
  | .array elements, s => do
    return .one (s.withValue (.array (← execAll elements s)))
  | .call function arguments, s => do
    let values ← execAll arguments s
    return .one (s.withValue (← call function s.value values))
  | .pipe stages _, s => run stages s
  | .mapJoin stages, s => do
    let ids ← run stages (s.parent.getD .root)
    return s.lookupAll ids.value
  | .assignment name value, _ => fail (.invalidOperation (Operation.assignment name value).kind)
  | .splat, _ => fail (.invalidOperation Operation.splat.kind)
  | .subscript w, _ => fail (.invalidOperation (Operation.subscript w).kind)
  | .range a b i, _ => fail (.invalidOperation (Operation.range a b i).kind)
  | .ordering terms, _ => fail (.invalidOperation (Operation.ordering terms).kind)
  | .sortDirection term, _ => fail (.invalidOperation (Operation.sortDirection term).kind)

/-- The values of operations, one after the other. -/
def execAll : List Operation → Scope → Dialogue (List Value)
  | [], _ => return []
  | o :: os, s => do
    let a ← exec o s
    let rest ← execAll os s
    return a.value :: rest

/-- The fields of an object expression on top of those so far. -/
def execMembers : List Member → Scope → Fields Value → Dialogue (Fields Value)
  | [], _, fields => return fields
  | .assignment name value :: ms, s, fields => do
    let a ← exec value s
    execMembers ms s (if a.value.isNull then fields else fields.insert name a.value)
  | .splat :: ms, s, fields => execMembers ms s (fields.merge (s.value.asObject?.getD []))

/-- The sort keys of a scope. -/
def execKeys : List SortTerm → Scope → Dialogue (List Value)
  | [], _ => return []
  | .mk e _ :: ts, s => do
    let a ← exec e s
    let rest ← execKeys ts s
    return a.value :: rest

/-- Run a pipeline. -/
def run : List Operation → Scope → Dialogue Scoped
  | [], s => return .one (s.derived .null)
  | first :: rest, s => do
    match first with
    | .source id => look fun c => do
      if !c.hasSource id then
        let spec ← finish s (← compileStages rest s)
        fetch id spec (pure ())
    | _ => pure ()
    let input ← exec first s
    applyStages rest input s

/-- Apply the stages after the first. -/
def applyStages : List Operation → Scoped → Scope → Dialogue Scoped
  | [], input, _ => return input
  | stage :: rest, input, base => do
    let next ← match stage with
      | .subscript w => pure (input.subscript w)
      | .ordering terms =>
        sortScopes (terms.map (·.direction)) (fun s => execKeys terms s) input
      | .filter condition => filterScopes (fun s => exec condition s) input
      | .mapJoin stages => do
        let ids ← run stages base
        pure ((input.joinOwner base).lookupAll ids.value)
      | stage => mapScopes (fun s => exec stage s) input
    applyStages rest next base

/-- The specification that the stages behind a source fold into, from the last to the first. -/
def compileStages : List Operation → Scope → Dialogue FetchSpec
  | [], _ => return .everything
  | stage :: rest, s => do
    let spec ← compileStages rest s
    match stage with
    | .filter condition => return spec.applyFilter condition
    | .subscript w => return spec.applySubscript w
    | .ordering terms => return spec.applyOrdering terms
    | .mapJoin stages =>
      let spec := { FetchSpec.everything with filter := spec.filter }
      look fun c => match Join.siblings? c s with
        | none => pure spec
        | some subjects => do
          let found ← subjects.mapM fun v => run stages (.detached v)
          let ids := found.foldl (fun ids r => Engine.addIds ids (Join.spread r.value)) []
          return spec.applyFilter (Engine.idFilter ids)
    | .object _ | .accessor _ | .array _ | .pipe _ _ | .call _ _ | .literal _ | .binary _ _ _
    | .not _ => return spec.project
    | stage => fail (.uncompilableStage stage.kind)

end

/-! ## Running a plan is playing its dialogue -/

theorem within_mapScopes (f : Scope → Dialogue Scoped) (input : Scoped) :
    (mapScopes f input).within fetcher =
      Engine.mapScopes (fun s => (f s).within fetcher) input := by
  cases input with
  | one s => rfl
  | many items start =>
    rw [mapScopes, within_bind, within_mapM]
    have hstep : (fun s => (do return (← f s).collapse s : Dialogue Scope).within fetcher) =
        fun s => (do return (← (f s).within fetcher).collapse s : Run Scope) :=
      funext fun s => within_bind fetcher _ _
    rw [hstep]
    rfl

theorem within_keepScopes (condition : Scope → Dialogue Scoped) (items : List Scope) :
    (keepScopes condition items).within fetcher =
      Engine.keepScopes (fun s => (condition s).within fetcher) items := by
  induction items with
  | nil => rfl
  | cons s items ih =>
    rw [keepScopes, Engine.keepScopes, within_bind]
    refine congrArg _ (funext fun verdict => ?_)
    rw [within_bind, ih]
    rfl

theorem within_filterScopes (condition : Scope → Dialogue Scoped) (input : Scoped) :
    (filterScopes condition input).within fetcher =
      Engine.filterScopes (fun s => (condition s).within fetcher) input := by
  unfold filterScopes Engine.filterScopes
  dsimp only
  rw [within_bind, within_keepScopes]
  rfl

theorem within_sortScopes (directions : List Direction) (keys : Scope → Dialogue (List Value))
    (input : Scoped) : (sortScopes directions keys input).within fetcher =
      Engine.sortScopes directions (fun s => (keys s).within fetcher) input := by
  have hstep : (fun s => (do return (← keys s, s) : Dialogue (List Value × Scope)).within fetcher) =
      fun s => (do return (← (keys s).within fetcher, s) : Run (List Value × Scope)) :=
    funext fun s => within_bind fetcher _ _
  unfold sortScopes Engine.sortScopes
  dsimp only
  rw [within_bind, within_mapM, hstep]
  rfl

theorem within_call (function : Function) (subject : Value) (values : List Value) :
    (call function subject values).within fetcher = Builtin.call function subject values := by
  unfold call Builtin.call
  cases Builtin.pure? function values <;> rfl

theorem within_finish (s : Scope) (spec : FetchSpec) :
    (finish s spec).within fetcher = Engine.finish s spec := by
  unfold finish Engine.finish
  cases spec.filter with
  | none => rfl
  | some filter =>
    refine congrArg (Run.context >>= ·) (funext fun c => ?_)
    dsimp only
    rw [within_bind, within_ofExcept]
    refine congrArg _ (funext fun found => ?_)
    cases found <;> rfl

mutual

/-- **Running a plan is playing its dialogue.** -/
theorem within_exec : ∀ (o : Operation) (s : Scope),
    (exec o s).within fetcher = Engine.exec fetcher o s
  | .source id, s => by
    rw [exec, Engine.exec_source]
    refine congrArg (Run.context >>= ·) (funext fun c => ?_)
    dsimp only
    cases c.source? id <;> rfl
  | .filter condition, s => within_exec condition s
  | .binary op lhs rhs, s => by
    rw [exec, Engine.exec_binary, within_bind, within_exec lhs]
    refine congrArg _ (funext fun a => ?_)
    rw [within_bind, within_exec rhs]
    refine congrArg _ (funext fun b => ?_)
    rw [within_bind, within_ofExcept]
    rfl
  | .not operand, s => by
    rw [exec, Engine.exec_not, within_bind, within_exec operand]
    rfl
  | .accessor path, s => rfl
  | .literal value, s => rfl
  | .object members, s => by
    rw [exec, Engine.exec_object, within_bind, within_execMembers members]
    rfl
  | .array elements, s => by
    rw [exec, Engine.exec_array, within_bind, within_execAll elements]
    rfl
  | .call function arguments, s => by
    rw [exec, Engine.exec_call, within_bind, within_execAll arguments]
    refine congrArg _ (funext fun values => ?_)
    rw [within_bind, within_call]
    rfl
  | .pipe stages _, s => within_run stages s
  | .mapJoin stages, s => by
    rw [exec, within_bind, within_run stages]
    rfl
  | .assignment _ _, s | .splat, s | .subscript _, s | .range _ _ _, s | .ordering _, s
  | .sortDirection _, s => rfl

theorem within_execAll : ∀ (os : List Operation) (s : Scope),
    (execAll os s).within fetcher = Engine.execAll fetcher os s
  | [], s => rfl
  | o :: os, s => by
    rw [execAll, Engine.execAll_cons, within_bind, within_exec o]
    refine congrArg _ (funext fun a => ?_)
    rw [within_bind, within_execAll os]
    rfl

theorem within_execMembers : ∀ (ms : List Member) (s : Scope) (fields : Fields Value),
    (execMembers ms s fields).within fetcher = Engine.execMembers fetcher ms s fields
  | [], s, fields => rfl
  | .assignment name value :: ms, s, fields => by
    rw [execMembers, Engine.execMembers_assignment, within_bind, within_exec value]
    exact congrArg _ (funext fun a => within_execMembers ms s _)
  | .splat :: ms, s, fields => within_execMembers ms s _

theorem within_execKeys : ∀ (terms : List SortTerm) (s : Scope),
    (execKeys terms s).within fetcher = Engine.execKeys fetcher terms s
  | [], s => rfl
  | .mk e direction :: terms, s => by
    rw [execKeys, Engine.execKeys, within_bind, within_exec e]
    refine congrArg _ (funext fun a => ?_)
    rw [within_bind, within_execKeys terms]
    rfl

theorem within_run : ∀ (stages : List Operation) (s : Scope),
    (run stages s).within fetcher = Engine.run fetcher stages s
  | [], s => rfl
  | first :: rest, s => by
    have hbehind : (do
          let input ← exec first s
          applyStages rest input s : Dialogue Scoped).within fetcher = (do
        let input ← Engine.exec fetcher first s
        Engine.applyStages fetcher rest input s) := by
      rw [within_bind, within_exec first]
      exact congrArg _ (funext fun input => within_applyStages rest input s)
    cases first with
    | source id =>
      rw [Engine.run_source]
      refine congrArg (Run.context >>= ·) (funext fun c => ?_)
      dsimp only
      cases c.hasSource id with
      | true => exact hbehind
      | false =>
        show ((compileStages rest s >>= fun spec => finish s spec >>= fun spec =>
          fetch id spec (pure ())) >>= fun _ => _).within fetcher = _
        rw [bind_assoc, within_bind, within_compileStages rest]
        refine congrArg _ (funext fun spec => ?_)
        rw [bind_assoc, within_bind, within_finish]
        refine congrArg _ (funext fun spec => ?_)
        exact congrArg (Run.fetch fetcher id spec >>= ·) (funext fun _ => hbehind)
    | _ => exact hbehind

theorem within_applyStages : ∀ (stages : List Operation) (input : Scoped) (base : Scope),
    (applyStages stages input base).within fetcher =
      Engine.applyStages fetcher stages input base
  | [], input, base => rfl
  | stage :: rest, input, base => by
    have hexec := fun s => within_exec stage s
    have hrest := fun next => within_applyStages rest next base
    rw [applyStages.eq_def, Engine.applyStages_cons]
    dsimp only
    cases stage with
    | subscript w => exact hrest _
    | ordering terms =>
      have hkeys := fun s => within_execKeys terms s
      rw [within_bind, within_sortScopes, funext hkeys]
      exact congrArg _ (funext hrest)
    | filter condition =>
      have hcondition : (fun s => (exec condition s).within fetcher) =
        fun s => Engine.exec fetcher condition s := funext hexec
      rw [within_bind, within_filterScopes, hcondition]
      exact congrArg _ (funext hrest)
    | mapJoin stages =>
      rw [within_bind, within_run stages]
      exact congrArg _ (funext fun ids => hrest _)
    | _ =>
      rw [within_bind, within_mapScopes, funext hexec]
      exact congrArg _ (funext hrest)

theorem within_compileStages : ∀ (stages : List Operation) (s : Scope),
    (compileStages stages s).within fetcher = Engine.compileStages fetcher stages s
  | [], s => rfl
  | stage :: rest, s => by
    have hrest := within_compileStages rest s
    rw [compileStages.eq_def, Engine.compileStages_eq_bind]
    dsimp only
    rw [within_bind, hrest]
    refine congrArg _ (funext fun spec => ?_)
    cases stage with
    | mapJoin stages =>
      have hrun := fun v => within_run stages (.detached v)
      refine congrArg (Run.context >>= ·) (funext fun c => ?_)
      dsimp only
      cases Join.siblings? c s with
      | none => rfl
      | some subjects =>
        dsimp only
        rw [within_bind, within_mapM, funext hrun]
        rfl
    | _ => rfl

end

end Dialogue
end DocQuery
