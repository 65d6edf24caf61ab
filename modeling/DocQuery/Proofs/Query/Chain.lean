import Mathlib.Data.List.Forall2
import Mathlib.Data.Option.Basic
import DocQuery.Proofs.Engine.References
import DocQuery.Proofs.Plan.Sources

/-!
# Chains of references

A member of a projection may follow references one behind the other: `a->b->c`, `a[]->b[]->c`. What
such a chain leads to is said in two ways. By brute force every reference is looked up among all
documents (`Chain.reached`). An execution fetches the documents for each `->` once, and only those at
the end of a chain for all documents around; those on the way to it are fetched for the first of them
alone (`Chain.followed`). **Both agree on a document whose way leads over references of the first
one** (`Chain.followed_eq_reached`).
-/

set_option autoImplicit false

namespace DocQuery

/-! ## Where references lead -/

/-- What a path or references lead to: one value, or several. -/
inductive Reached where
  | one (v : Value)
  | many (vs : List Value)

namespace Reached

def values : Reached → List Value
  | one v => [v]
  | many vs => vs

def value : Reached → Value
  | one v => v
  | many vs => .array vs

def map (f : Value → Value) : Reached → Reached
  | one v => one (f v)
  | many vs => many (vs.map f)

/-- The elements of what is reached; what is no array is one element. -/
def opened (r : Reached) : Reached := many (r.values.flatMap Join.spread)

/-- The references of what is reached, or of its elements. -/
def refs (opens : Bool) (r : Reached) : Reached :=
  (if opens then r.opened else r).map (·.getD "_ref")

theorem values_map (f : Value → Value) (r : Reached) : (r.map f).values = r.values.map f := by
  cases r <;> rfl

theorem map_map (f g : Value → Value) (r : Reached) : (r.map f).map g = r.map fun v => g (f v) := by
  cases r with
  | one v => rfl
  | many vs => exact congrArg many List.map_map

theorem map_congr {f g : Value → Value} {r : Reached} (h : ∀ v ∈ r.values, f v = g v) :
    r.map f = r.map g := by
  cases r with
  | one v => exact congrArg one (h v List.mem_cons_self)
  | many vs => exact congrArg many (List.map_congr_left h)

/-- Values whose references are texts have texts or nothing for references. -/
theorem refs_text {opens : Bool} {r : Reached} (h : ∀ v ∈ r.values, v.hasTextRefs = true) :
    ∀ ref ∈ (r.refs opens).values, ref = .null ∨ ref.isText = true := by
  have hopened : ∀ v ∈ (if opens then r.opened else r).values, v.hasTextRefs = true := by
    cases opens with
    | false => exact h
    | true =>
      intro v hv
      obtain ⟨w, hw, hv⟩ := List.mem_flatMap.mp hv
      exact Value.hasTextRefs_of_mem_spread (h w hw) hv
  intro ref href
  rw [refs, values_map] at href
  obtain ⟨v, hv, rfl⟩ := List.mem_map.mp href
  exact Value.getD_ref (hopened v hv)

/-- No reference is an array. -/
theorem spread_value {r : Reached} (h : ∀ ref ∈ r.values, ref = .null ∨ ref.isText = true) :
    Join.spread r.value = r.values := by
  cases r with
  | one v =>
    rcases h v List.mem_cons_self with rfl | htext
    · rfl
    · obtain ⟨s, rfl, -⟩ := Value.exists_of_isText htext
      rfl
  | many vs => rfl

end Reached

/-- A path, or what is behind references that a chain leads to. -/
inductive Chain where
  | field (path : List String)
  | follow (before : Chain) (opens : Bool) (rest : List String)

namespace Chain

/-- Where a chain leads from a value, with every reference looked up among all documents. -/
def reached (documents : List Value) : Chain → Value → Reached
  | field path, v => .one (v.follow path)
  | follow before opens rest, v =>
    ((before.reached documents v).refs opens).map fun ref =>
      (Value.firstWithId documents ref).follow rest

/-- Where a chain leads from a value, with the documents asked for once: those at its end by the
references of all subjects, those on the way by those of the first subject. `look refs ref` is what a
reference leads to in what is given for others. -/
def followed (look : List Value → Value → Value) : Chain → List Value → Value → Reached
  | field path, _, v => .one (v.follow path)
  | follow before opens rest, subjects, v =>
    ((before.followed look (subjects.take 1) v).refs opens).map fun ref =>
      (look (subjects.flatMap fun u =>
        ((before.followed look (subjects.take 1) u).refs opens).values) ref).follow rest

/-- The references by which the documents at the end of a chain are asked for. -/
def wanted (look : List Value → Value → Value) (subjects : List Value) : Chain → List Value
  | field _ => []
  | follow before opens _ =>
    subjects.flatMap fun u => ((before.followed look (subjects.take 1) u).refs opens).values

/-- The chain without its last references. -/
def before : Chain → Chain
  | field path => field path
  | follow before _ _ => before

/-- The references that a chain follows from a value are also followed from another one. -/
def LeadsAlong (documents : List Value) (first v : Value) : Chain → Prop
  | field _ => True
  | follow before opens _ => before.LeadsAlong documents first v ∧
    ∀ ref ∈ ((before.reached documents v).refs opens).values,
      ref = .null ∨ ref ∈ ((before.reached documents first).refs opens).values

/-- What a reference leads to among the documents that some references lead to. -/
def lookAmong (documents refs : List Value) (ref : Value) : Value :=
  Value.firstWithId (documents.filter fun d => refs.any fun other => Value.hasLooseId other d) ref

variable {look : List Value → Value → Value} {documents subjects : List Value} {first v : Value}

theorem followed_text (hlook : ∀ refs ref, (look refs ref).hasTextRefs = true) {c : Chain}
    (hv : v.hasTextRefs = true) :
    ∀ w ∈ (c.followed look subjects v).values, w.hasTextRefs = true := by
  cases c with
  | field path =>
    intro w hw
    rw [List.mem_singleton.mp hw]
    exact Value.hasTextRefs_follow hv path
  | follow before opens rest =>
    intro w hw
    rw [followed, Reached.values_map] at hw
    obtain ⟨ref, -, rfl⟩ := List.mem_map.mp hw
    exact Value.hasTextRefs_follow (hlook _ ref) rest

theorem lookAmong_of_mem {refs : List Value} {ref : Value} (h : ref = .null ∨ ref ∈ refs) :
    lookAmong documents refs ref = Value.firstWithId documents ref := by
  rcases h with rfl | hmem
  · rw [lookAmong, Value.firstWithId_null, Value.firstWithId_null]
  · refine Value.firstWithId_eq ?_
    rw [List.filter_filter]
    refine List.filter_congr fun d _ => ?_
    cases hloose : Value.hasLooseId ref d with
    | false => rfl
    | true => exact List.any_eq_true.mpr ⟨ref, hmem, hloose⟩

theorem lookAmong_text (hdocuments : ∀ d ∈ documents, d.hasTextRefs = true) (refs : List Value)
    (ref : Value) : (lookAmong documents refs ref).hasTextRefs = true :=
  Value.hasTextRefs_firstWithId (fun d hd => hdocuments d (List.mem_filter.mp hd).1) ref

/-- With all documents given for whatever references, a chain leads where it does by brute force. -/
theorem followed_all (c : Chain) :
    c.followed (fun _ => Value.firstWithId documents) subjects v = c.reached documents v := by
  induction c generalizing subjects with
  | field path => rfl
  | follow before opens rest ih => rw [followed, reached, ih]

theorem leadsAlong_self (c : Chain) : c.LeadsAlong documents first first := by
  induction c with
  | field path => trivial
  | follow before opens rest ih => exact ⟨ih, fun ref href => .inr href⟩

/-- From a value that leads along the first one, what was given for that one is enough. -/
theorem followed_first {c : Chain} (h : c.LeadsAlong documents first v) :
    c.followed (lookAmong documents) [first] v = c.reached documents v := by
  induction c generalizing v with
  | field path => rfl
  | follow before opens rest ih =>
    obtain ⟨hbefore, hrefs⟩ := h
    rw [followed, reached, List.take_succ_cons, List.take_zero, ih hbefore,
      List.flatMap_singleton, ih before.leadsAlong_self]
    refine Reached.map_congr fun ref href => ?_
    rw [lookAmong_of_mem (hrefs ref href)]

/-- A chain leads where it does by brute force if the way to its end does. -/
theorem followed_eq_reached (hv : v ∈ subjects) {c : Chain}
    (h : ∀ first ∈ subjects.head?, c.before.LeadsAlong documents first v) :
    c.followed (lookAmong documents) subjects v = c.reached documents v := by
  cases c with
  | field path => rfl
  | follow before opens rest =>
    cases subjects with
    | nil => cases hv
    | cons first others =>
      have hbefore : before.followed (lookAmong documents) [first] v = before.reached documents v :=
        followed_first (h first rfl)
      rw [followed, reached, List.take_succ_cons, List.take_zero, hbefore]
      refine Reached.map_congr fun ref href => ?_
      -- at the end the references of this value are among those that are asked for
      rw [lookAmong_of_mem (.inr (List.mem_flatMap.mpr ⟨v, hv, hbefore.symm ▸ href⟩))]

end Chain

/-- Fields on top of those so far, one after the other. One that is null is left out. -/
def Fields.assign (fs : Fields Value) : List (String × Value) → Fields Value
  | [] => fs
  | (name, v) :: rest => assign (if v.isNull then fs else fs.insert name v) rest

theorem Fields.assign_eq_foldl (fs : Fields Value) (members : List (String × Value)) :
    fs.assign members = members.foldl (fun fs m => fs.assign [m]) fs := by
  induction members generalizing fs with
  | nil => rfl
  | cons m members ih => exact ih _

/-! ## In syntax -/

namespace Chain

/-- The path that a chain begins with. -/
def start : Chain → List String
  | field path => path
  | follow before _ _ => before.start

/-- The name of a member that has none: the path that it begins with, where that is one attribute. -/
def name? (c : Chain) : Option String :=
  match c.start with
  | [name] => some name
  | _ => none

/-- The same with a path behind it. -/
def append : Chain → List String → Chain
  | field path, names => field (path ++ names)
  | follow before opens rest, names => follow before opens (rest ++ names)

/-- Whether a chain ends in a path, not in references. -/
def endsInPath : Chain → Bool
  | field _ => true
  | follow _ _ rest => !rest.isEmpty

/-- The projection of a value, given where chains lead from it. -/
def project (leads : Chain → Value → Reached) (members : List (String × Chain)) (v : Value) : Value :=
  .object (Fields.assign [] (members.map fun m => (m.1, (leads m.2 v).value)))

theorem project_congr {leads leads' : Chain → Value → Reached} {members : List (String × Chain)}
    {v : Value} (h : ∀ m ∈ members, leads m.2 v = leads' m.2 v) :
    project leads members v = project leads' members v :=
  congrArg (fun fs => Value.object (Fields.assign [] fs))
    (List.map_congr_left fun m hm => congrArg (fun r => (m.1, Reached.value r)) (h m hm))

/-- What is projected over a collection is what it is by brute force, if the way to the end of every
chain is. -/
theorem project_followed_eq {documents subjects : List Value} {members : List (String × Chain)}
    {v : Value} (hv : v ∈ subjects) (h : ∀ first ∈ subjects.head?, ∀ m ∈ members,
      m.2.before.LeadsAlong documents first v) :
    project (·.followed (lookAmong documents) subjects) members v =
      project (·.reached documents) members v :=
  project_congr fun m hm => followed_eq_reached hv fun first hfirst => h first hfirst m hm

end Chain

namespace Node

/-- The names of an attribute path. -/
def path? : Node → Option (List String)
  | .attr name => some [name]
  | .dot lhs rhs => do return (← lhs.path?) ++ (← rhs.path?)
  | _ => none

/-- What a chain of references leads along. An array is opened behind a path. -/
def chain? : Node → Option Chain
  | .attr name => some (.field [name])
  | .dot lhs rhs => do return (← lhs.chain?).append (← rhs.path?)
  | .postfixed .arrow (.pipe operand (.constraint none)) => do
    let before ← operand.chain?
    guard before.endsInPath
    return .follow before true []
  | .postfixed .arrow operand => do return .follow (← operand.chain?) false []
  | _ => none

/-- The name and the chain of a member of an object. -/
def chainMember? : Node → Option (String × Chain)
  | .binary .colon (.string name) value => do return (name, ← value.chain?)
  | value => do
    let c ← value.chain?
    return (← c.name?, c)

end Node

/-! ## In plans -/

/-- A chain as it is planned: a reference behind a path is looked up with a filter, everything else
with a join. -/
inductive Route where
  | field (path : List String)
  | single (path : List String) (id : SourceId) (paths : List (List String))
  | join (before : Route) (opens : Bool) (id : SourceId) (paths : List (List String))

namespace Route

def chain : Route → Chain
  | field path => .field path
  | single path _ paths => .follow (.field path) false paths.flatten
  | join before opens _ paths => .follow before.chain opens paths.flatten

def sources : Route → List SourceId
  | field _ => []
  | single _ id _ => [id]
  | join before _ id _ => id :: before.sources

/-- The stages that lead on to the references. -/
def referring (opens : Bool) : List Operation :=
  if opens then [.filter (.literal (.bool true)), .attr "_ref"] else [.attr "_ref"]

def stages : Route → List Operation
  | field path => [.attrs path]
  | single path id paths => .source id :: Operation.single path paths
  | join before opens id paths =>
    .source id :: .mapJoin (before.stages ++ referring opens) :: paths.map .attrs

def operation (r : Route) : Operation :=
  match r with
  | field path => .attrs path
  | r => .pipe r.stages r.chain.name?

def append : Route → List String → Route
  | field path, names => field (path ++ names)
  | single path id paths, names => single path id (paths ++ [names])
  | join before opens id paths, names => join before opens id (paths ++ [names])

/-- The paths behind the last references. -/
def behind : Route → List (List String)
  | field path => [path]
  | single _ _ paths | join _ _ _ paths => paths

/-- An array is opened behind a path. -/
def IsPlanned : Route → Prop
  | field _ | single _ _ _ => True
  | join before opens _ _ => before.IsPlanned ∧ (opens = true → before.behind ≠ [])

variable (r : Route) (names : List String)

theorem chain_append : (r.append names).chain = r.chain.append names := by
  cases r with
  | field path => rfl
  | single path id paths | join before opens id paths => simp [append, chain, Chain.append]

theorem behind_ne_nil {r : Route} (h : r.chain.endsInPath = true) : r.behind ≠ [] := by
  cases r with
  | field path => exact List.cons_ne_nil _ _
  | single path id paths | join before opens id paths =>
    rintro rfl
    cases h

theorem operation_append :
    (r.append names).operation = Planner.access r.operation (.attrs names) := by
  cases r with
  | field path => simp [append, operation, Operation.attrs, Planner.access]
  | single path id paths | join before opens id paths =>
    simp [append, operation, stages, Operation.single, Operation.referred, Operation.attrs,
      Planner.access, Planner.pipeInto, Chain.name?, Chain.start, chain]

theorem memberName?_attrs (path : List String) :
    (Operation.attrs path).memberName? = (Chain.field path).name? := by
  match path with
  | [] | [_] | _ :: _ :: _ => rfl

/-- A member without a name gets the one that its chain gives. -/
theorem memberName?_operation : r.operation.memberName? = r.chain.name? := by
  cases r with
  | field path => exact memberName?_attrs path
  | single path id paths | join before opens id paths => exact Operation.memberName?_source id _ _

theorem sourcesAll_attrs (paths : List (List String)) :
    Operation.sourcesAll (paths.map .attrs) = [] := by
  induction paths with
  | nil => rfl
  | cons path paths ih => exact ih

theorem sourcesAll_stages : Operation.sourcesAll r.stages = r.sources := by
  induction r with
  | field path => rfl
  | single path id paths => exact congrArg (id :: ·) (sourcesAll_attrs paths)
  | join before opens id paths ih =>
    have hreferring : Operation.sourcesAll (referring opens) = [] := by cases opens <;> rfl
    show id :: (Operation.sourcesAll (before.stages ++ referring opens) ++ _) = _
    rw [Operation.sourcesAll_append, ih, hreferring, sourcesAll_attrs, List.append_nil,
      List.append_nil]
    rfl

theorem sources_operation : r.operation.sources = r.sources := by
  cases r with
  | field path => rfl
  | single path id paths | join before opens id paths => exact sourcesAll_stages _

end Route

/-- A member of a projection as it is planned. -/
structure ChainMember where
  name : String
  route : Route
  planned : route.IsPlanned

namespace ChainMember

def toMember (m : ChainMember) : Member := .assignment m.name m.route.operation

def named (m : ChainMember) : String × Chain := (m.name, m.route.chain)

/-- The sources of a projection are those of its members. -/
theorem sourcesMembers_toMember (ms : List ChainMember) :
    Operation.sourcesMembers (ms.map toMember) = ms.flatMap fun m => m.route.sources := by
  induction ms with
  | nil => rfl
  | cons m ms ih =>
    rw [List.map_cons, toMember, Operation.sourcesMembers, ih, Route.sources_operation,
      List.flatMap_cons]

end ChainMember

namespace Planner

open Operation

variable {params : Params}

theorem gives_path {node : Node} {path : List String} (h : node.path? = some path)
    (n : SourceId) : Gives (compose params node) n (attrs path) n := by
  fun_induction Node.path? node generalizing path with
  | case1 name =>
    cases h
    exact gives_pure.mpr ⟨rfl, rfl⟩
  | case2 lhs rhs ihl ihr =>
    obtain ⟨p, hp, h⟩ := Option.bind_eq_some_iff.mp h
    obtain ⟨q, hq, h⟩ := Option.bind_eq_some_iff.mp h
    cases h
    refine gives_dot.mpr ⟨_, n, _, ihl hp, ihr hq, ?_⟩
    rw [attrs, List.map_append]
    rfl
  | case3 => cases h

/-- References behind a pipeline are planned as a join. -/
theorem gives_dereference_pipe {r : Route} {opens : Bool} {stages : List Operation}
    {name : Option String} (hstages : stages ++ [.attr "_ref"] = r.stages ++ Route.referring opens)
    (hname : (Operation.pipe stages name).memberName? = r.chain.name?) (n : SourceId) :
    Gives (dereference (.pipe stages name)) n (Route.join r opens n []).operation (n + 1) := by
  unfold dereference
  simp only [gives_bind, gives_newSource, gives_pure]
  refine ⟨_, _, ⟨rfl, rfl⟩, ?_, rfl⟩
  rw [hstages, hname]
  rfl

theorem gives_dereference (r : Route) (hr : r.IsPlanned) (n : SourceId) :
    ∃ r' : Route, r'.chain = .follow r.chain false [] ∧ r'.IsPlanned ∧
      Gives (dereference r.operation) n r'.operation (n + 1) := by
  have hplanned : (Route.join r false n []).IsPlanned := ⟨hr, nofun⟩
  have hname := r.memberName?_operation
  cases r with
  | field path =>
    refine ⟨.single path n [], rfl, trivial, ?_⟩
    show Gives (dereference (attrs path)) _ _ _
    unfold dereference
    rw [Route.memberName?_attrs]
    simp only [attrs, gives_bind, gives_newSource, gives_pure]
    exact ⟨_, _, ⟨rfl, rfl⟩, rfl, rfl⟩
  | single path id paths => exact ⟨_, rfl, hplanned, gives_dereference_pipe rfl hname n⟩
  | join before opens id paths => exact ⟨_, rfl, hplanned, gives_dereference_pipe rfl hname n⟩

/-- The references of the elements behind a path are planned as a join. -/
theorem gives_dereference_open {r : Route} (hr : r.IsPlanned) (hpath : r.chain.endsInPath = true)
    (n : SourceId) :
    (Route.join r true n []).IsPlanned ∧
      Gives (dereference (pipeInto r.operation (.filter (.literal (.bool true))))) n
        (Route.join r true n []).operation (n + 1) := by
  refine ⟨⟨hr, fun _ => Route.behind_ne_nil hpath⟩, ?_⟩
  have hpipe : ∀ name, (pipe (r.stages ++ [.filter (.literal (.bool true))]) name).memberName? =
      r.chain.name? → Gives (dereference (.pipe (r.stages ++ [.filter (.literal (.bool true))]) name))
        n (Route.join r true n []).operation (n + 1) := by
    intro name hname
    exact gives_dereference_pipe (List.append_assoc _ _ _) hname n
  cases r with
  | field path => exact hpipe none (Route.memberName?_attrs path)
  | single path id paths => exact hpipe _ (Operation.memberName?_source id _ _)
  | join before opens id paths => exact hpipe _ (Operation.memberName?_source id _ _)

/-- What an expression leads along is what its plan does. -/
theorem gives_chain {node : Node} {c : Chain} (h : node.chain? = some c) (n : SourceId) :
    ∃ (r : Route) (n' : SourceId), r.chain = c ∧ r.IsPlanned ∧
      Gives (compose params node) n r.operation n' := by
  fun_induction Node.chain? node generalizing c n with
  | case1 first =>
    cases h
    exact ⟨.field [first], n, rfl, trivial, gives_pure.mpr ⟨rfl, rfl⟩⟩
  | case2 lhs rhs ih =>
    obtain ⟨l, hl, h⟩ := Option.bind_eq_some_iff.mp h
    obtain ⟨path, hpath, h⟩ := Option.bind_eq_some_iff.mp h
    cases h
    obtain ⟨r, n', rfl, hplanned, hr⟩ := ih hl n
    refine ⟨r.append path, n', r.chain_append path, ?_, ?_⟩
    · cases r <;> exact hplanned
    · rw [r.operation_append]
      exact gives_dot.mpr ⟨_, n', _, hr, gives_path hpath n', rfl⟩
  | case3 operand ih =>
    obtain ⟨before, hbefore, h⟩ := Option.bind_eq_some_iff.mp h
    obtain ⟨_, hguard, h⟩ := Option.bind_eq_some_iff.mp h
    cases h
    obtain ⟨r, n', rfl, hplanned, hr⟩ := ih hbefore n
    have hpath : r.chain.endsInPath = true := (Option.guard_eq_some' _).mp hguard
    obtain ⟨hjoin, hgives⟩ := gives_dereference_open hplanned hpath n'
    refine ⟨_, n' + 1, rfl, hjoin, ?_⟩
    exact gives_postfixed.mpr ⟨_, n', gives_pipe.mpr ⟨_, n', _, hr, gives_opening, rfl⟩, hgives⟩
  | case4 operand hoperand ih =>
    obtain ⟨before, hbefore, h⟩ := Option.bind_eq_some_iff.mp h
    cases h
    obtain ⟨r, n', rfl, hplanned, hr⟩ := ih hbefore n
    obtain ⟨r', hchain, hplanned', hgives⟩ := gives_dereference r hplanned n'
    refine ⟨r', n' + 1, hchain, hplanned', ?_⟩
    exact gives_postfixed.mpr ⟨_, n', hr, hgives⟩
  | case5 => cases h

/-- What a member leads along under its name is what its plan does. -/
theorem gives_chainMember {node : Node} {member : String × Chain}
    (h : node.chainMember? = some member) (n : SourceId) :
    ∃ (m : ChainMember) (o : Operation) (n' : SourceId), m.named = member ∧
      Gives (compose params node) n o n' ∧ o.toMember = .ok m.toMember := by
  unfold Node.chainMember? at h
  split at h
  · next name value =>
    obtain ⟨c, hc, h⟩ := Option.bind_eq_some_iff.mp h
    cases h
    obtain ⟨r, n', rfl, hplanned, hr⟩ := @gives_chain params _ _ hc n
    refine ⟨⟨name, r, hplanned⟩, .assignment name r.operation, n', rfl, ?_, rfl⟩
    exact gives_binary.mpr ⟨_, n, _, gives_string, hr, rfl⟩
  · obtain ⟨c, hc, h⟩ := Option.bind_eq_some_iff.mp h
    obtain ⟨name, hname, h⟩ := Option.bind_eq_some_iff.mp h
    cases h
    obtain ⟨r, n', rfl, hplanned, hr⟩ := @gives_chain params _ _ hc n
    refine ⟨⟨name, r, hplanned⟩, r.operation, n', rfl, hr, ?_⟩
    rw [← r.memberName?_operation] at hname
    unfold Operation.toMember
    cases r <;>
      · dsimp only [Route.operation, Operation.attrs] at hname ⊢
        rw [hname]
        rfl

/-- An object is planned member by member. -/
theorem gives_object {β γ : Type} {R : Node → γ → Prop} {named : β → γ} {toMember : β → Member}
    (h : ∀ node member, R node member → ∀ n, ∃ (m : β) (o : Operation) (n' : SourceId),
      named m = member ∧ Gives (compose params node) n o n' ∧ o.toMember = .ok (toMember m))
    {nodes : List Node} {members : List γ} (hmembers : List.Forall₂ R nodes members)
    (n : SourceId) :
    ∃ (ms : List β) (n' : SourceId), ms.map named = members ∧
      Gives (compose params (.object nodes)) n (.object (ms.map toMember)) n' := by
  have hall : ∃ (ms : List β) (os : List Operation) (n' : SourceId),
      ms.map named = members ∧ Gives (composeAll params nodes) n os n' ∧
        os.mapM Operation.toMember = .ok (ms.map toMember) := by
    induction hmembers generalizing n with
    | nil => exact ⟨[], [], n, rfl, gives_pure.mpr ⟨rfl, rfl⟩, rfl⟩
    | cons hnode _ ih =>
      obtain ⟨m, o, k, hm, ho, hname⟩ := h _ _ hnode n
      obtain ⟨ms, os, n', hms, hos, hnames⟩ := ih k
      refine ⟨m :: ms, o :: os, n', by rw [List.map_cons, hm, hms], ?_, ?_⟩
      · exact gives_cons.mpr ⟨o, k, os, ho, hos, rfl⟩
      · rw [List.mapM_cons, hname, hnames]
        rfl
  obtain ⟨ms, os, n', hms, hos, hnames⟩ := hall
  exact ⟨ms, n', hms, gives_members.mpr ⟨os, _, hos, hnames, rfl⟩⟩

theorem gives_chainMembers {nodes : List Node} {members : List (String × Chain)}
    (h : nodes.mapM Node.chainMember? = some members) (n : SourceId) :
    ∃ (ms : List ChainMember) (n' : SourceId), ms.map ChainMember.named = members ∧
      Gives (compose params (.object nodes)) n (.object (ms.map ChainMember.toMember)) n' := by
  refine gives_object (fun node member hnode => gives_chainMember hnode) ?_ n
  induction nodes generalizing members with
  | nil =>
    cases h
    exact .nil
  | cons node nodes ih =>
    rw [List.mapM_cons] at h
    obtain ⟨member, hnode, h⟩ := Option.bind_eq_some_iff.mp h
    obtain ⟨rest, hrest, h⟩ := Option.bind_eq_some_iff.mp h
    cases h
    exact .cons hnode (ih hrest)

end Planner
end DocQuery
