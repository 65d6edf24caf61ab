import DocQuery.Proofs.Plan.Features

/-!
# What a member without a name is called

A member of an object may stand without a name, and the planner reads one off its plan: an attribute
on its own is its own name, and a pipeline has the name of its first stage, whatever stands behind
that. In the syntax tree this is a walk down the left (`Node.memberName?`, `memberName?_compose`).
**So the name is that of an attribute that the tree begins with** (`Node.plansAs_iff`), and a further
attribute is noticed only right behind it: `foo.bar` has no name, and `foo[0].bar`, `foo[x == 1].bar`
and `foo->bar` are called `foo` (`Node.plansAs_ambiguous`).
-/

set_option autoImplicit false

namespace DocQuery

/-! ## Trees that begin with an attribute -/

namespace Node

/-- What may stand behind an expression: a stage, an attribute access, an arrow. -/
inductive Step where
  | pipe (rhs : Node)
  | dot (rhs : Node)
  | arrow

/-- An expression with a step behind it. -/
def behind (node : Node) : Step → Node
  | .pipe rhs => pipe node rhs
  | .dot rhs => dot node rhs
  | .arrow => postfixed .arrow node

/-- An expression with some steps behind it. -/
def followed (node : Node) (steps : List Step) : Node := steps.foldl behind node

/-- The attribute that a tree begins with, unless further ones are joined to it right away. -/
def memberName? : Node → Option String
  | attr name => some name
  | pipe lhs _ => memberName? lhs
  | dot lhs rhs => if lhs.isAccessor && rhs.isAccessor then none else memberName? lhs
  | postfixed .arrow operand => memberName? operand
  | _ => none

/-- The tree begins with an attribute, and the first step from there is no further one. -/
def Begins (node : Node) (k : String) : Prop :=
  ∃ steps, node = (attr k).followed steps ∧
    ∀ rhs, steps.head? = some (.dot rhs) → rhs.isAccessor = false

theorem followed_concat (node : Node) (steps : List Step) (step : Step) :
    node.followed (steps ++ [step]) = (node.followed steps).behind step := by
  rw [followed, followed, List.foldl_append, List.foldl_cons, List.foldl_nil]

/-- A step behind anything but a path of attributes keeps the name. -/
theorem memberName?_behind {node : Node} (h : node.isAccessor = false) (step : Step) :
    (node.behind step).memberName? = node.memberName? ∧ (node.behind step).isAccessor = false := by
  cases step with
  | pipe rhs => exact ⟨rfl, rfl⟩
  | arrow => exact ⟨rfl, rfl⟩
  | dot rhs => simp [behind, memberName?, isAccessor, h]

theorem memberName?_followed {node : Node} (h : node.isAccessor = false) (steps : List Step) :
    (node.followed steps).memberName? = node.memberName? := by
  induction steps generalizing node with
  | nil => rfl
  | cons step steps ih =>
    obtain ⟨hname, haccessor⟩ := memberName?_behind h step
    exact (ih haccessor).trans hname

/-- The steps of a tree that has a name, with one more. -/
theorem Begins.behind {node : Node} {k : String} (h : node.Begins k) (step : Step)
    (hstep : ∀ rhs, step = .dot rhs → node.isAccessor = true → rhs.isAccessor = false) :
    (node.behind step).Begins k := by
  obtain ⟨steps, rfl, hfirst⟩ := h
  refine ⟨steps ++ [step], (followed_concat _ _ _).symm, fun rhs hhead => ?_⟩
  cases steps with
  | nil => exact hstep rhs (Option.some.inj hhead) rfl
  | cons first steps => exact hfirst rhs hhead

theorem begins_of_memberName? {k : String} : ∀ {node : Node}, node.memberName? = some k →
    node.Begins k
  | attr name, h => by
    obtain rfl := Option.some.inj h
    exact ⟨[], rfl, nofun⟩
  | pipe lhs rhs, h => by
    rw [memberName?] at h
    exact (begins_of_memberName? h).behind (.pipe rhs) nofun
  | postfixed .arrow operand, h => by
    rw [memberName?] at h
    exact (begins_of_memberName? h).behind .arrow nofun
  | dot lhs rhs, h => by
    rw [memberName?] at h
    split at h
    · cases h
    · next hpath =>
      refine (begins_of_memberName? h).behind (.dot rhs) ?_
      rintro _ ⟨⟩ hlhs
      simpa [hlhs] using hpath

/-- **The name of a tree is the attribute that it begins with.** -/
theorem memberName?_eq_some_iff {node : Node} {k : String} :
    node.memberName? = some k ↔ node.Begins k := by
  refine ⟨begins_of_memberName?, ?_⟩
  rintro ⟨steps, rfl, hfirst⟩
  cases steps with
  | nil => rfl
  | cons step steps =>
    have hstep : ((attr k).behind step).memberName? = some k ∧
        ((attr k).behind step).isAccessor = false := by
      cases step with
      | pipe rhs => exact ⟨rfl, rfl⟩
      | arrow => exact ⟨rfl, rfl⟩
      | dot rhs => simp [behind, memberName?, isAccessor, hfirst rhs rfl]
    exact (memberName?_followed hstep.2 steps).trans hstep.1

end Node

/-! ## Plans -/

namespace Planner

open Operation

variable {params : Params} {node : Node} {n n' : SourceId} {o : Operation}

theorem memberName?_other (h : o.isAccessor = false) (h' : o.isPipeline = false) :
    o.memberName? = none := by
  cases o with
  | accessor path => cases h
  | pipe stages name => cases h'
  | _ => rfl

/-- A stage behind a pipeline that has one leaves its name. -/
theorem memberName?_pipeInto {lhs : Operation} (h : ∀ name, lhs ≠ .pipe [] name) (rhs : Operation) :
    (pipeInto lhs rhs).memberName? = lhs.memberName? := by
  cases lhs with
  | pipe stages name =>
    cases stages with
    | nil => exact absurd rfl (h name)
    | cons first rest => cases name <;> rfl
  | _ => rfl

/-- A planned path of attributes has a step. -/
theorem accessor_ne_nil : ∀ {node : Node} {n n' : SourceId} {o : Operation},
    node.isAccessor = true → Gives (compose params node) n o n' → o ≠ .accessor []
  | .attr _, _, _, _, _, h | .parent, _, _, _, _, h => by
    rw [compose, gives_pure] at h
    obtain ⟨rfl, -⟩ := h
    nofun
  | .dot lhs rhs, _, _, _, hpath, h => by
    obtain ⟨l, m, r, hl, -, rfl⟩ := gives_dot.mp h
    have hne := accessor_ne_nil (Bool.and_eq_true_iff.mp hpath).1 hl
    rcases access_cases l r with ⟨path, rest, rfl, rfl, hjoined⟩ | ⟨-, hinto⟩ <;> intro heq
    · have hnil := List.append_eq_nil_iff.mp (Operation.accessor.inj (hjoined.symm.trans heq))
      exact hne (congrArg Operation.accessor hnil.1)
    · have hpipe := isPipeline_pipeInto l r
      rw [← hinto, heq] at hpipe
      cases hpipe

/-- Joined paths are no single attribute. -/
theorem memberName?_append {path rest : List PathStep} (hpath : accessor path ≠ .accessor [])
    (hrest : accessor rest ≠ .accessor []) : (accessor (path ++ rest)).memberName? = none := by
  match path, rest with
  | [], _ => exact absurd rfl hpath
  | _ :: _, [] => exact absurd rfl hrest
  | [_], _ :: _ | _ :: _ :: _, _ :: _ => simp [Operation.memberName?]

/-- Attributes that are joined have no name, and an attribute behind anything else leaves it. -/
theorem memberName?_access {lhs rhs : Node} {l r : Operation} {m m' k k' : SourceId}
    (hl : Gives (compose params lhs) m l m') (hr : Gives (compose params rhs) k r k') :
    (access l r).memberName? =
      if lhs.isAccessor && rhs.isAccessor then none else l.memberName? := by
  have hlhs : l.isAccessor = lhs.isAccessor := (shape_compose hl).accessor
  have hrhs : r.isAccessor = rhs.isAccessor := (shape_compose hr).accessor
  rw [← hlhs, ← hrhs]
  rcases access_cases l r with ⟨path, rest, rfl, rfl, heq⟩ | ⟨hshape, heq⟩ <;> rw [heq]
  · exact memberName?_append (accessor_ne_nil hlhs.symm hl) (accessor_ne_nil hrhs.symm hr)
  · rw [memberName?_pipeInto hl.pipe_ne_nil, hshape]
    rfl

theorem memberName?_dereference {operand : Operation} (h : Gives (dereference operand) n o n') :
    o.memberName? = operand.memberName? := by
  unfold dereference at h
  cases operand with
  | accessor path =>
    simp only [gives_bind, gives_newSource, gives_pure] at h
    obtain ⟨_, _, ⟨rfl, -⟩, rfl, -⟩ := h
    exact memberName?_source _ _ _
  | pipe stages name =>
    simp only [gives_bind, gives_newSource, gives_pure] at h
    obtain ⟨_, _, ⟨rfl, -⟩, rfl, -⟩ := h
    exact memberName?_source _ _ _
  | _ =>
    obtain ⟨rfl, -⟩ := gives_pure.mp h
    rfl

/-- The name of a plan can be told in the syntax tree. -/
theorem memberName?_compose : ∀ {node : Node} {n n' : SourceId} {o : Operation},
    Gives (compose params node) n o n' → o.memberName? = node.memberName?
  | .attr name, _, _, _, h | .parent, _, _, _, h => by
    rw [compose, gives_pure] at h
    obtain ⟨rfl, -⟩ := h
    rfl
  | .pipe lhs rhs, _, _, _, h => by
    obtain ⟨l, m, r, hl, -, rfl⟩ := gives_pipe.mp h
    rw [memberName?_pipeInto hl.pipe_ne_nil, memberName?_compose hl, Node.memberName?]
  | .dot lhs rhs, _, _, _, h => by
    obtain ⟨l, m, r, hl, hr, rfl⟩ := gives_dot.mp h
    rw [memberName?_access hl hr, memberName?_compose hl, Node.memberName?]
  | .everything, _, _, _, h => by
    obtain ⟨rfl, -⟩ := gives_everything.mp h
    rfl
  | .postfixed .arrow operand, _, _, _, h => by
    obtain ⟨c, m, hc, h⟩ := gives_postfixed.mp h
    rw [memberName?_dereference h, memberName?_compose hc, Node.memberName?]
  | .constraint _, _, _, _, h | .binary _ _ _, _, _, _, h | .not _, _, _, _, h
  | .postfixed .asc _, _, _, _, h | .postfixed .desc _, _, _, _, h | .object _, _, _, _, h
  | .array _, _, _, _, h | .subscript _, _, _, _, h | .range _ _ _, _, _, _, h
  | .ellipsis, _, _, _, h | .functionCall _ _, _, _, _, h | .param _, _, _, _, h
  | .integer _, _, _, _, h | .float _, _, _, _, h | .string _, _, _, _, h | .bool _, _, _, _, h
  | .null, _, _, _, h => memberName?_other (shape_compose h).accessor (shape_compose h).pipeline

/-- A member that stands without a name has that of its syntax tree, or is refused. -/
theorem toMember_compose (hmember : node.isMember = false)
    (h : Gives (compose params node) n o n') : o.toMember = match node.memberName? with
      | some k => .ok (.assignment k o)
      | none => .error (.unnamedMember o.kind) := by
  have hother : o.isMember = false := (shape_compose h).member.trans hmember
  rw [← memberName?_compose h]
  unfold Operation.toMember
  split
  · cases hother
  · cases hother
  · rfl

/-- Members are planned one by one. -/
theorem members_compose {nodes : List Node} {os : List Operation} {ms : List Member} {i : Nat}
    {m : Member} (hos : Gives (composeAll params nodes) n os n')
    (hms : os.mapM Operation.toMember = .ok ms) (hnode : nodes[i]? = some node)
    (hm : ms[i]? = some m) :
    ∃ o k k', Gives (compose params node) k o k' ∧ o.toMember = .ok m := by
  induction nodes generalizing n n' os ms i with
  | nil => cases hnode
  | cons first nodes ih =>
    obtain ⟨o, k, os, ho, hrest, rfl⟩ := gives_cons.mp hos
    rw [List.mapM_cons] at hms
    obtain ⟨member, hmember, hms⟩ := exists_of_bind_eq_ok hms
    obtain ⟨members, hmembers, hms⟩ := exists_of_bind_eq_ok hms
    cases hms
    cases i with
    | zero =>
      cases hnode
      cases hm
      exact ⟨o, n, k, ho, hmember⟩
    | succ i => exact ih hrest hmembers hnode hm

end Planner

/-! ## Objects -/

namespace Node

open Planner

/-- The planner has an operation for the tree. -/
def Plans (params : Params) (node : Node) : Prop :=
  ∃ n o n', Gives (compose params node) n o n'

/-- Some object has the tree as a member without a name, and its plan has that member under `k`. -/
def PlansAs (params : Params) (node : Node) (k : String) : Prop :=
  node.isMember = false ∧ ∃ (members : List Node) (ms : List Member) (n n' : SourceId) (i : Nat)
    (value : Operation), Gives (compose params (.object members)) n (.object ms) n' ∧
      members[i]? = some node ∧ ms[i]? = some (.assignment k value)

variable {params : Params} {node : Node} {k : String}

theorem isMember_eq_false_of_memberName? (h : node.memberName? = some k) :
    node.isMember = false := by
  cases node <;> first | rfl | cases h

/-- The key of a member is the name of its tree. -/
theorem plansAs_iff_memberName? :
    node.PlansAs params k ↔ node.Plans params ∧ node.memberName? = some k := by
  constructor
  · rintro ⟨hmember, members, ms, n, n', i, value, h, hnode, hm⟩
    obtain ⟨os, _, hos, hms, heq⟩ := gives_members.mp h
    cases heq
    obtain ⟨o, j, j', ho, hto⟩ := members_compose hos hms hnode hm
    refine ⟨⟨j, o, j', ho⟩, ?_⟩
    rw [toMember_compose hmember ho] at hto
    split at hto
    · next hname =>
      cases hto
      exact hname
    · cases hto
  · rintro ⟨⟨n, o, n', ho⟩, hname⟩
    have hmember := isMember_eq_false_of_memberName? hname
    refine ⟨hmember, [node], [.assignment k o], n, n', 0, o, ?_, rfl, rfl⟩
    have hto := toMember_compose hmember ho
    rw [hname] at hto
    refine gives_members.mpr ⟨[o], _, gives_cons.mpr ⟨o, n', [], ho, ?_, rfl⟩, ?_, rfl⟩
    · rw [composeAll]
      exact gives_pure.mpr ⟨rfl, rfl⟩
    · rw [List.mapM_cons, hto]
      rfl

/-- What stands in front of a step has a plan if the whole has. -/
theorem Plans.of_behind {step : Step} (h : (node.behind step).Plans params) :
    node.Plans params := by
  obtain ⟨n, o, n', h⟩ := h
  cases step with
  | pipe rhs =>
    obtain ⟨l, m, _, hl, -⟩ := gives_pipe.mp h
    exact ⟨n, l, m, hl⟩
  | dot rhs =>
    obtain ⟨l, m, _, hl, -⟩ := gives_dot.mp h
    exact ⟨n, l, m, hl⟩
  | arrow =>
    obtain ⟨l, m, hl, -⟩ := gives_postfixed.mp h
    exact ⟨n, l, m, hl⟩

/-- **A member without a name is called what its tree begins with.** A tree that a name cannot be
read off is refused. Only the first step behind the attribute can be in the way, as a further
attribute: what is no path of attributes keeps its name behind any step, an attribute access too. -/
theorem plansAs_iff (params : Params) (node : Node) :
    (∀ k, node.PlansAs params k ↔ node.Plans params ∧ node.Begins k) ∧
    (∀ n o n', Gives (compose params node) n o n' → node.isMember = false →
      (∀ k, ¬ node.Begins k) → o.toMember = .error (.unnamedMember o.kind)) ∧
    (∀ rhs, node.isAccessor = true → rhs.isAccessor = true →
      ∀ k, ¬ (node.dot rhs).PlansAs params k) ∧
    (∀ step, node.isAccessor = false → (node.behind step).Plans params →
      ∀ k, (node.behind step).PlansAs params k ↔ node.PlansAs params k) := by
  refine ⟨fun k => ?_, fun n o n' h hmember hbegins => ?_, fun rhs hlhs hrhs k h => ?_,
    fun step hnode hplans k => ?_⟩
  · rw [plansAs_iff_memberName?, memberName?_eq_some_iff]
  · rw [toMember_compose hmember h]
    cases hname : node.memberName? with
    | none => rfl
    | some k => exact absurd (memberName?_eq_some_iff.mp hname) (hbegins k)
  · obtain ⟨-, hname⟩ := plansAs_iff_memberName?.mp h
    rw [memberName?, hlhs, hrhs] at hname
    cases hname
  · rw [plansAs_iff_memberName?, plansAs_iff_memberName?, (memberName?_behind hnode step).1]
    exact and_congr_left fun _ => ⟨fun _ => hplans.of_behind, fun _ => hplans⟩

/-! What is documented to have a name is an attribute with its values narrowed down. -/

/-- A stage that keeps to the values in front of it: a filter, a subscript, a projection, an order. -/
def narrows : Node → Bool
  | constraint _ | subscript _ | object _ => true
  | functionCall name _ => name == "order"
  | _ => false

/-- A dereference keeps to them too. -/
def Step.narrows : Step → Bool
  | .pipe rhs | .dot rhs => rhs.narrows
  | .arrow => true

/-- The last step of a narrowed attribute is no attribute access. -/
theorem narrows_of_followed {steps : List Step} {lhs rhs : Node}
    (h : dot lhs rhs = (attr k).followed steps) (hsteps : ∀ step ∈ steps, step.narrows = true) :
    rhs.narrows = true := by
  rcases List.eq_nil_or_concat steps with rfl | ⟨before, step, rfl⟩
  · cases h
  · rw [List.concat_eq_append, followed_concat] at h
    have hstep : step.narrows = true := hsteps step (by simp)
    cases step with
    | dot => cases h; exact hstep
    | pipe | arrow => cases h

/-- `foo.bar` is refused for want of a name. `foo[0].bar`, `foo[x == 1].bar` and `foo->bar` are
called `foo`, and none of them is `foo`, narrowed down. -/
theorem plansAs_ambiguous :
    plan (object [dot (attr "foo") (attr "bar")]) none [] = .error (.unnamedMember "accessor") ∧
    ∀ front ∈ [pipe (attr "foo") (subscript (integer 0)),
        pipe (attr "foo") (constraint (some (binary .equals (attr "x") (integer 1)))),
        postfixed .arrow (attr "foo")],
      (dot front (attr "bar")).PlansAs [] "foo" ∧
        ¬ ∃ steps, dot front (attr "bar") = (attr "foo").followed steps ∧
          ∀ step ∈ steps, step.narrows = true := by
  have hwide : ∀ front, ¬ ∃ steps, dot front (attr "bar") = (attr "foo").followed steps ∧
      ∀ step ∈ steps, step.narrows = true := by
    rintro front ⟨steps, heq, hsteps⟩
    cases narrows_of_followed heq hsteps
  refine ⟨rfl, fun front hfront => ⟨?_, hwide front⟩⟩
  rw [plansAs_iff_memberName?]
  simp only [List.mem_cons, List.not_mem_nil, or_false] at hfront
  rcases hfront with rfl | rfl | rfl
  · exact ⟨⟨1, _, _, rfl⟩, rfl⟩
  · exact ⟨⟨1, _, _, rfl⟩, rfl⟩
  · exact ⟨⟨1, _, _, rfl⟩, rfl⟩

end Node
end DocQuery
