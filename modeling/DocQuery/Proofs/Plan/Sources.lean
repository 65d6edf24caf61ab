import DocQuery.Plan.Planner

/-!
# The sources of a plan

Composition counts its sources: the ids that it takes are those from the first free one on, and no
id is taken twice. **So the sources of an operation lie between the free id before and after its
composition, each once** (`counted_compose`), and those of operations composed one after the other
are told apart.
-/

set_option autoImplicit false

namespace DocQuery

/-! ## Sources -/

namespace Operation

mutual

/-- The ids of the sources in an operation. -/
def sources : Operation → List SourceId
  | source id => [id]
  | accessor _ | literal _ | splat | subscript _ => []
  | filter condition => sources condition
  | binary _ lhs rhs => sources lhs ++ sources rhs
  | not operand => sources operand
  | object members => sourcesMembers members
  | array elements => sourcesAll elements
  | assignment _ value => sources value
  | range start stop _ => sources start ++ sources stop
  | ordering terms => sourcesTerms terms
  | sortDirection (.mk e _) => sources e
  | call _ arguments => sourcesAll arguments
  | pipe stages _ => sourcesAll stages
  | mapJoin stages => sourcesAll stages

def sourcesAll : List Operation → List SourceId
  | [] => []
  | o :: os => sources o ++ sourcesAll os

def sourcesMembers : List Member → List SourceId
  | [] => []
  | .assignment _ value :: ms => sources value ++ sourcesMembers ms
  | .splat :: ms => sourcesMembers ms

def sourcesTerms : List SortTerm → List SourceId
  | [] => []
  | .mk e _ :: ts => sources e ++ sourcesTerms ts

end

theorem sourcesAll_append (os os' : List Operation) :
    sourcesAll (os ++ os') = sourcesAll os ++ sourcesAll os' := by
  induction os with
  | nil => rfl
  | cons o os ih => rw [List.cons_append, sourcesAll, sourcesAll, ih, List.append_assoc]

theorem sources_sortDirection (term : SortTerm) :
    (sortDirection term).sources = term.expression.sources := by
  cases term
  rfl

theorem sourcesTerms_cons (term : SortTerm) (terms : List SortTerm) :
    sourcesTerms (term :: terms) = term.expression.sources ++ sourcesTerms terms := by
  cases term
  rfl

/-- A pipeline that begins with a source has only the name it is given. -/
theorem memberName?_source (id : SourceId) (stages : List Operation) (name : Option String) :
    (pipe (source id :: stages) name).memberName? = name := by
  cases name <;> rfl

end Operation

/-- Ids from `n` up to `n'`, none of them twice. -/
structure Counted (n n' : SourceId) (ids : List SourceId) : Prop where
  le : n ≤ n'
  bounds : ∀ id ∈ ids, n ≤ id ∧ id < n'
  nodup : ids.Nodup

namespace Counted

variable {n m k : SourceId} {ids ids' : List SourceId}

theorem nil (h : n ≤ m) : Counted n m [] := ⟨h, fun _ hid => (nomatch hid), .nil⟩

theorem single (n : SourceId) : Counted n (n + 1) [n] := by
  refine ⟨Nat.le_succ n, fun id hid => ?_, List.nodup_cons.mpr ⟨List.not_mem_nil, .nil⟩⟩
  obtain rfl := List.mem_singleton.mp hid
  exact ⟨Nat.le_refl id, Nat.lt_succ_self id⟩

theorem append (h : Counted n m ids) (h' : Counted m k ids') : Counted n k (ids ++ ids') := by
  refine ⟨Nat.le_trans h.le h'.le, fun id hid => ?_, List.nodup_append.mpr ⟨h.nodup, h'.nodup, ?_⟩⟩
  · rcases List.mem_append.mp hid with hid | hid
    · exact ⟨(h.bounds id hid).1, Nat.lt_of_lt_of_le (h.bounds id hid).2 h'.le⟩
    · exact ⟨Nat.le_trans h.le (h'.bounds id hid).1, (h'.bounds id hid).2⟩
  · rintro id hid _ hid' rfl
    exact Nat.not_lt.mpr (h'.bounds id hid').1 (h.bounds id hid).2

theorem perm (h : Counted n m ids) (hperm : ids.Perm ids') : Counted n m ids' :=
  ⟨h.le, fun id hid => h.bounds id (hperm.mem_iff.mpr hid), hperm.nodup_iff.mp h.nodup⟩

end Counted

namespace Planner

open Operation

variable {params : Params} {n n' : SourceId} {o : Operation}

/-! ## Successful composition -/

section

variable {α β : Type} {a : α} {b : β}

/-- Composition that finds `n` free gives `a` and leaves `n'` free. -/
def Gives (x : Plan α) (n : SourceId) (a : α) (n' : SourceId) : Prop := x.run n = .ok (a, n')

theorem gives_bind {x : Plan α} {f : α → Plan β} :
    Gives (x >>= f) n b n' ↔ ∃ a m, Gives x n a m ∧ Gives (f a) m b n' := by
  unfold Gives
  show (x n >>= fun p => f p.1 p.2) = _ ↔ ∃ a m, x n = _ ∧ f a m = _
  cases x n with
  | error e =>
    constructor
    · intro h
      cases h
    · rintro ⟨_, _, h, -⟩
      cases h
  | ok p =>
    constructor
    · intro h
      exact ⟨p.1, p.2, rfl, h⟩
    · rintro ⟨a, m, h, hrest⟩
      cases h
      exact hrest

theorem gives_pure {b : α} : Gives (pure b) n a n' ↔ a = b ∧ n' = n := by
  constructor
  · intro h
    cases h
    exact ⟨rfl, rfl⟩
  · rintro ⟨rfl, rfl⟩
    rfl

theorem gives_map {x : Plan α} {f : α → β} :
    Gives (x >>= fun a => pure (f a)) n b n' ↔ ∃ a, Gives x n a n' ∧ b = f a := by
  simp only [gives_bind, gives_pure]
  constructor
  · rintro ⟨a, _, h, rfl, rfl⟩
    exact ⟨a, h, rfl⟩
  · rintro ⟨a, h, rfl⟩
    exact ⟨a, n', h, rfl, rfl⟩

theorem gives_both {γ : Type} {x : Plan α} {y : Plan β} {f : α → β → γ} {c : γ} :
    Gives (x >>= fun a => y >>= fun b => pure (f a b)) n c n' ↔
      ∃ a m b, Gives x n a m ∧ Gives y m b n' ∧ c = f a b := by
  simp only [gives_bind, gives_pure]
  constructor
  · rintro ⟨a, m, ha, b, _, hb, rfl, rfl⟩
    exact ⟨a, m, b, ha, hb, rfl⟩
  · rintro ⟨a, m, b, ha, hb, rfl⟩
    exact ⟨a, m, ha, b, n', hb, rfl, rfl⟩

theorem gives_lift {x : Except PlanError α} :
    Gives (liftM x : Plan α) n a n' ↔ x = .ok a ∧ n' = n := by
  cases x with
  | error e =>
    constructor
    · intro h
      cases h
    · intro h
      cases h.1
  | ok b =>
    constructor
    · intro h
      cases h
      exact ⟨rfl, rfl⟩
    · rintro ⟨h, rfl⟩
      cases h
      rfl

end

theorem gives_newSource : Gives newSource n o n' ↔ o = .source n ∧ n' = n + 1 := by
  constructor
  · intro h
    cases h
    exact ⟨rfl, rfl⟩
  · rintro ⟨rfl, rfl⟩
    rfl

/-! ## Operators keep the sources of their operands -/

theorem sources_pipeInto (lhs rhs : Operation) :
    (pipeInto lhs rhs).sources = lhs.sources ++ rhs.sources := by
  have hall : sourcesAll [rhs] = rhs.sources := List.append_nil _
  cases lhs with
  | pipe stages name =>
    show sourcesAll (stages ++ [rhs]) = _
    rw [sourcesAll_append, hall]
    rfl
  | _ => exact congrArg (sources _ ++ ·) hall

theorem sources_access (lhs rhs : Operation) :
    (access lhs rhs).sources = lhs.sources ++ rhs.sources := by
  unfold access
  split
  · rfl
  · exact sources_pipeInto lhs rhs

theorem sources_binary {operator : BinaryOperator} {lhs rhs : Operation}
    (h : binary operator lhs rhs = .ok o) : o.sources = lhs.sources ++ rhs.sources := by
  unfold binary at h
  split at h
  case h_11 =>
    split at h <;> cases h
    rfl
  all_goals
    cases h
    rfl

theorem expression_sortTerm (e : Operation) (direction : Direction) :
    (sortTerm e direction).expression.sources = e.sources := by
  unfold sortTerm
  split <;> rfl

theorem sourcesTerms_orderTerm (os : List Operation) :
    sourcesTerms (os.map orderTerm) = sourcesAll os := by
  have hterm : ∀ o, (orderTerm o).expression.sources = o.sources := by
    intro o
    unfold orderTerm
    split
    · next term =>
      cases term
      rfl
    · exact expression_sortTerm o .asc
  induction os with
  | nil => rfl
  | cons o os ih => rw [List.map_cons, sourcesTerms_cons, hterm, ih, sourcesAll]

theorem sources_call {name : String} {os : List Operation} (h : call name os = .ok o) :
    o.sources = sourcesAll os := by
  unfold call at h
  split at h
  · cases h
    exact sourcesTerms_orderTerm os
  · split at h
    · cases h
    · split at h <;> cases h
      rfl

theorem sourcesMembers_toMember {os : List Operation} {members : List Member}
    (h : os.mapM Operation.toMember = .ok members) : sourcesMembers members = sourcesAll os := by
  induction os generalizing members with
  | nil =>
    cases h
    rfl
  | cons o os ih =>
    rw [List.mapM_cons] at h
    obtain ⟨m, hmember, h⟩ := exists_of_bind_eq_ok h
    obtain ⟨ms, hrest, h⟩ := exists_of_bind_eq_ok h
    cases h
    rw [sourcesAll, ← ih hrest]
    unfold Operation.toMember at hmember
    split at hmember
    · cases hmember
      rfl
    · cases hmember
      rfl
    · split at hmember <;> cases hmember
      rfl

/-! ## Composition counts -/

theorem counted_dereference {m : SourceId} {operand : Operation} (hn : Counted n m operand.sources)
    (h : Gives (dereference operand) m o n') : Counted n n' o.sources := by
  unfold dereference at h
  split at h
  · simp only [gives_bind, gives_newSource, gives_pure] at h
    obtain ⟨_, _, ⟨rfl, rfl⟩, rfl, rfl⟩ := h
    exact (Counted.nil hn.le).append (.single m)
  · next stages name =>
    simp only [gives_bind, gives_newSource, gives_pure] at h
    obtain ⟨_, _, ⟨rfl, rfl⟩, rfl, rfl⟩ := h
    have hsources : sourcesAll [.mapJoin (stages ++ [.attr "_ref"])] = sourcesAll stages := by
      show sourcesAll (stages ++ [.attr "_ref"]) ++ [] = _
      rw [List.append_nil, sourcesAll_append]
      exact List.append_nil _
    -- the new source is counted last and stands first
    refine (hn.append (.single m)).perm ?_
    show (sourcesAll stages ++ [m]).Perm ([m] ++ sourcesAll [.mapJoin (stages ++ [.attr "_ref"])])
    rw [hsources]
    exact List.perm_append_comm
  · obtain ⟨rfl, rfl⟩ := gives_pure.mp h
    exact .nil hn.le

/-! What each form of syntax is composed to. -/

section

variable {lhs rhs operand : Node}

theorem gives_pipe : Gives (compose params (.pipe lhs rhs)) n o n' ↔
    ∃ l m r, Gives (compose params lhs) n l m ∧ Gives (compose params rhs) m r n' ∧
      o = pipeInto l r := by
  rw [compose]
  exact gives_both

theorem gives_dot : Gives (compose params (.dot lhs rhs)) n o n' ↔
    ∃ l m r, Gives (compose params lhs) n l m ∧ Gives (compose params rhs) m r n' ∧
      o = access l r := by
  rw [compose]
  exact gives_both

theorem gives_range {inclusive : Bool} : Gives (compose params (.range lhs rhs inclusive)) n o n' ↔
    ∃ l m r, Gives (compose params lhs) n l m ∧ Gives (compose params rhs) m r n' ∧
      o = .range l r inclusive := by
  rw [compose]
  exact gives_both

theorem gives_binary {operator : BinaryOperator} :
    Gives (compose params (.binary operator lhs rhs)) n o n' ↔
      ∃ l m r, Gives (compose params lhs) n l m ∧ Gives (compose params rhs) m r n' ∧
        binary operator l r = .ok o := by
  rw [compose]
  simp only [gives_bind, gives_lift]
  constructor
  · rintro ⟨l, m, hl, r, _, hr, hbinary, rfl⟩
    exact ⟨l, m, r, hl, hr, hbinary⟩
  · rintro ⟨l, m, r, hl, hr, hbinary⟩
    exact ⟨l, m, hl, r, n', hr, hbinary, rfl⟩

theorem gives_everything : Gives (compose params .everything) n o n' ↔
    o = .pipe [.source n] none ∧ n' = n + 1 := by
  rw [compose, gives_map]
  simp only [gives_newSource]
  constructor
  · rintro ⟨_, ⟨rfl, rfl⟩, rfl⟩
    exact ⟨rfl, rfl⟩
  · rintro ⟨rfl, rfl⟩
    exact ⟨_, ⟨rfl, rfl⟩, rfl⟩

theorem gives_filter : Gives (compose params (.constraint (some operand))) n o n' ↔
    ∃ c, Gives (compose params operand) n c n' ∧ o = .filter c := by
  rw [compose]
  exact gives_map

/-- An empty filter only opens an array. -/
theorem gives_opening :
    Gives (compose params (.constraint none)) n (.filter (.literal (.bool true))) n :=
  gives_pure.mpr ⟨rfl, rfl⟩

theorem gives_string {text : String} :
    Gives (compose params (.string text)) n (.literal (.string text)) n :=
  gives_pure.mpr ⟨rfl, rfl⟩

theorem gives_not : Gives (compose params (.not operand)) n o n' ↔
    ∃ c, Gives (compose params operand) n c n' ∧ o = .not c := by
  rw [compose]
  exact gives_map

theorem gives_postfixed {operator : PostfixOperator} :
    Gives (compose params (.postfixed operator operand)) n o n' ↔
      ∃ c m, Gives (compose params operand) n c m ∧ Gives (postfixed operator c) m o n' := by
  rw [compose]
  exact gives_bind

theorem gives_array {elements : List Node} : Gives (compose params (.array elements)) n o n' ↔
    ∃ os, Gives (composeAll params elements) n os n' ∧ o = .array os := by
  rw [compose]
  exact gives_map

theorem gives_members {members : List Node} : Gives (compose params (.object members)) n o n' ↔
    ∃ os ms, Gives (composeAll params members) n os n' ∧ os.mapM Operation.toMember = .ok ms ∧
      o = .object ms := by
  rw [compose]
  simp only [gives_bind, gives_lift, gives_pure]
  constructor
  · rintro ⟨os, _, hos, ms, _, ⟨hms, rfl⟩, rfl, rfl⟩
    exact ⟨os, ms, hos, hms, rfl⟩
  · rintro ⟨os, ms, hos, hms, rfl⟩
    exact ⟨os, n', hos, ms, n', ⟨hms, rfl⟩, rfl, rfl⟩

theorem gives_functionCall {name : String} {arguments : List Node} :
    Gives (compose params (.functionCall name arguments)) n o n' ↔
      ∃ os, Gives (composeAll params arguments) n os n' ∧ call name os = .ok o := by
  rw [compose]
  simp only [gives_bind, gives_lift]
  constructor
  · rintro ⟨os, _, hos, hcall, rfl⟩
    exact ⟨os, hos, hcall⟩
  · rintro ⟨os, hos, hcall⟩
    exact ⟨os, n', hos, hcall, rfl⟩

theorem gives_param {name : String} (h : Gives (compose params (.param name)) n o n') :
    (∃ v, o = .literal v) ∧ n' = n := by
  rw [compose] at h
  split at h
  · obtain ⟨rfl, rfl⟩ := gives_pure.mp h
    exact ⟨⟨_, rfl⟩, rfl⟩
  · cases h

theorem gives_cons {nodes : List Node} {os : List Operation} :
    Gives (composeAll params (operand :: nodes)) n os n' ↔
      ∃ o m rest, Gives (compose params operand) n o m ∧
        Gives (composeAll params nodes) m rest n' ∧ os = o :: rest := by
  rw [composeAll]
  exact gives_both

end

/-- The bounds of a window are composed and then read. -/
theorem gives_subscript {value : Node} (h : Gives (compose params (.subscript value)) n o n') :
    o.sources = [] ∧ ∃ o', Gives (compose params value) n o' n' := by
  rw [compose.eq_def] at h
  split at h
  all_goals try contradiction
  · next start stop inclusive heq =>
    cases heq
    -- the bounds are composed one after the other, as those of the range on its own
    rw [compose]
    cases inclusive <;>
      · simp only [reduceIte, Bool.false_eq_true, gives_bind, gives_pure, gives_lift] at h ⊢
        obtain ⟨l, m, hl, _, _, ⟨-, rfl⟩, r, k, hr, _, _, ⟨-, rfl⟩, _, _, ⟨-, rfl⟩, rfl, rfl⟩ := h
        exact ⟨rfl, _, l, _, hl, r, _, hr, rfl, rfl⟩
  · next hindex heq =>
    cases heq
    simp only [gives_bind, gives_pure, gives_lift] at h
    obtain ⟨index, _, hvalue, _, _, ⟨-, rfl⟩, _, _, ⟨-, rfl⟩, rfl, rfl⟩ := h
    exact ⟨rfl, index, hvalue⟩

mutual

/-- The sources of an operation are those counted while it was composed. -/
theorem counted_compose : ∀ {node : Node} {n n' : SourceId} {o : Operation},
    Gives (compose params node) n o n' → Counted n n' o.sources
  | .pipe lhs rhs, n, n', o, h => by
    obtain ⟨l, m, r, hl, hr, rfl⟩ := gives_pipe.mp h
    rw [sources_pipeInto]
    exact (counted_compose hl).append (counted_compose hr)
  | .dot lhs rhs, n, n', o, h => by
    obtain ⟨l, m, r, hl, hr, rfl⟩ := gives_dot.mp h
    rw [sources_access]
    exact (counted_compose hl).append (counted_compose hr)
  | .everything, n, n', o, h => by
    obtain ⟨rfl, rfl⟩ := gives_everything.mp h
    exact .single n
  | .constraint none, n, n', o, h => by
    rw [compose, gives_pure] at h
    obtain ⟨rfl, rfl⟩ := h
    exact .nil (Nat.le_refl _)
  | .constraint (some e), n, n', o, h => by
    obtain ⟨c, hc, rfl⟩ := gives_filter.mp h
    have hcounted := counted_compose hc
    exact hcounted
  | .binary operator lhs rhs, n, n', o, h => by
    obtain ⟨l, m, r, hl, hr, hbinary⟩ := gives_binary.mp h
    rw [sources_binary hbinary]
    exact (counted_compose hl).append (counted_compose hr)
  | .not operand, n, n', o, h => by
    obtain ⟨c, hc, rfl⟩ := gives_not.mp h
    have hcounted := counted_compose hc
    exact hcounted
  | .postfixed operator operand, n, n', o, h => by
    obtain ⟨c, m, hc, h⟩ := gives_postfixed.mp h
    have hcounted := counted_compose hc
    cases operator with
    | arrow => exact counted_dereference hcounted h
    | asc =>
      obtain ⟨rfl, rfl⟩ := gives_pure.mp h
      rw [sources_sortDirection, expression_sortTerm]
      exact hcounted
    | desc =>
      obtain ⟨rfl, rfl⟩ := gives_pure.mp h
      rw [sources_sortDirection, expression_sortTerm]
      exact hcounted
  | .attr name, n, n', o, h | .parent, n, n', o, h | .ellipsis, n, n', o, h
  | .integer value, n, n', o, h | .float value, n, n', o, h | .string value, n, n', o, h
  | .bool value, n, n', o, h | .null, n, n', o, h => by
    rw [compose, gives_pure] at h
    obtain ⟨rfl, rfl⟩ := h
    exact .nil (Nat.le_refl _)
  | .object members, n, n', o, h => by
    obtain ⟨os, ms, hos, hms, rfl⟩ := gives_members.mp h
    have hcounted := counted_composeAll hos
    rw [← sourcesMembers_toMember hms] at hcounted
    exact hcounted
  | .array elements, n, n', o, h => by
    obtain ⟨os, hos, rfl⟩ := gives_array.mp h
    exact counted_composeAll hos
  | .subscript value, n, n', o, h => by
    obtain ⟨hsources, o', ho'⟩ := gives_subscript h
    rw [hsources]
    exact .nil (counted_compose ho').le
  | .range start stop inclusive, n, n', o, h => by
    obtain ⟨l, m, r, hl, hr, rfl⟩ := gives_range.mp h
    exact (counted_compose hl).append (counted_compose hr)
  | .functionCall name arguments, n, n', o, h => by
    obtain ⟨os, hos, hcall⟩ := gives_functionCall.mp h
    rw [sources_call hcall]
    exact counted_composeAll hos
  | .param name, n, n', o, h => by
    obtain ⟨⟨v, rfl⟩, rfl⟩ := gives_param h
    exact .nil (Nat.le_refl _)

theorem counted_composeAll : ∀ {nodes : List Node} {n n' : SourceId} {os : List Operation},
    Gives (composeAll params nodes) n os n' → Counted n n' (sourcesAll os)
  | [], n, n', os, h => by
    rw [composeAll, gives_pure] at h
    obtain ⟨rfl, rfl⟩ := h
    exact .nil (Nat.le_refl _)
  | node :: nodes, n, n', os, h => by
    obtain ⟨o, m, os', ho, hos, rfl⟩ := gives_cons.mp h
    exact (counted_compose ho).append (counted_composeAll hos)

end

end Planner
end DocQuery
