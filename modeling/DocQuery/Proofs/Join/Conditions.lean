import DocQuery.Proofs.Join.Fetch
import DocQuery.Proofs.Plan.Sameness

/-!
# The conditions of a filter

A filter is put together from conditions by `and`, `or` and `not` (`Operation.conditions`). Widening
looks at one condition after the other, from left to right, and leaves alone those that do not join
with the enclosing value. Two things end it: a comparison of the enclosing value with itself, which
is refused, and a join whose values in the siblings cannot be had, which gives the filter up. **The
first condition that is either decides** (`Join.comesTo_generalize`).

What was widened joins with nothing any more, so widening it once more changes nothing
(`Join.joins_of_generalize`, `Join.generalize_eq_self`). Whether it did change anything is seen by
comparing the two filters, and one with a NaN in it differs from itself (`yields_compile_self`).
-/

set_option autoImplicit false

namespace DocQuery

namespace Operation

/-- What a filter is put together from by `and`, `or` and `not`, from left to right. -/
def conditions : Operation → List Operation
  | binary .and lhs rhs | binary .or lhs rhs => conditions lhs ++ conditions rhs
  | not operand => conditions operand
  | o => [o]

/-- The operands by which a condition may join with the enclosing value: the two sides of an equality
or a membership, and the arguments of `references()`. -/
def joinOperands : Operation → List Operation
  | binary .eq lhs rhs | binary .member lhs rhs => [lhs, rhs]
  | call .references arguments => arguments
  | _ => []

/-- Whether a condition joins with the enclosing value. -/
def joins (o : Operation) : Bool := o.joinOperands.any isParentAccessor

/-- Whether a condition compares the enclosing value with itself. -/
def joinsOnBothSides : Operation → Bool
  | binary .eq lhs rhs | binary .member lhs rhs => lhs.isParentAccessor && rhs.isParentAccessor
  | _ => false

end Operation

/-! What is none of the connectives is a condition, and what is none of the three joins with
nothing. -/

theorem Operation.conditions_eq_singleton {o : Operation}
    (hand : ∀ lhs rhs, o = .binary .and lhs rhs → False)
    (hor : ∀ lhs rhs, o = .binary .or lhs rhs → False)
    (hnot : ∀ operand, o = .not operand → False) : o.conditions = [o] := by
  rw [conditions] <;> assumption

theorem Operation.joinOperands_eq_nil {o : Operation}
    (heq : ∀ lhs rhs, o = .binary .eq lhs rhs → False)
    (hmember : ∀ lhs rhs, o = .binary .member lhs rhs → False)
    (hreferences : ∀ arguments, o = .call .references arguments → False) :
    o.joinOperands = [] := by
  rw [joinOperands] <;> assumption

namespace Join

open Operation Engine Run

variable {c : Context} {s : Scope} {F G : Operation}

/-! ## Widening twice -/

theorem joins_pair {op : BinaryOp} (hop : op = .eq ∨ op = .member) {lhs rhs : Operation}
    (hl : lhs.isParentAccessor = false) (hr : rhs.isParentAccessor = false) :
    ∀ o ∈ (Operation.binary op lhs rhs).conditions, o.joins = false := by
  rcases hop with rfl | rfl <;>
    · intro o ho
      obtain rfl := List.mem_singleton.mp ho
      simp [joins, joinOperands, hl, hr]

theorem joins_widenEq {constant : Operation} (h : constant.isParentAccessor = false)
    (values : List Value) : ∀ o ∈ (widenEq constant values).conditions, o.joins = false := by
  match values with
  | [] => exact List.forall_mem_singleton.mpr rfl
  | [v] => exact joins_pair (.inl rfl) h rfl
  | _ :: _ :: _ => exact joins_pair (.inr rfl) h rfl

theorem joins_widenMember {lhs : Operation} (h : lhs.isParentAccessor = false)
    (values : List Value) : ∀ o ∈ (widenMember lhs values).conditions, o.joins = false := by
  unfold widenMember
  dsimp only
  split
  · exact List.forall_mem_singleton.mpr rfl
  · exact joins_pair (.inr rfl) h rfl

theorem joins_foldl_orMember {rhs o : Operation} (h : rhs.isParentAccessor = false)
    (ho : ∀ p ∈ o.conditions, p.joins = false) (values : List Value) :
    ∀ p ∈ (values.foldl (orMember rhs) o).conditions, p.joins = false := by
  induction values generalizing o with
  | nil => exact ho
  | cons v values ih =>
    refine ih fun p hp => ?_
    rcases List.mem_append.mp hp with hp | hp
    · exact ho p hp
    · exact joins_pair (.inr rfl) rfl h p hp

theorem joins_widenMembers {rhs : Operation} (h : rhs.isParentAccessor = false)
    (values : List Value) : ∀ o ∈ (widenMembers rhs values).conditions, o.joins = false := by
  cases values with
  | nil => exact List.forall_mem_singleton.mpr rfl
  | cons v values => exact joins_foldl_orMember h (joins_pair (.inr rfl) rfl h) values

theorem widenArguments_eq_some {argument : Operation} {arguments widened : List Operation}
    (h : widenArguments c s (argument :: arguments) = some widened) :
    ∃ here rest, widenArguments c s arguments = some rest ∧ widened = here ++ rest ∧
      (argument.isParentAccessor = true ∧
          (∃ values, joinValues c s argument = some values ∧ here = values.map .literal) ∨
        argument.isParentAccessor = false ∧ here = [argument]) := by
  cases hparent : argument.isParentAccessor with
  | true =>
    rw [widenArguments, hparent] at h
    obtain ⟨here, hhere, h⟩ := Option.bind_eq_some_iff.mp h
    obtain ⟨rest, hrest, h⟩ := Option.bind_eq_some_iff.mp h
    obtain ⟨values, hvalues, rfl⟩ := Option.map_eq_some_iff.mp hhere
    exact ⟨_, rest, hrest, (Option.some.inj h).symm, .inl ⟨rfl, values, hvalues, rfl⟩⟩
  | false =>
    rw [widenArguments, hparent] at h
    obtain ⟨rest, hrest, h⟩ := Option.bind_eq_some_iff.mp h
    exact ⟨_, rest, hrest, (Option.some.inj h).symm, .inr ⟨rfl, rfl⟩⟩

/-- In the place of an accessor of the enclosing value there are literals. -/
theorem isParentAccessor_widenArguments {arguments widened : List Operation}
    (h : widenArguments c s arguments = some widened) :
    ∀ o ∈ widened, o.isParentAccessor = false := by
  induction arguments generalizing widened with
  | nil =>
    cases h
    exact fun o ho => absurd ho List.not_mem_nil
  | cons argument arguments ih =>
    obtain ⟨here, rest, hrest, rfl, hhere⟩ := widenArguments_eq_some h
    intro o ho
    rcases List.mem_append.mp ho with ho | ho
    · rcases hhere with ⟨-, values, -, rfl⟩ | ⟨hinner, rfl⟩
      · obtain ⟨v, -, rfl⟩ := List.mem_map.mp ho
        rfl
      · rw [List.mem_singleton.mp ho]
        exact hinner
    · exact ih hrest o ho

/-- **What was widened joins with nothing.** -/
theorem joins_of_generalize (h : generalize c s F = .ok (some G)) :
    ∀ o ∈ G.conditions, o.joins = false := by
  fun_induction generalize c s F generalizing G with
  | case1 lhs rhs ihl ihr | case2 lhs rhs ihl ihr =>
    obtain ⟨lhs', rhs', hl, hr, rfl⟩ := eq_ok_some_of_pair h
    intro o ho
    rcases List.mem_append.mp ho with ho | ho
    · exact ihl hl o ho
    · exact ihr hr o ho
  | case3 operand ih =>
    obtain ⟨operand', hoperand, rfl⟩ := eq_ok_some_of_not h
    exact ih (G := operand') hoperand
  | case4 | case8 => cases h
  | case5 lhs rhs hr hl =>
    cases h
    exact joins_pair (.inl rfl) hl hr
  | case6 lhs rhs hr hl =>
    obtain ⟨values, -, rfl⟩ := Option.map_eq_some_iff.mp (Except.ok.inj h)
    exact joins_widenEq hr values
  | case7 lhs rhs hr hl =>
    obtain ⟨values, -, rfl⟩ := Option.map_eq_some_iff.mp (Except.ok.inj h)
    exact joins_widenEq hl values
  | case9 lhs rhs hr hl =>
    cases h
    exact joins_pair (.inr rfl) hl hr
  | case10 lhs rhs hr hl =>
    obtain ⟨values, -, rfl⟩ := Option.map_eq_some_iff.mp (Except.ok.inj h)
    exact joins_widenMember hl values
  | case11 lhs rhs hr hl =>
    obtain ⟨values, -, rfl⟩ := Option.map_eq_some_iff.mp (Except.ok.inj h)
    exact joins_widenMembers hr values
  | case12 arguments hany =>
    obtain ⟨widened, hwidened, rfl⟩ := Option.map_eq_some_iff.mp (Except.ok.inj h)
    refine List.forall_mem_singleton.mpr (List.any_eq_false.mpr fun o ho => ?_)
    exact Bool.eq_false_iff.mp (isParentAccessor_widenArguments hwidened o ho)
  | case13 arguments hnone =>
    cases h
    exact List.forall_mem_singleton.mpr (Bool.eq_false_iff.mpr hnone)
  | case14 o hand hor hnot heq hmember hreferences =>
    cases h
    rw [conditions_eq_singleton hand hor hnot, List.forall_mem_singleton, joins,
      joinOperands_eq_nil heq hmember hreferences]
    rfl

/-- **A filter that joins with nothing is left as it is.** -/
theorem generalize_eq_self (h : ∀ o ∈ F.conditions, o.joins = false) :
    generalize c s F = .ok (some F) := by
  fun_induction generalize c s F with
  | case1 lhs rhs ihl ihr | case2 lhs rhs ihl ihr =>
    have hl := ihl fun o ho => h o (List.mem_append_left _ ho)
    have hr := ihr fun o ho => h o (List.mem_append_right _ ho)
    rw [hl, hr]
    rfl
  | case3 operand ih =>
    rw [ih h]
    rfl
  | case4 lhs rhs hr hl | case6 lhs rhs hr hl | case7 lhs rhs hr hl | case8 lhs rhs hr hl
  | case10 lhs rhs hr hl | case11 lhs rhs hr hl =>
    have hjoins := List.forall_mem_singleton.mp h
    simp [joins, joinOperands, hl, hr] at hjoins
  | case5 | case9 | case13 | case14 => rfl
  | case12 arguments hany =>
    have hjoins := List.forall_mem_singleton.mp h
    exact absurd hany (Bool.eq_false_iff.mp hjoins)

/-- The specification of a fetch is left as it is, window and ordering included, where its filter
joins with nothing and has no NaN. One with a NaN is taken for a widened filter, since it differs from
itself. -/
theorem yields_compile_self {fetcher : Fetcher} {id : SourceId} {rest : List Operation}
    {σ τ : Session} {spec : FetchSpec} (hstages : (compileStages fetcher rest s).Yields σ spec τ)
    (hfilter : spec.filter = some F) (hjoins : ∀ o ∈ F.conditions, o.joins = false) :
    (compile fetcher (.source id :: rest) s).Yields σ
      (if F.hasNaN then .filtered F else spec) τ := by
  have hfinish := yields_finish_of_generalize (s := s) (σ := τ) hfilter (generalize_eq_self hjoins)
  rw [Option.elim_some, same_self] at hfinish
  refine yields_bind.mpr ⟨spec, τ, hstages, ?_⟩
  cases hnumbers : F.hasNaN <;> rwa [hnumbers] at hfinish

/-- **Widening leaves a filter that joins with nothing as it is, and what it gives joins with
nothing.** So widening again, within whatever value and in whatever session, changes nothing, and the
fetch for a filter without joins keeps its window and its ordering, unless there is a NaN in it. -/
theorem generalize_settles (c : Context) (s : Scope) (F : Operation) :
    ((∀ o ∈ F.conditions, o.joins = false) → generalize c s F = .ok (some F)) ∧
    (∀ G, generalize c s F = .ok (some G) → ∀ c' s', generalize c' s' G = .ok (some G)) ∧
    ((∀ o ∈ F.conditions, o.joins = false) →
      ∀ (fetcher : Fetcher) (id : SourceId) (rest : List Operation) (σ τ : Session)
        (spec : FetchSpec), (compileStages fetcher rest s).Yields σ spec τ →
          spec.filter = some F → (compile fetcher (.source id :: rest) s).Yields σ
            (if F.hasNaN then .filtered F else spec) τ) :=
  ⟨generalize_eq_self, fun _ hG _ _ => generalize_eq_self (joins_of_generalize hG),
    fun hjoins _ _ _ _ _ _ hstages hfilter => yields_compile_self hstages hfilter hjoins⟩

/-- A join with two documents is widened once. A filter that joins with neither is fetched by within
its window. -/
theorem generalize_settles_window : ∃ (c : Context) (s : Scope) (F G : Operation),
    F = .binary .and (.binary .eq (.attr "k") (.accessor [.parent, .attr "k"]))
      (.not (.binary .member (.attr "n") (.accessor [.parent, .attr "l"]))) ∧
    G = .binary .and (.binary .member (.attr "k") (.literal (.array [.int 1, .int 2])))
      (.not (.literal (.bool false))) ∧
    generalize c s F = .ok (some G) ∧ generalize .empty .root G = .ok (some G) ∧
    ∀ (fetcher : Fetcher) (σ : Session),
      (compile fetcher [.source 1, .filter (.attr "n"), .subscript ⟨0, 2, false⟩] s).Yields σ
        ⟨some (.attr "n"), some 0, some 2, []⟩ σ := by
  let c : Context := ⟨[(1, ⟨[.object [("k", .int 1)], .object [("k", .int 2)]], 0⟩)], []⟩
  let s : Scope := (Scope.root.ofSource 1 (.array []) 0).element (.object [("k", .int 1)])
  let F : Operation := .binary .and (.binary .eq (.attr "k") (.accessor [.parent, .attr "k"]))
    (.not (.binary .member (.attr "n") (.accessor [.parent, .attr "l"])))
  have hF : generalize c s F = .ok (some _) := rfl
  refine ⟨c, s, F, _, rfl, rfl, hF, (generalize_settles c s F).2.1 _ hF .empty .root,
    fun fetcher σ => ?_⟩
  exact (generalize_settles c s (.attr "n")).2.2 (List.forall_mem_singleton.mpr rfl) fetcher 1
    _ σ σ _ (yields_pure.mpr ⟨rfl, rfl⟩) rfl

/-- A comparison with a NaN joins with nothing and is left as it is. All the same the fetch is by the
filter alone, without the window that the stages fold into. -/
theorem generalize_settles_nan : ∃ F : Operation,
    Query.operation ⟨.pipe (.pipe .everything (.constraint (some (.binary .equals (.attr "k")
      (.float .nan))))) (.subscript (.range (.integer 0) (.integer 2) false)), [], none⟩ =
        .ok (.pipe [.source 1, .filter F, .subscript ⟨0, 2, false⟩] none) ∧
    (∀ o ∈ F.conditions, o.joins = false) ∧
    (∀ (c : Context) (s : Scope), generalize c s F = .ok (some F)) ∧
    ∀ (fetcher : Fetcher) (s : Scope) (σ : Session),
      (compileStages fetcher [.filter F, .subscript ⟨0, 2, false⟩] s).Yields σ
        ⟨some F, some 0, some 2, []⟩ σ ∧
      (compile fetcher [.source 1, .filter F, .subscript ⟨0, 2, false⟩] s).Yields σ
        ⟨some F, none, none, []⟩ σ := by
  let F : Operation := .binary .eq (.attr "k") (.literal (.float .nan))
  have hjoins : ∀ o ∈ F.conditions, o.joins = false := List.forall_mem_singleton.mpr rfl
  refine ⟨F, by with_unfolding_all rfl, hjoins, fun _ _ => generalize_eq_self hjoins,
    fun fetcher s σ => ?_⟩
  have hstages : (compileStages fetcher [.filter F, .subscript ⟨0, 2, false⟩] s).Yields σ
      ⟨some F, some 0, some 2, []⟩ σ := yields_pure.mpr ⟨rfl, rfl⟩
  exact ⟨hstages, yields_compile_self hstages rfl hjoins⟩

/-! ## What ends a widening -/

/-- The values that a condition joins with can be had. -/
def Known (c : Context) (s : Scope) (o : Operation) : Prop :=
  ∀ p ∈ o.joinOperands, p.isParentAccessor = true → (joinValues c s p).isSome = true

instance decidableKnown (c : Context) (s : Scope) (o : Operation) : Decidable (Known c s o) :=
  inferInstanceAs (Decidable (∀ p ∈ o.joinOperands, p.isParentAccessor = true → _ = true))

/-- What a widening does not get over. -/
inductive Obstacle where
  /-- A comparison of the enclosing value with itself. -/
  | bothSides
  /-- A join with values that cannot be had. -/
  | unknownSiblings

/-- What there is about a condition that a widening does not get over. -/
def obstacle? (c : Context) (s : Scope) (o : Operation) : Option Obstacle :=
  if o.joinsOnBothSides then some .bothSides
  else if Known c s o then none
  else some .unknownSiblings

/-- Nothing but whether values can be had makes a difference. -/
theorem obstacle?_congr {c' : Context} {s' : Scope}
    (h : ∀ o, (joinValues c s o).isSome = (joinValues c' s' o).isSome) :
    obstacle? c s = obstacle? c' s' := by
  funext o
  have hknown : Known c s o ↔ Known c' s' o := by
    simp only [Known, h]
  unfold obstacle?
  simp only [hknown]

/-- What a widening comes to, given what it does not get over. -/
inductive ComesTo : Option Obstacle → Except ExecError (Option Operation) → Prop where
  | widened (G : Operation) : ComesTo none (.ok (some G))
  | refused : ComesTo (some .bothSides) (.error .joinOnBothSides)
  | givenUp : ComesTo (some .unknownSiblings) (.ok none)

/-- A connective goes on to its second filter only where it gets over the first one. -/
theorem ComesTo.pair {a b : Option Obstacle} {x y : Except ExecError (Option Operation)}
    (hx : ComesTo a x) (hy : ComesTo b y) (op : BinaryOp) :
    ComesTo (a.or b) (do
      match ← x with
      | none => return none
      | some lhs => return (← y).map (.binary op lhs)) := by
  cases hx with
  | refused => exact .refused
  | givenUp => exact .givenUp
  | widened lhs =>
    cases hy with
    | refused => exact .refused
    | givenUp => exact .givenUp
    | widened rhs => exact .widened (.binary op lhs rhs)

theorem ComesTo.not {a : Option Obstacle} {x : Except ExecError (Option Operation)}
    (hx : ComesTo a x) : ComesTo a (do return (← x).map Operation.not) := by
  cases hx with
  | refused => exact .refused
  | givenUp => exact .givenUp
  | widened operand => exact .widened (.not operand)

/-- A join is widened to what is found of it. -/
theorem comesTo_found {α : Type} {o : Operation} {found : Option α}
    (hsides : o.joinsOnBothSides = false) (hknown : Known c s o ↔ found.isSome = true)
    (widen : α → Operation) : ComesTo (obstacle? c s o) (.ok (found.map widen)) := by
  rw [obstacle?, hsides, if_neg Bool.false_ne_true]
  cases found with
  | none =>
    rw [if_neg fun h => nomatch hknown.mp h]
    exact .givenUp
  | some a =>
    rw [if_pos (hknown.mpr rfl)]
    exact .widened (widen a)

theorem comesTo_self {o : Operation} (hsides : o.joinsOnBothSides = false)
    (hjoins : o.joins = false) : ComesTo (obstacle? c s o) (.ok (some o)) := by
  have hknown : Known c s o := fun p hp hparent =>
    absurd hparent (List.any_eq_false.mp hjoins p hp)
  rw [obstacle?, hsides, if_neg Bool.false_ne_true, if_pos hknown]
  exact .widened o

theorem known_pair {op : BinaryOp} (hop : op = .eq ∨ op = .member) {lhs rhs : Operation} :
    Known c s (.binary op lhs rhs) ↔
      (lhs.isParentAccessor = true → (joinValues c s lhs).isSome = true) ∧
        (rhs.isParentAccessor = true → (joinValues c s rhs).isSome = true) := by
  rcases hop with rfl | rfl <;> simp [Known, joinOperands]

theorem widenArguments_isSome_iff_known {arguments : List Operation} :
    (widenArguments c s arguments).isSome = true ↔ Known c s (.call .references arguments) := by
  induction arguments with
  | nil => simp [widenArguments, Known, joinOperands]
  | cons argument arguments ih =>
    have hcons : Known c s (.call .references (argument :: arguments)) ↔
        (argument.isParentAccessor = true → (joinValues c s argument).isSome = true) ∧
          Known c s (.call .references arguments) := List.forall_mem_cons
    rw [hcons, ← ih, widenArguments]
    cases argument.isParentAccessor with
    | true => cases joinValues c s argument <;> cases widenArguments c s arguments <;> simp
    | false => cases widenArguments c s arguments <;> simp

/-- **The first condition that a widening does not get over decides what it comes to.** -/
theorem comesTo_generalize (c : Context) (s : Scope) (F : Operation) :
    ComesTo (F.conditions.findSome? (obstacle? c s)) (generalize c s F) := by
  have hone : ∀ {o : Operation} {x}, ComesTo (obstacle? c s o) x →
      ComesTo ([o].findSome? (obstacle? c s)) x := by
    intro o x h
    rwa [List.findSome?_singleton]
  fun_induction generalize c s F with
  | case1 lhs rhs ihl ihr | case2 lhs rhs ihl ihr =>
    rw [conditions, List.findSome?_append]
    exact ihl.pair ihr _
  | case3 operand ih => exact ih.not
  | case4 lhs rhs hr hl | case8 lhs rhs hr hl =>
    refine hone ?_
    rw [obstacle?, joinsOnBothSides, hl, hr]
    exact .refused
  | case5 lhs rhs hr hl | case9 lhs rhs hr hl =>
    refine hone (comesTo_self ?_ ?_)
    · rw [joinsOnBothSides, hl, hr]
      rfl
    · simp [joins, joinOperands, hl, hr]
  | case6 lhs rhs hr hl | case7 lhs rhs hr hl =>
    refine hone (comesTo_found ?_ ?_ _)
    · rw [joinsOnBothSides, hl, hr]
      rfl
    · simp [known_pair (.inl rfl), hl, hr]
  | case10 lhs rhs hr hl | case11 lhs rhs hr hl =>
    refine hone (comesTo_found ?_ ?_ _)
    · rw [joinsOnBothSides, hl, hr]
      rfl
    · simp [known_pair (.inr rfl), hl, hr]
  | case12 arguments hany => exact hone (comesTo_found rfl widenArguments_isSome_iff_known.symm _)
  | case13 arguments hnone =>
    exact hone (comesTo_self rfl (Bool.eq_false_iff.mpr hnone))
  | case14 o hand hor hnot heq hmember hreferences =>
    rw [conditions_eq_singleton hand hor hnot]
    refine hone (comesTo_self ?_ ?_)
    · rw [joinsOnBothSides] <;> assumption
    · rw [joins, joinOperands_eq_nil heq hmember hreferences]
      rfl

theorem obstacle?_eq_none {o : Operation} :
    obstacle? c s o = none ↔ o.joinsOnBothSides = false ∧ Known c s o := by
  unfold obstacle?
  cases o.joinsOnBothSides <;> by_cases hknown : Known c s o <;> simp [hknown]

theorem obstacle?_eq_bothSides {o : Operation} :
    obstacle? c s o = some .bothSides ↔ o.joinsOnBothSides = true := by
  unfold obstacle?
  cases o.joinsOnBothSides <;> by_cases hknown : Known c s o <;> simp [hknown]

theorem ComesTo.eq_error_iff {a : Option Obstacle} {x : Except ExecError (Option Operation)}
    (h : ComesTo a x) {e : ExecError} :
    x = .error e ↔ a = some .bothSides ∧ e = .joinOnBothSides := by
  cases h <;> simp [eq_comm]

/-- A widening fails in one way only. -/
theorem generalize_error {e : ExecError} (h : generalize c s F = .error e) :
    e = .joinOnBothSides :=
  ((comesTo_generalize c s F).eq_error_iff.mp h).2

/-- Which comparison of the enclosing value with itself is found. -/
theorem findSome?_eq_bothSides {os : List Operation} :
    os.findSome? (obstacle? c s) = some .bothSides ↔
      ∃ before o after, os = before ++ o :: after ∧ o.joinsOnBothSides = true ∧
        ∀ p ∈ before, p.joinsOnBothSides = false ∧ Known c s p := by
  simp only [List.findSome?_eq_some_iff, obstacle?_eq_bothSides, obstacle?_eq_none]

/-- **A comparison of the enclosing value with itself is refused unless a join in front of it gives
the filter up.** Where the values of all other joins can be had, a filter is refused exactly when it
has such a comparison. A filter that has one is never widened: what is not refused is given up. -/
theorem generalize_refuses (c : Context) (s : Scope) (F : Operation) :
    (generalize c s F = .error .joinOnBothSides ↔
      ∃ before o after, F.conditions = before ++ o :: after ∧ o.joinsOnBothSides = true ∧
        ∀ p ∈ before, p.joinsOnBothSides = false ∧ Known c s p) ∧
    ((∀ p ∈ F.conditions, p.joinsOnBothSides = false → Known c s p) →
      (generalize c s F = .error .joinOnBothSides ↔
        ∃ o ∈ F.conditions, o.joinsOnBothSides = true)) ∧
    ((∃ o ∈ F.conditions, o.joinsOnBothSides = true) →
      generalize c s F = .error .joinOnBothSides ∨ generalize c s F = .ok none) ∧
    ∀ e, generalize c s F = .error e → e = .joinOnBothSides := by
  have hcomes := comesTo_generalize c s F
  have herror : generalize c s F = .error .joinOnBothSides ↔
      F.conditions.findSome? (obstacle? c s) = some .bothSides := by
    rw [hcomes.eq_error_iff, and_iff_left rfl]
  have hobstacle : (∃ o ∈ F.conditions, o.joinsOnBothSides = true) →
      ∃ a, F.conditions.findSome? (obstacle? c s) = some a := by
    rintro ⟨o, ho, hsides⟩
    refine Option.isSome_iff_exists.mp (List.findSome?_isSome_iff.mpr ⟨o, ho, ?_⟩)
    rw [obstacle?_eq_bothSides.mpr hsides]
    rfl
  refine ⟨herror.trans findSome?_eq_bothSides, fun hknown => ?_, fun hsome => ?_,
    fun _ he => generalize_error he⟩
  · rw [herror]
    constructor
    · intro hfound
      obtain ⟨before, o, after, hsplit, hsides, -⟩ := findSome?_eq_bothSides.mp hfound
      exact ⟨o, hsplit ▸ List.mem_append_right before List.mem_cons_self, hsides⟩
    · intro hsome
      obtain ⟨a, ha⟩ := hobstacle hsome
      obtain ⟨o, ho, hfound⟩ := List.exists_of_findSome?_eq_some ha
      rw [ha, ← hfound, obstacle?_eq_bothSides]
      -- a condition in the way can only be such a comparison
      cases hsides : o.joinsOnBothSides with
      | true => rfl
      | false =>
        rw [obstacle?_eq_none.mpr ⟨hsides, hknown o ho hsides⟩] at hfound
        cases hfound
  · obtain ⟨a, ha⟩ := hobstacle hsome
    rw [ha] at hcomes
    generalize Join.generalize c s F = x at hcomes
    cases hcomes with
    | refused => exact .inl rfl
    | givenUp => exact .inr rfl

/-- Behind a join whose values can be had, a comparison of the enclosing value with itself is
found. -/
theorem generalize_refuses_behind : ∃ (c : Context) (s : Scope) (F : Operation),
    F = .binary .or (.binary .eq (.attr "x") (.accessor [.parent, .attr "k"]))
      (.not (.binary .member (.accessor [.parent]) (.accessor [.parent, .attr "l"]))) ∧
    generalize c s F = .error .joinOnBothSides := by
  let c : Context := ⟨[(1, ⟨[.object [("k", .int 1)]], 0⟩)], []⟩
  let s : Scope := (Scope.root.ofSource 1 (.array []) 0).element (.object [("k", .int 1)])
  refine ⟨c, s, _, rfl, ((generalize_refuses c s _).2.1 ?_).mpr ?_⟩
  · decide
  · exact ⟨_, List.mem_cons_of_mem _ List.mem_cons_self, rfl⟩

/-- Within a value that was computed from a document, the same comparison is refused or overlooked
by the side of the `and` that it stands on. -/
theorem generalize_overlooks : ∃ (c : Context) (s : Scope) (join sides : Operation),
    sides = .binary .eq (.accessor [.parent, .attr "k"]) (.accessor [.parent, .attr "l"]) ∧
    sides.joinsOnBothSides = true ∧ sides ∈ (Operation.binary .and join sides).conditions ∧
    generalize c s (.binary .and sides join) = .error .joinOnBothSides ∧
    generalize c s (.binary .and join sides) = .ok none := by
  let c : Context := ⟨[(1, ⟨[.object [("_id", .string "a")]], 0⟩)], []⟩
  let s : Scope := ((Scope.root.ofSource 1 (.array []) 0).element
    (.object [("_id", .string "a")])).withValue (.object [("k", .int 1), ("l", .int 1)])
  exact ⟨c, s, .binary .eq (.attr "x") (.accessor [.parent, .attr "k"]), _, rfl, rfl,
    List.mem_cons_of_mem _ List.mem_cons_self, rfl, rfl⟩

end Join
end DocQuery
