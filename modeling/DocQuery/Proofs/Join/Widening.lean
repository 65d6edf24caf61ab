import DocQuery.Proofs.Engine.Errors
import DocQuery.Proofs.Join.Filter

/-!
# Widened filters keep what the filter keeps

A join filter and what it is widened to, at one candidate: where the filter has the truth value that
is asked for, with one of the siblings around the candidate, the widened filter has it too, whatever
is around the candidate then. This is said once for all that filters are read by (`Reading`,
`Reading.of_widens`): for evaluation, and for the selectors that a store makes of them.

There is one exception. A membership *in* the candidate's value is asked for every sibling, and one
that the filter leaves undecided may be refused for another: the widened filter then fails with a
type error, and never with another one.

**Generalizing loses no document** (`generalize_keeps`): for filters without negated comparisons this
goes for all siblings and all candidates.
-/

set_option autoImplicit false

namespace DocQuery

namespace Operator

theorem membership_null_left (b : Value) : membership .null b = .ok .null := rfl

theorem membership_null_right (a : Value) : membership a .null = .ok .null := by
  cases a <;> rfl

/-- Membership among values read from JSON. -/
theorem membership_items {a : Value} {items : List Value} (ha : a ≠ .null)
    (h : ∀ v ∈ items, v.IsRead) :
    membership a (.array items) = .ok (.bool (items.any a.looseEq)) := by
  unfold membership
  rw [Value.isNull_eq_false ha]
  show (inItems a items).map Value.bool = _
  rw [inItems_eq_any fun v hv => (h v hv).ne_path]
  rfl

end Operator

namespace Join

open Operation Operator Correlated

/-! ## Readings of filters -/

/-- A way to read filters at a value `d`: `J P o` says that `o` is read as something with `P`. The
connectives are read as those of three-valued logic, and a free operation with a truth value as that
value. One that is refused for a type may be read as anything. -/
structure Reading (outer d : Value) (J : (Value → Prop) → Operation → Prop) : Prop where
  mono : ∀ {P Q : Value → Prop} {o : Operation}, J P o → (∀ w, P w → Q w) → J Q o
  and : ∀ {P Q R : Value → Prop} {lhs rhs : Operation}, J P lhs → J Q rhs →
    (∀ v w, P v → Q w → R (conjunction v w)) → J R (.binary .and lhs rhs)
  or : ∀ {P Q R : Value → Prop} {lhs rhs : Operation}, J P lhs → J Q rhs →
    (∀ v w, P v → Q w → R (disjunction v w)) → J R (.binary .or lhs rhs)
  not : ∀ {P Q : Value → Prop} {o : Operation}, J P o → (∀ w, P w → Q (negation w)) → J Q (.not o)
  value : ∀ {o : Operation} {v : Value}, o.isFree = true → eval outer o d = .ok v →
    J (fun w => ∀ b, v = .bool b → w = .bool b) o
  refused : ∀ {o : Operation} {e : ExecError}, o.isFree = true → eval outer o d = .error e →
    e.isOfType = true → J (fun _ => True) o

/-- A value with `P`, or a type error. -/
def Settles (P : Value → Prop) (e : Except ExecError Value) : Prop :=
  (∃ v, e = .ok v ∧ P v) ∨ ∃ err, e = .error err ∧ err.isOfType = true

/-- Two results one after the other, and a value made of both. -/
theorem Settles.bind₂ {P Q R : Value → Prop} {x y : Except ExecError Value}
    {f : Value → Value → Value} (hx : Settles P x) (hy : Settles Q y)
    (h : ∀ a b, P a → Q b → R (f a b)) :
    Settles R (do
      let a ← x
      let b ← y
      .ok (f a b)) := by
  rcases hx with ⟨a, rfl, ha⟩ | ⟨e, rfl, he⟩
  · rcases hy with ⟨b, rfl, hb⟩ | ⟨e, rfl, he⟩
    · exact .inl ⟨f a b, rfl, h a b ha hb⟩
    · exact .inr ⟨e, rfl, he⟩
  · exact .inr ⟨e, rfl, he⟩

/-- Evaluation is a reading, with type errors for what is refused. -/
theorem reading_eval (outer d : Value) : Reading outer d fun P o => Settles P (eval outer o d) where
  mono h hPQ := h.imp_left fun ⟨v, hv, hP⟩ => ⟨v, hv, hPQ v hP⟩
  and hl hr h := by
    rw [eval]
    exact hl.bind₂ hr h
  or hl hr h := by
    rw [eval]
    exact hl.bind₂ hr h
  not {P Q o} ho h := by
    rw [eval]
    rcases ho with ⟨v, hv, hP⟩ | ⟨e, he, htype⟩
    · rw [hv]
      exact .inl ⟨negation v, rfl, h v hP⟩
    · rw [he]
      exact .inr ⟨e, rfl, htype⟩
  value _ hv := .inl ⟨_, hv, fun _ hb => hb⟩
  refused _ he htype := .inr ⟨_, he, htype⟩

theorem conjunction_keeps (sign : Bool) (a a' b b' : Value) (ha : a = .bool sign → a' = .bool sign)
    (hb : b = .bool sign → b' = .bool sign) (h : conjunction a b = .bool sign) :
    conjunction a' b' = .bool sign := by
  cases sign with
  | true => exact conjunction_eq_true.mpr ((conjunction_eq_true.mp h).imp ha hb)
  | false => exact conjunction_eq_false.mpr ((conjunction_eq_false.mp h).imp ha hb)

theorem disjunction_keeps (sign : Bool) (a a' b b' : Value) (ha : a = .bool sign → a' = .bool sign)
    (hb : b = .bool sign → b' = .bool sign) (h : disjunction a b = .bool sign) :
    disjunction a' b' = .bool sign := by
  cases sign with
  | true => exact disjunction_eq_true.mpr ((disjunction_eq_true.mp h).imp ha hb)
  | false => exact disjunction_eq_false.mpr ((disjunction_eq_false.mp h).imp ha hb)

/-! ## Values of the siblings -/

/-- The values of an accessor in the siblings, as far as a comparison with the value `q` that it has
in one of them is concerned. -/
structure Covers (sign : Bool) (values : List Value) (q : Value) : Prop where
  mem : q ≠ .null → q ∈ values
  present : ∀ v ∈ values, v ≠ .null
  read : ∀ v ∈ values, v.IsRead
  steady : sign = false → q ≠ .null → ∀ v ∈ values, v = q

variable {siblings : List Value} {sign : Bool} {p : Value}

theorem mem_valuesAt {names : List String} {v : Value} :
    v ∈ valuesAt siblings names ↔ v ≠ .null ∧ ∃ w ∈ siblings, w.follow names = v := by
  unfold valuesAt
  rw [List.mem_filter, List.mem_map, and_comm]
  refine and_congr_left fun _ => ?_
  cases v <;> simp [Value.isNull]

theorem covers_valuesAt (hread : ∀ v ∈ siblings, v.IsRead) (hp : p ∈ siblings)
    {names : List String} (hsteady : sign = false → Agree siblings names) :
    Covers sign (valuesAt siblings names) (p.follow names) where
  mem hq := mem_valuesAt.mpr ⟨hq, p, hp, rfl⟩
  present v hv := (mem_valuesAt.mp hv).1
  read v hv := by
    obtain ⟨-, w, hw, rfl⟩ := mem_valuesAt.mp hv
    exact (hread w hw).follow names
  steady hsign hq v hv := by
    obtain ⟨hne, w, hw, rfl⟩ := mem_valuesAt.mp hv
    exact hsteady hsign w hw p hp hne hq

variable {values : List Value} {q a v outer d : Value} {c : Operation}

/-! ## Equality -/

theorem truth_equals_eq_bool {b : Bool} (h : truth (a.equals q) = .bool b) :
    a ≠ .null ∧ q ≠ .null ∧ a.looseEq q = b := by
  unfold Value.equals at h
  split at h
  · cases h
  · next hne =>
    rw [Bool.or_eq_true, not_or] at hne
    refine ⟨?_, ?_, by simpa [truth] using h⟩
    · rintro rfl
      exact hne.1 rfl
    · rintro rfl
      exact hne.2 rfl

/-- A value is loosely equal to some of the values if it is to the one at hand, and to none if it is
not to that one and all are the same. -/
theorem any_looseEq (hcovers : Covers sign values q) (hq : q ≠ .null) (h : a.looseEq q = sign) :
    values.any a.looseEq = sign := by
  cases sign with
  | true => exact List.any_eq_true.mpr ⟨q, hcovers.mem hq, h⟩
  | false =>
    rw [List.any_eq_false]
    intro v hv
    rw [hcovers.steady rfl hq v hv, h]
    decide

theorem eval_widenEq (hcovers : Covers sign values q) (ha : eval outer c d = .ok a) :
    ∃ w, eval outer (widenEq c values) d = .ok w ∧
      (truth (a.equals q) = .bool sign → w = .bool sign) := by
  match values, hcovers with
  | [], hcovers =>
    refine ⟨.bool false, rfl, fun h => ?_⟩
    obtain ⟨-, hq, -⟩ := truth_equals_eq_bool h
    exact absurd (hcovers.mem hq) List.not_mem_nil
  | [v], hcovers =>
    refine ⟨truth (a.equals v), ?_, fun h => ?_⟩
    · rw [widenEq, eval, ha]
      rfl
    · obtain ⟨-, hq, -⟩ := truth_equals_eq_bool h
      rwa [← List.mem_singleton.mp (hcovers.mem hq)]
  | v₁ :: v₂ :: vs, hcovers =>
    have heval : eval outer (widenEq c (v₁ :: v₂ :: vs)) d =
        membership a (.array (v₁ :: v₂ :: vs)) := by
      have hwide : widenEq c (v₁ :: v₂ :: vs) =
          .binary .member c (.literal (.array (v₁ :: v₂ :: vs))) := rfl
      rw [hwide, eval, ha]
      rfl
    rw [heval]
    by_cases hnull : a = .null
    · subst hnull
      exact ⟨.null, membership_null_left _, fun h => absurd rfl (truth_equals_eq_bool h).1⟩
    · refine ⟨_, membership_items hnull hcovers.read, fun h => ?_⟩
      obtain ⟨-, hq, heq⟩ := truth_equals_eq_bool h
      rw [any_looseEq hcovers hq heq]

/-! ## Membership in the enclosing value -/

theorem membership_eq_bool {b : Bool} (hread : q.IsRead) (h : membership a q = .ok (.bool b)) :
    a ≠ .null ∧ ∃ items, q = .array items ∧ items.any a.looseEq = b := by
  have ha : a ≠ .null := by
    rintro rfl
    cases h
  refine ⟨ha, ?_⟩
  cases q with
  | array items =>
    rw [membership_items ha fun v hv => hread.of_mem_items hv] at h
    cases h
    exact ⟨items, rfl, rfl⟩
  | path pattern => exact absurd rfl (hread.ne_path pattern)
  | null =>
    rw [membership_null_right] at h
    cases h
  | _ => cases a <;> first | exact absurd rfl ha | cases h

theorem eval_widenMember (hcovers : Covers sign values q) (hread : q.IsRead)
    (ha : eval outer c d = .ok a) :
    ∃ w, eval outer (widenMember c values) d = .ok w ∧
      (membership a q = .ok (.bool sign) → w = .bool sign) := by
  have hany : membership a q = .ok (.bool sign) →
      a ≠ .null ∧ (values.flatMap spread).any a.looseEq = sign := by
    intro h
    obtain ⟨hnull, items, rfl, hitems⟩ := membership_eq_bool hread h
    refine ⟨hnull, ?_⟩
    have hne : Value.array items ≠ .null := nofun
    cases sign with
    | true =>
      obtain ⟨v, hv, heq⟩ := List.any_eq_true.mp hitems
      exact List.any_eq_true.mpr ⟨v, List.mem_flatMap.mpr ⟨_, hcovers.mem hne, hv⟩, heq⟩
    | false =>
      rw [List.any_eq_false] at hitems ⊢
      intro v hv
      obtain ⟨w, hw, hv⟩ := List.mem_flatMap.mp hv
      rw [hcovers.steady rfl hne w hw] at hv
      exact hitems v hv
  unfold widenMember
  dsimp only
  split
  · next hempty =>
    refine ⟨.bool false, rfl, fun h => ?_⟩
    rw [List.isEmpty_iff.mp hempty] at hany
    rw [← (hany h).2]
    rfl
  · have heval : eval outer (.binary .member c (.literal (.array (values.flatMap spread)))) d =
        membership a (.array (values.flatMap spread)) := by
      rw [eval, ha]
      rfl
    rw [heval]
    by_cases hnull : a = .null
    · subst hnull
      exact ⟨.null, membership_null_left _, fun h => absurd rfl (hany h).1⟩
    · refine ⟨_, membership_items hnull fun v hv => ?_, fun h => ?_⟩
      · obtain ⟨w, hw, hv⟩ := List.mem_flatMap.mp hv
        exact (hcovers.read w hw).of_mem_spread hv
      · rw [(hany h).2]

/-! ## Membership of the enclosing value -/

/-- One more of the memberships that are tried one after the other. -/
def orMember (c o : Operation) (v : Value) : Operation :=
  .binary .or o (.binary .member (.literal v) c)

section

variable {J : (Value → Prop) → Operation → Prop} (hJ : Reading outer d J)

include hJ

theorem reads_member_literal (hfree : c.isFree = true) (ha : eval outer c d = .ok a) (v : Value) :
    J (fun w => ∀ b, membership v a = .ok (.bool b) → w = .bool b)
      (.binary .member (.literal v) c) := by
  have hmember : (Operation.binary .member (.literal v) c).isFree = true :=
    Bool.and_eq_true_iff.mpr ⟨rfl, hfree⟩
  have heval : eval outer (.binary .member (.literal v) c) d = membership v a := by
    rw [eval, eval, ha]
    rfl
  cases h : membership v a with
  | ok x =>
    refine hJ.mono (hJ.value hmember (heval.trans h)) fun w hw b hb => hw b ?_
    cases hb
    rfl
  | error e =>
    refine hJ.mono (hJ.refused hmember (heval.trans h) (isOfType_of_membership h)) ?_
    intro w _ b hb
    cases hb

/-- What the memberships tried so far settle, the others settle too if they leave it alone. -/
theorem reads_chain {P Q : Value → Prop} (hstep : ∀ x y, P x → Q y → P (disjunction x y))
    {values : List Value} (hvalues : ∀ v ∈ values, J Q (.binary .member (.literal v) c))
    {o : Operation} (h : J P o) : J P (values.foldl (orMember c) o) := by
  induction values generalizing o with
  | nil => exact h
  | cons v values ih =>
    refine ih (fun w hw => hvalues w (List.mem_cons_of_mem v hw)) ?_
    exact hJ.or h (hvalues v List.mem_cons_self) hstep

theorem reads_widenMembers (hfree : c.isFree = true) (ha : eval outer c d = .ok a)
    (hcovers : Covers sign values q) :
    J (fun w => membership q a = .ok (.bool sign) → w = .bool sign) (widenMembers c values) := by
  have hmember := reads_member_literal hJ hfree ha
  have hany : ∀ v, J (fun _ => True) (.binary .member (.literal v) c) :=
    fun v => hJ.mono (hmember v) fun _ _ => trivial
  have hquery : membership q a = .ok (.bool sign) → q ≠ .null := by
    intro h hnull
    rw [hnull] at h
    cases h
  cases values with
  | nil =>
    -- no sibling has a value there, so the one at hand has none
    refine hJ.mono (hJ.value rfl rfl) fun w _ h => ?_
    exact absurd (hcovers.mem (hquery h)) List.not_mem_nil
  | cons v values =>
    show J _ (values.foldl (orMember c) (.binary .member (.literal v) c))
    by_cases h : membership q a = .ok (.bool sign)
    · refine hJ.mono (P := (· = .bool sign)) ?_ fun w hw _ => hw
      cases sign with
      | true =>
        -- `true` once one of them is
        have hrest : ∀ {o : Operation}, J (· = .bool true) o → ∀ values : List Value,
            J (· = .bool true) (values.foldl (orMember c) o) := fun ho values =>
          reads_chain hJ (fun _ _ hx _ => disjunction_eq_true.mpr (.inl hx)) (fun w _ => hany w) ho
        rcases List.mem_cons.mp (hcovers.mem (hquery h)) with rfl | hmem
        · exact hrest (hJ.mono (hmember q) fun w hw => hw true h) values
        · obtain ⟨before, after, rfl⟩ := List.append_of_mem hmem
          rw [List.foldl_append, List.foldl_cons]
          have hbefore : J (fun _ => True)
              (before.foldl (orMember c) (.binary .member (.literal v) c)) :=
            reads_chain hJ (fun _ _ _ _ => trivial) (fun w _ => hany w) (hany v)
          refine hrest (hJ.or hbefore (hmember q) fun x y _ hy => ?_) after
          exact disjunction_eq_true.mpr (.inr (hy true h))
      | false =>
        -- `false` as long as each of them is, and all ask for the same value
        have hfalse : ∀ w ∈ v :: values, J (· = .bool false) (.binary .member (.literal w) c) := by
          intro w hw
          rw [hcovers.steady rfl (hquery h) w hw]
          exact hJ.mono (hmember q) fun x hx => hx false h
        exact reads_chain hJ (fun _ _ hx hy => disjunction_eq_false.mpr ⟨hx, hy⟩)
          (fun w hw => hfalse w (List.mem_cons_of_mem v hw)) (hfalse v List.mem_cons_self)
    · exact hJ.mono (reads_chain hJ (fun _ _ _ _ => trivial) (fun w _ => hany w) (hany v))
        fun w _ hw => absurd hw h

end

/-! ## `references()` -/

theorem evalAll_append (os os' : List Operation) :
    evalAll outer (os ++ os') d = (do
      let vs ← evalAll outer os d
      let ws ← evalAll outer os' d
      return vs ++ ws) := by
  induction os with
  | nil =>
    rw [List.nil_append, evalAll]
    exact (bind_pure _).symm
  | cons o os ih =>
    rw [List.cons_append, evalAll, evalAll, ih]
    cases eval outer o d with
    | error e => rfl
    | ok v =>
      cases evalAll outer os d with
      | error e => rfl
      | ok vs => cases evalAll outer os' d <;> rfl

theorem evalAll_literals (values : List Value) (outer d : Value) :
    evalAll outer (values.map .literal) d = .ok values := by
  induction values with
  | nil => rfl
  | cons v values ih =>
    rw [List.map_cons, evalAll, eval, ih]
    rfl

theorem mem_referenceIds {values : List Value} {id : Value} :
    id ∈ Builtin.referenceIds values ↔ ∃ v ∈ values, id ∈ spread v := by
  unfold Builtin.referenceIds
  rw [List.mem_flatMap]
  refine exists_congr fun v => and_congr_right fun _ => ?_
  cases v <;> rfl

theorem refersTo_mono {ids ids' : List Value}
    (h : ∀ name, Value.string name ∈ ids → Value.string name ∈ ids')
    (href : d.refersTo ids = true) : d.refersTo ids' = true := by
  unfold Value.refersTo at href ⊢
  obtain ⟨htruthy, hany⟩ := Bool.and_eq_true_iff.mp href
  obtain ⟨r, hr, hany⟩ := List.any_eq_true.mp hany
  obtain ⟨id, hid, heq⟩ := List.any_eq_true.mp hany
  have hstring : id = .string r.id := by
    cases id with
    | string name => simpa [Value.asString?] using heq
    | _ => simp [Value.asString?] at heq
  subst hstring
  rw [htruthy, Bool.true_and, List.any_eq_true]
  exact ⟨r, hr, List.any_eq_true.mpr ⟨_, h r.id hid, heq⟩⟩

theorem eval_outerOperand {o : Operation} {names : List String} (h : o.outerOperand? = some names)
    (p d : Value) : eval p o d = .ok (p.follow names) := by
  obtain ⟨name, steps, rfl, hnames⟩ := exists_of_outerOperand? h
  have houter : outerNames? (.parent :: .attr name :: steps) = some names := hnames
  rw [eval, houter]

/-- The values that an argument is replaced by include what it stands for, and are nothing else
where it is steady. -/
theorem evalAll_widenArgument {o : Operation} (hp : p ∈ siblings)
    (hjoin : (∃ names, o.outerOperand? = some names) ∨ o.isFree = true)
    (hv : eval p o d = .ok v) :
    ∃ widened, evalAll outer (widenArgument siblings o) d = .ok widened ∧ (v ≠ .null → v ∈ widened) ∧
      ((∀ names, o.outerOperand? = some names →
        ∀ p ∈ siblings, ∀ q ∈ siblings, p.follow names = q.follow names) → ∀ w ∈ widened, w = v) := by
  rcases hjoin with ⟨names, hnames⟩ | hfree
  · rw [eval_outerOperand hnames] at hv
    cases hv
    rw [widenArgument, hnames]
    refine ⟨_, evalAll_literals _ _ _, fun hv => mem_valuesAt.mpr ⟨hv, p, hp, rfl⟩, ?_⟩
    intro hsteady w hw
    obtain ⟨-, q, hq, rfl⟩ := mem_valuesAt.mp hw
    exact hsteady names rfl q hq p hp
  · rw [widenArgument, outerOperand?_of_isFree hfree]
    refine ⟨[v], ?_, fun _ => List.mem_singleton.mpr rfl, fun _ w hw => List.mem_singleton.mp hw⟩
    show evalAll outer [o] d = _
    rw [evalAll, eval_of_isFree outer p hfree, hv]
    rfl

/-- The ids that `references()` is asked for after widening: none is missing, and none is new where
the arguments are steady. -/
theorem evalAll_widened {arguments : List Operation} (hp : p ∈ siblings)
    (hjoin : ∀ o ∈ arguments, (∃ names, o.outerOperand? = some names) ∨ o.isFree = true)
    {values : List Value} (h : evalAll p arguments d = .ok values) :
    ∃ widened, evalAll outer (arguments.flatMap (widenArgument siblings)) d = .ok widened ∧
      (∀ v ∈ values, v ≠ .null → v ∈ widened) ∧
      (Steady siblings (.call .references arguments) → ∀ w ∈ widened, w ∈ values) := by
  induction arguments generalizing values with
  | nil =>
    cases h
    exact ⟨[], rfl, fun v hv => absurd hv List.not_mem_nil, fun _ w hw => hw⟩
  | cons o os ih =>
    obtain ⟨v, rest, hv, hrest, rfl⟩ := exists_of_evalAll h
    obtain ⟨ws, hws, hmore, hsame⟩ := @evalAll_widenArgument _ _ _ outer _ _ hp
      (hjoin o List.mem_cons_self) hv
    obtain ⟨widened, hwidened, hmore', hsame'⟩ :=
      ih (fun o ho => hjoin o (List.mem_cons_of_mem _ ho)) hrest
    refine ⟨ws ++ widened, ?_, fun w hw hne => ?_, fun hsteady w hw => ?_⟩
    · rw [List.flatMap_cons, evalAll_append, hws, hwidened]
      rfl
    · rcases List.mem_cons.mp hw with rfl | hw
      · exact List.mem_append_left _ (hmore hne)
      · exact List.mem_append_right _ (hmore' w hw hne)
    · rcases List.mem_append.mp hw with hw | hw
      · rw [hsame (hsteady o List.mem_cons_self) w hw]
        exact List.mem_cons_self
      · exact List.mem_cons_of_mem v
          (hsame' (fun o ho => hsteady o (List.mem_cons_of_mem _ ho)) w hw)

theorem eval_references (outer : Value) (arguments : List Operation) (d : Value) :
    eval outer (.call .references arguments) d = (do
      let values ← evalAll outer arguments d
      return .bool (d.refersTo (Builtin.referenceIds values))) := by
  rw [eval]
  rfl

theorem eval_widened_references {arguments : List Operation} (hp : p ∈ siblings)
    (hjoin : ∀ o ∈ arguments, (∃ names, o.outerOperand? = some names) ∨ o.isFree = true)
    (hsteady : sign = false → Steady siblings (.call .references arguments))
    (h : eval p (.call .references arguments) d = .ok v) :
    ∃ w, eval outer (.call .references (arguments.flatMap (widenArgument siblings))) d = .ok w ∧
      (v = .bool sign → w = .bool sign) := by
  obtain ⟨values, hvalues, rfl⟩ := exists_of_call h
  obtain ⟨widened, hwidened, hmore, hsame⟩ := @evalAll_widened _ _ outer _ _ hp hjoin _ hvalues
  refine ⟨.bool (d.refersTo (Builtin.referenceIds widened)), ?_, fun hsign => ?_⟩
  · rw [eval_references, hwidened]
    rfl
  · replace hsign : d.refersTo (Builtin.referenceIds values) = sign := Value.bool.inj hsign
    cases sign with
    | true =>
      refine congrArg Value.bool (refersTo_mono (fun name hname => ?_) hsign)
      obtain ⟨w, hw, hin⟩ := mem_referenceIds.mp hname
      refine mem_referenceIds.mpr ⟨w, hmore w hw ?_, hin⟩
      rintro rfl
      simp [spread] at hin
    | false =>
      -- a document that refers to one of the new ids would refer to one of the old ones
      refine congrArg Value.bool (Bool.eq_false_iff.mpr ?_)
      refine mt (refersTo_mono fun name hname => ?_) (Bool.eq_false_iff.mp hsign)
      obtain ⟨w, hw, hin⟩ := mem_referenceIds.mp hname
      exact mem_referenceIds.mpr ⟨w, hsame (hsteady rfl) w hw, hin⟩

/-! ## What a filter is widened to is free -/

theorem isFree_widenEq (h : c.isFree = true) (values : List Value) :
    (widenEq c values).isFree = true := by
  match values with
  | [] => rfl
  | [_] | _ :: _ :: _ => exact Bool.and_eq_true_iff.mpr ⟨h, rfl⟩

theorem isFree_widenMember (h : c.isFree = true) (values : List Value) :
    (widenMember c values).isFree = true := by
  unfold widenMember
  dsimp only
  split
  · rfl
  · exact Bool.and_eq_true_iff.mpr ⟨h, rfl⟩

theorem isFree_foldl_orMember (h : c.isFree = true) (values : List Value) {o : Operation}
    (ho : o.isFree = true) : (values.foldl (orMember c) o).isFree = true := by
  induction values generalizing o with
  | nil => exact ho
  | cons v values ih =>
    exact ih (Bool.and_eq_true_iff.mpr ⟨ho, Bool.and_eq_true_iff.mpr ⟨rfl, h⟩⟩)

theorem isFree_widenMembers (h : c.isFree = true) (values : List Value) :
    (widenMembers c values).isFree = true := by
  cases values with
  | nil => rfl
  | cons v values =>
    exact isFree_foldl_orMember h values (Bool.and_eq_true_iff.mpr ⟨rfl, h⟩)

theorem allWithin_of_forall {paths : List PathStep → Bool} {functions : Function → Bool}
    {os : List Operation} (h : ∀ o ∈ os, o.within paths functions = true) :
    allWithin paths functions os = true := by
  induction os with
  | nil => rfl
  | cons o os ih =>
    exact Bool.and_eq_true_iff.mpr ⟨h o List.mem_cons_self,
      ih fun p hp => h p (List.mem_cons_of_mem o hp)⟩

theorem isFree_of_widens {F G : Operation} (h : Widens siblings sign F G) : G.isFree = true := by
  induction h with
  | and _ _ left right | or _ _ left right => exact Bool.and_eq_true_iff.mpr ⟨left, right⟩
  | not _ operand => exact operand
  | free hfree => exact hfree
  | eq hfree _ _ | outerEq hfree _ _ => exact isFree_widenEq hfree _
  | member hfree _ _ => exact isFree_widenMember hfree _
  | outerMember hfree _ _ => exact isFree_widenMembers hfree _
  | references hjoin _ =>
    refine allWithin_of_forall fun o ho => ?_
    obtain ⟨argument, hargument, ho⟩ := List.mem_flatMap.mp ho
    rcases hjoin argument hargument with ⟨names, hnames⟩ | hfree
    · rw [widenArgument, hnames] at ho
      obtain ⟨v, -, rfl⟩ := List.mem_map.mp ho
      rfl
    · rw [widenArgument, outerOperand?_of_isFree hfree] at ho
      rw [List.mem_singleton.mp ho]
      exact hfree

/-! ## Filters -/

/-- **Where a filter has the truth value that is asked for, what it is widened to is read as that.**
The induction is on the filter; under a `not` it goes on with the other truth value. -/
theorem Reading.of_widens {J : (Value → Prop) → Operation → Prop} (hJ : Reading outer d J)
    (hread : ∀ v ∈ siblings, v.IsRead) (hp : p ∈ siblings) {F G : Operation}
    (h : Widens siblings sign F G) :
    ∀ v, eval p F d = .ok v → J (fun w => v = .bool sign → w = .bool sign) G := by
  -- a leaf that has a value after widening is read as that value
  have hleaf : ∀ {sign : Bool} {v : Value} {G : Operation}, G.isFree = true →
      (∃ w, eval outer G d = .ok w ∧ (v = .bool sign → w = .bool sign)) →
        J (fun w => v = .bool sign → w = .bool sign) G := by
    intro sign v G hfree ⟨w, hw, himp⟩
    exact hJ.mono (hJ.value hfree hw) fun x hx hv => hx sign (himp hv)
  induction h with
  | and _ _ left right =>
    intro v hv
    obtain ⟨a, b, ha, hb, hv⟩ := exists_of_binary hv
    cases hv
    exact hJ.and (left a ha) (right b hb) fun a' b' => conjunction_keeps _ a a' b b'
  | or _ _ left right =>
    intro v hv
    obtain ⟨a, b, ha, hb, hv⟩ := exists_of_binary hv
    cases hv
    exact hJ.or (left a ha) (right b hb) fun a' b' => disjunction_keeps _ a a' b b'
  | not _ operand =>
    intro v hv
    obtain ⟨a, ha, rfl⟩ := exists_of_not hv
    refine hJ.not (operand a ha) fun w hw hneg => ?_
    exact negation_eq_bool.mpr (hw (negation_eq_bool.mp hneg))
  | free hfree =>
    intro v hv
    exact hleaf hfree ⟨v, (eval_of_isFree outer p hfree d).trans hv, id⟩
  | eq hfree houter hsteady =>
    intro v hv
    obtain ⟨a, b, ha, hb, hv⟩ := exists_of_binary hv
    rw [eval_outerOperand houter] at hb
    cases hb
    cases hv
    exact hleaf (isFree_widenEq hfree _) (eval_widenEq (covers_valuesAt hread hp hsteady)
      ((eval_of_isFree outer p hfree d).trans ha))
  | outerEq hfree houter hsteady =>
    intro v hv
    obtain ⟨b, a, hb, ha, hv⟩ := exists_of_binary hv
    rw [eval_outerOperand houter] at hb
    cases hb
    cases hv
    rw [Value.equals_comm]
    exact hleaf (isFree_widenEq hfree _) (eval_widenEq (covers_valuesAt hread hp hsteady)
      ((eval_of_isFree outer p hfree d).trans ha))
  | member hfree houter hsteady =>
    intro v hv
    obtain ⟨a, b, ha, hb, hv⟩ := exists_of_binary hv
    rw [eval_outerOperand houter] at hb
    cases hb
    obtain ⟨w, hw, himp⟩ := eval_widenMember (covers_valuesAt hread hp hsteady)
      ((hread p hp).follow _) ((eval_of_isFree outer p hfree d).trans ha)
    refine hleaf (isFree_widenMember hfree _) ⟨w, hw, ?_⟩
    intro htrue
    exact himp (htrue ▸ hv)
  | outerMember hfree houter hsteady =>
    intro v hv
    obtain ⟨b, a, hb, ha, hv⟩ := exists_of_binary hv
    rw [eval_outerOperand houter] at hb
    cases hb
    refine hJ.mono (reads_widenMembers hJ hfree ((eval_of_isFree outer p hfree d).trans ha)
      (covers_valuesAt hread hp hsteady)) fun w himp htrue => ?_
    exact himp (htrue ▸ hv)
  | references hjoin hsteady =>
    intro v hv
    exact hleaf (isFree_of_widens (.references hjoin hsteady))
      (eval_widened_references hp hjoin hsteady hv)

/-! ## Running both -/

theorem isCorrelated_of_isJoinLeaf {o : Operation} (h : o.isJoinLeaf = true) :
    o.isCorrelated = true := by
  have houter : ∀ {o : Operation} {names : List String}, o.outerOperand? = some names →
      o.isCorrelated = true := by
    intro o names hnames
    obtain ⟨name, steps, rfl, hsteps⟩ := exists_of_outerOperand? hnames
    exact (Option.isSome_iff_exists.mpr ⟨names, hsteps⟩ :
      (outerNames? (.parent :: .attr name :: steps)).isSome = true)
  cases o with
  | binary op lhs rhs =>
    have hside : (lhs.outerOperand?.isSome && rhs.isFree ||
        lhs.isFree && rhs.outerOperand?.isSome) = true := by
      cases op <;> first | exact h | cases h
    rcases outer_side hside with ⟨names, hnames, hfree⟩ | ⟨names, hfree, hnames⟩
    · exact Bool.and_eq_true_iff.mpr ⟨houter hnames, isCorrelated_of_isFree hfree⟩
    · exact Bool.and_eq_true_iff.mpr ⟨isCorrelated_of_isFree hfree, houter hnames⟩
  | call function arguments =>
    cases function with
    | references =>
      refine allWithin_of_forall fun o ho => ?_
      rcases Bool.or_eq_true_iff.mp (List.all_eq_true.mp h o ho) with hsome | hfree
      · obtain ⟨names, hnames⟩ := Option.isSome_iff_exists.mp hsome
        exact houter hnames
      · exact isCorrelated_of_isFree hfree
    | _ => cases h
  | _ => cases h

theorem isCorrelated_of_isJoinFilter : ∀ {sign : Bool} {F : Operation},
    IsJoinFilter siblings sign F → F.isCorrelated = true
  | _, .binary op _ _, h => by
    cases op with
    | and | or =>
      exact Bool.and_eq_true_iff.mpr
        ⟨isCorrelated_of_isJoinFilter h.1, isCorrelated_of_isJoinFilter h.2⟩
    | _ => exact h.elim isCorrelated_of_isFree fun h => isCorrelated_of_isJoinLeaf h.1
  | _, .not operand, h => isCorrelated_of_isJoinFilter (F := operand) h
  | _, .source _, h | _, .filter _, h | _, .accessor _, h | _, .literal _, h | _, .object _, h
  | _, .array _, h | _, .assignment _ _, h | _, .splat, h | _, .subscript _, h
  | _, .range _ _ _, h | _, .ordering _, h | _, .sortDirection _, h | _, .call _ _, h
  | _, .pipe _ _, h | _, .mapJoin _, h =>
    h.elim isCorrelated_of_isFree fun h => isCorrelated_of_isJoinLeaf h.1

/-! ## Filters of a source -/

section

variable {c : Context} {s : Scope} {id : SourceId} {data : SourceData} {documents : List Json}

theorem siblings?_of_source (hsource : s.source = some id) (hdata : c.source? id = some data)
    (hcomputed : s.computed = false) :
    siblings? c s = some (data.documents.flatMap fun d => spread (followPath d s.path)) := by
  unfold siblings?
  rw [hsource, Option.bind_some, hdata]
  dsimp only
  rw [hcomputed]
  rfl

theorem isRead_siblings {names : List String} :
    ∀ v ∈ (documents.map Value.ofJson).flatMap fun d => spread (followPath d (names.map .attr)),
      v.IsRead := by
  intro v hv
  obtain ⟨w, hw, hv⟩ := List.mem_flatMap.mp hv
  obtain ⟨d, -, rfl⟩ := List.mem_map.mp hw
  rw [Value.followPath_attrs] at hv
  exact ((Value.isRead_ofJson d).follow names).of_mem_spread hv

open Engine Run in
/-- A filter keeps what another one keeps within any value that stands at a place of the documents.
Wherever the one is `true` for a candidate, the other is `true` for it as well, whatever is around it
then, or fails with a type error. -/
def Keeps (documents : List Json) (path : List ScopeStep) (F G : Operation) : Prop :=
  ∀ document ∈ documents, ∀ around candidate : Scope, (Value.ofJson document).Stands path around.value →
    candidate.parent = some around → ∀ (fetcher : Fetcher) (σ τ : Session) (r : Scoped),
      σ.context.KeepsOwn candidate.value → (exec fetcher F candidate).Yields σ r τ →
        r.value = .bool true → ∀ (fetcher : Fetcher) (t : Scope) (σ : Session),
          t.value = candidate.value → σ.context.KeepsOwn candidate.value →
            (∃ r τ, (exec fetcher G t).Yields σ r τ ∧ r.value = .bool true) ∨
              ∃ e : ExecError, e.isOfType = true ∧ ((exec fetcher G t).run.run σ).1 = .error e

open Engine Run in
/-- What a filter with steady negated comparisons is generalized to keeps what the filter keeps. -/
theorem keeps_of_generalize (hsource : s.source = some id) (hdata : c.source? id = some data)
    (hdocuments : data.documents = documents.map Value.ofJson) (hcomputed : s.computed = false)
    (hplace : ∃ document ∈ documents, (Value.ofJson document).Stands s.path s.value)
    {F G : Operation} (hjoin : IsJoinFilter ((documents.map Value.ofJson).flatMap
      fun d => spread (followPath d s.path)) true F)
    (hgeneralize : generalize c s F = .ok (some G)) : Keeps documents s.path F G := by
  obtain ⟨_, -, hplace⟩ := hplace
  obtain ⟨names, hnames⟩ := hplace.exists_attrs
  have hsiblings := siblings?_of_source hsource hdata hcomputed
  rw [hdocuments, hnames] at hsiblings
  rw [hnames] at hjoin
  have hwidens := widens_of_generalize hsiblings hjoin hgeneralize
  intro document hmem around candidate hstands hparent fetcher σ τ r hown hrun htrue fetcher' t ρ
    hvalue hown'
  have hp : around.value ∈ (documents.map Value.ofJson).flatMap
      fun d => spread (followPath d (names.map .attr)) := by
    rw [hnames] at hstands
    exact List.mem_flatMap.mpr ⟨_, List.mem_map_of_mem hmem, hstands.mem_spread⟩
  -- what the filter is for the candidate, as a function of the two values
  have heval := ((comesTo_exec (fun _ => Session.faithful_keepsOwn candidate.value)
    (isCorrelated_of_isJoinFilter hjoin)).of_yields hown hrun).1
  rw [outerOf_eq hparent, htrue] at heval
  have hcomes := @comesTo_exec fetcher' (fun σ => σ.context.KeepsOwn t.value) t _
    (fun _ => Session.faithful_keepsOwn t.value) _ (isCorrelated_of_isFree (isFree_of_widens hwidens))
  rw [← hvalue] at heval hown'
  rcases (reading_eval (outerOf t) t.value).of_widens isRead_siblings hp hwidens _ heval with
    ⟨w, hw, hsign⟩ | ⟨e, he, htype⟩
  · rw [hw] at hcomes
    obtain ⟨r, τ, hyields, hr, -⟩ := hcomes.yields hown'
    exact .inl ⟨r, τ, hyields, hr.trans (hsign rfl)⟩
  · rw [he] at hcomes
    exact .inr ⟨e, htype, hcomes.fails hown'⟩

open Engine Run in
/-- **Generalizing a filter without negated comparisons loses no document.** Let a scope stand at a
place of a document of a source, and let a filter be generalized there. Wherever the filter is
`true` for a candidate within some value that stands at this place of some document, the generalized
filter is `true` for the candidate, whatever is around it then, or fails with a type error: it is
neither `false` nor unknown. -/
theorem generalize_keeps (hsource : s.source = some id) (hdata : c.source? id = some data)
    (hdocuments : data.documents = documents.map Value.ofJson) (hcomputed : s.computed = false)
    (hplace : ∃ document ∈ documents, (Value.ofJson document).Stands s.path s.value)
    {F G : Operation} (hfilter : F.isPositiveJoin = true)
    (hgeneralize : generalize c s F = .ok (some G)) {document : Json} (hmem : document ∈ documents)
    {around candidate : Scope} (hstands : (Value.ofJson document).Stands s.path around.value)
    (hparent : candidate.parent = some around) {fetcher : Fetcher} {σ τ : Session} {r : Scoped}
    (hown : σ.context.KeepsOwn candidate.value) (hrun : (exec fetcher F candidate).Yields σ r τ)
    (htrue : r.value = .bool true) :
    ∀ (fetcher : Fetcher) (t : Scope) (σ : Session), t.value = candidate.value →
      σ.context.KeepsOwn candidate.value →
        (∃ r τ, (exec fetcher G t).Yields σ r τ ∧ r.value = .bool true) ∨
          ∃ e : ExecError, e.isOfType = true ∧ ((exec fetcher G t).run.run σ).1 = .error e :=
  keeps_of_generalize hsource hdata hdocuments hcomputed hplace
    (isJoinFilter_of_isPositiveJoin hfilter) hgeneralize document hmem around candidate hstands
    hparent fetcher σ τ r hown hrun htrue

open Engine Run in
/-- Elements with a number, an array and a text under one name. The candidate is kept for the array,
by the filter that was generalized at the number. -/
theorem generalize_keeps_element :
    ∃ (F G : Operation) (c : Context) (s : Scope),
      F = .binary .and
        (.binary .or
          (.binary .or (.binary .eq (.attr "n") (.accessor [.parent, .attr "k"]))
            (.binary .member (.attr "n") (.accessor [.parent, .attr "k"])))
          (.call .references [.accessor [.parent, .attr "k"]]))
        (.call .defined [.attr "n"]) ∧
      s.value = .object [("k", .int 1)] ∧ generalize c s F = .ok (some G) ∧
      ∀ (fetcher : Fetcher) (t : Scope) (σ : Session),
        t.value = .object [("_id", .string "c"), ("n", .int 3)] → σ.context.KeepsOwn t.value →
          (∃ r τ, (exec fetcher G t).Yields σ r τ ∧ r.value = .bool true) ∨
            ∃ e : ExecError, e.isOfType = true ∧ ((exec fetcher G t).run.run σ).1 = .error e := by
  let F : Operation := .binary .and
    (.binary .or
      (.binary .or (.binary .eq (.attr "n") (.accessor [.parent, .attr "k"]))
        (.binary .member (.attr "n") (.accessor [.parent, .attr "k"])))
      (.call .references [.accessor [.parent, .attr "k"]]))
    (.call .defined [.attr "n"])
  let documents : List Json := [
    .obj [("_id", .str "a"), ("items", .arr [.obj [("k", .int 1)],
      .obj [("k", .arr [.int 2, .int 3])]])],
    .obj [("_id", .str "b"), ("items", .obj [("k", .str "x")])]]
  let c : Context := ⟨[(1, ⟨documents.map Value.ofJson, 0⟩)], []⟩
  let s : Scope := ⟨.object [("k", .int 1)], none, [.attr "items"], some 1, 0, false⟩
  let around : Scope := { s with value := .object [("k", .array [.int 2, .int 3])] }
  let candidate : Scope := around.child (.object [("_id", .string "c"), ("n", .int 3)])
  let document : Json := .obj [("_id", .str "a"), ("items", .arr [.obj [("k", .int 1)],
      .obj [("k", .arr [.int 2, .int 3])]])]
  have hplace : (Value.ofJson document).Stands s.path s.value :=
    @Value.Stands.element _ ["items"] _ _ rfl List.mem_cons_self
  have haround : (Value.ofJson document).Stands s.path around.value :=
    @Value.Stands.element _ ["items"] _ _ rfl (List.mem_cons_of_mem _ List.mem_cons_self)
  have hgeneralize : ∃ G, generalize c s F = .ok (some G) := ⟨_, rfl⟩
  obtain ⟨G, hgeneralize⟩ := hgeneralize
  have hrun : (exec (.fullScan []) F candidate).Yields .empty (.one (candidate.derived (.bool true)))
      ⟨⟨[], [("c", [])]⟩, []⟩ := by
    with_unfolding_all rfl
  refine ⟨F, G, c, s, rfl, rfl, hgeneralize, fun fetcher t σ ht hown => ?_⟩
  rw [ht] at hown
  exact @generalize_keeps c s 1 _ documents rfl rfl rfl rfl ⟨document, List.mem_cons_self, hplace⟩ F G
    (by decide) hgeneralize document List.mem_cons_self around candidate haround rfl _ _ _ _
    (Context.keepsOwn_empty _) hrun rfl fetcher t σ ht hown

end

end Join
end DocQuery
