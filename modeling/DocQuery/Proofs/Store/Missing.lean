import DocQuery.Proofs.Engine.Correlated
import DocQuery.Proofs.Store.Translation

/-!
# Filters of what is missing

A document that a selector turns away is not fetched, so whoever looks for it finds null instead.
That makes no difference to a filter that keeps neither of them. **A filter whose selector turns some
document away is not `true` of null, if it calls `references()` only for its truth**
(`vouches_ofFilter`): null has no fields, so the comparisons that selectors are made of have no answer
there, and their negations have none either. But null refers to nothing, so `not references(…)` is
`true` of null.

The induction is over the filter and, for `not`, over both answers: a negated selector turns away
what the selector accepts.
-/

set_option autoImplicit false

namespace DocQuery

open Operator

/-! ## The sign of a call -/

/-- Whether a filter calls `references()` only where the truth of the call (`sign`), or only where
its falsehood, makes for the truth of the filter. What is not translated may call it at will. -/
def Operation.seeksReferences (sign : Bool) : Operation → Bool
  | filter condition => seeksReferences sign condition
  | binary .and lhs rhs | binary .or lhs rhs =>
    seeksReferences sign lhs && seeksReferences sign rhs
  | not operand => seeksReferences (!sign) operand
  | call .references _ => sign
  | _ => true

/-! ## What a clause says of null -/

namespace Clause

/-- What the answer of a clause for a document says of the value `v` that the filter has at null: it
is not `true` if the clause turns the document away; and it is not `false` if the clause accepts it
and is exact. -/
def Vouches (sign : Bool) (c : Clause) (document : Json) (v : Value) : Prop :=
  (sign = false → c.isExact = true) → c.judge document = .ok (!sign) → v ≠ .bool sign

variable {sign a b : Bool} {c d : Clause} {document : Json} {v w : Value}

theorem vouches_null (sign : Bool) (c : Clause) (document : Json) :
    c.Vouches sign document .null :=
  fun _ _ => nofun

theorem vouches_unknown (sign : Bool) (document : Json) (v : Value) :
    unknown.Vouches sign document v := by
  intro hexact hjudge
  cases sign with
  | true => cases hjudge
  | false => cases hexact rfl

theorem vouches_const (sign b : Bool) (document : Json) :
    (const b).Vouches sign document (.bool b) := by
  intro _ hjudge heq
  rw [judge_const] at hjudge
  cases heq
  cases sign <;> cases hjudge

theorem vouches_ofValue (sign : Bool) (document : Json) (v : Value) :
    (ofValue v).Vouches sign document v := by
  cases v with
  | bool b => exact vouches_const sign b document
  | _ => exact vouches_unknown sign document _

theorem Vouches.and (hv : c.Vouches sign document v) (hw : d.Vouches sign document w)
    (hc : c.judge document = .ok a) (hd : d.judge document = .ok b) :
    (c.and d).Vouches sign document (conjunction v w) := by
  intro hexact hjudge heq
  rw [judge_and hc hd, Except.ok.injEq] at hjudge
  cases sign with
  | true =>
    obtain ⟨hvt, hwt⟩ := conjunction_eq_true.mp heq
    rcases Bool.and_eq_false_iff.mp hjudge with rfl | rfl
    · exact hv nofun hc hvt
    · exact hw nofun hd hwt
  | false =>
    obtain ⟨rfl, rfl⟩ := Bool.and_eq_true_iff.mp hjudge
    rcases isExact_and (hexact rfl) with rfl | rfl | ⟨hce, hde⟩
    · cases hc
    · cases hd
    · rcases conjunction_eq_false.mp heq with hvf | hwf
      · exact hv (fun _ => hce) hc hvf
      · exact hw (fun _ => hde) hd hwf

theorem Vouches.or (hv : c.Vouches sign document v) (hw : d.Vouches sign document w)
    (hc : c.judge document = .ok a) (hd : d.judge document = .ok b) :
    (c.or d).Vouches sign document (disjunction v w) := by
  intro hexact hjudge heq
  rw [judge_or hc hd, Except.ok.injEq] at hjudge
  cases sign with
  | true =>
    obtain ⟨rfl, rfl⟩ := Bool.or_eq_false_iff.mp hjudge
    rcases disjunction_eq_true.mp heq with hvt | hwt
    · exact hv nofun hc hvt
    · exact hw nofun hd hwt
  | false =>
    obtain ⟨hvf, hwf⟩ := disjunction_eq_false.mp heq
    -- a constant is exact whatever it is joined with
    rcases isExact_or (hexact rfl) with rfl | rfl | ⟨hce, hde⟩
    · exact hv (fun _ => rfl) rfl hvf
    · exact hw (fun _ => rfl) rfl hwf
    · rcases Bool.or_eq_true_iff.mp hjudge with rfl | rfl
      · exact hv (fun _ => hce) hc hvf
      · exact hw (fun _ => hde) hd hwf

theorem Vouches.not (hv : c.Vouches (!sign) document v) (hc : c.judge document = .ok a) :
    c.not.Vouches sign document (negation v) := by
  intro hexact hjudge heq
  have hvalue := negation_eq_bool.mp heq
  rw [judge_not hc, Except.ok.injEq] at hjudge
  cases sign with
  | true =>
    have hboth : c.isExact = true ∧ a = true := by simpa using hjudge
    obtain ⟨hce, rfl⟩ := hboth
    exact hv (fun _ => hce) hc hvalue
  | false =>
    obtain ⟨x, rfl⟩ := isExact_not (hexact rfl)
    have ha : a = false := by simpa [isExact] using hjudge
    subst ha
    exact hv (fun h => Bool.noConfusion h) hc hvalue

end Clause

/-! ## Operands at null -/

namespace Correlated

open Operation

variable {outer : Value}

mutual

theorem eval_of_literal? : ∀ {o : Operation} {v : Value}, o.literal? = some v →
    ∀ w : Value, eval outer o w = .ok v
  | .literal u, v, h, _ => by
    obtain rfl : u = v := by simpa [literal?] using h
    rfl
  | .array elements, v, h, w => by
    simp only [literal?, Option.map_eq_some_iff] at h
    obtain ⟨values, hvalues, rfl⟩ := h
    rw [eval, evalAll_of_literals? hvalues w]
    rfl
  | .source _, _, h, _ | .filter _, _, h, _ | .binary _ _ _, _, h, _ | .not _, _, h, _
  | .accessor _, _, h, _ | .object _, _, h, _ | .assignment _ _, _, h, _ | .splat, _, h, _
  | .subscript _, _, h, _ | .range _ _ _, _, h, _ | .ordering _, _, h, _
  | .sortDirection _, _, h, _ | .call _ _, _, h, _ | .pipe _ _, _, h, _ | .mapJoin _, _, h, _ => by
    simp [literal?] at h

theorem evalAll_of_literals? : ∀ {os : List Operation} {vs : List Value},
    literals? os = some vs → ∀ w : Value, evalAll outer os w = .ok vs
  | [], vs, h, _ => by
    obtain rfl : [] = vs := by simpa [literals?] using h
    rfl
  | o :: os, vs, h, w => by
    simp only [literals?, Option.bind_eq_bind, Option.bind_eq_some_iff, Option.pure_def,
      Option.some.injEq] at h
    obtain ⟨v, hv, rest, hrest, rfl⟩ := h
    rw [evalAll, eval_of_literal? hv w, evalAll_of_literals? hrest w]
    rfl

end

/-- A field of null is null. -/
theorem eval_field {o : Operation} {field : String} (h : o.fieldName? = some field) :
    eval outer o .null = .ok .null := by
  cases o with
  | accessor path =>
    obtain ⟨names, hnames, -, -⟩ := fieldName?_accessor h
    rw [eval_inner hnames, Value.follow_null]
  | _ => cases h

theorem eval_operand_field {o : Operation} {field : String}
    (h : Operand.ofOperation o = .field field) : eval outer o .null = .ok .null :=
  eval_field (Operand.field_of_ofOperation h)

theorem eval_operand_value {o : Operation} {v : Value} (h : Operand.ofOperation o = .value v)
    (w : Value) : eval outer o w = .ok v :=
  eval_of_literal? (Operand.literal_of_ofOperation h) w

end Correlated

/-! ## The clause of a filter -/

namespace Operator

/-- Comparisons, and membership among them. -/
def compares : BinaryOp → Bool
  | .and | .or | .textMatch => false
  | _ => true

/-- No comparison has an answer where one side is null. -/
theorem apply_null {op : BinaryOp} (hop : compares op = true) {a b v : Value}
    (hnull : a = .null ∨ b = .null) (h : Operator.apply op a b = .ok v) : v = .null := by
  have hequals : a.equals b = none := by
    rcases hnull with rfl | rfl
    · rfl
    · cases a <;> rfl
  have hcompare : a.looseCompare b = none := by
    rcases hnull with rfl | rfl
    · cases b <;> rfl
    · cases a <;> rfl
  have hmember : Operator.membership a b = .ok .null := by
    rcases hnull with rfl | rfl
    · rfl
    · cases a <;> rfl
  cases op with
  | and | or | textMatch => cases hop
  | eq | neq =>
    rw [Operator.apply, hequals] at h
    exact (Except.ok.inj h).symm
  | lt | lte | gt | gte =>
    rw [Operator.apply, hcompare] at h
    exact (Except.ok.inj h).symm
  | member =>
    rw [Operator.apply, hmember] at h
    exact (Except.ok.inj h).symm

end Operator

namespace Clause

open Operation Correlated

variable {sign : Bool} {outer v : Value} {document : Json} {op : BinaryOp} {lhs rhs : Operation}

theorem vouches_decided {a b : Value} (h : Operator.apply op a b = .ok v) :
    (decided op a b).Vouches sign document v := by
  rw [decided, h]
  exact vouches_ofValue sign document v

/-- A comparison of known values is decided. -/
theorem vouches_values {a b : Value} (hl : Operand.ofOperation lhs = .value a)
    (hr : Operand.ofOperation rhs = .value b)
    (h : eval outer (.binary op lhs rhs) .null = .ok v) :
    (decided op a b).Vouches sign document v := by
  obtain ⟨x, y, hx, hy, happly⟩ := exists_of_binary h
  cases (eval_operand_value hl .null).symm.trans hx
  cases (eval_operand_value hr .null).symm.trans hy
  exact vouches_decided happly

/-- A comparison with a field has no answer at null, whatever its clause. -/
theorem vouches_field (hop : compares op = true) {field : String}
    (hfield : Operand.ofOperation lhs = .field field ∨ Operand.ofOperation rhs = .field field)
    (h : eval outer (.binary op lhs rhs) .null = .ok v) (c : Clause) :
    c.Vouches sign document v := by
  obtain ⟨a, b, ha, hb, happly⟩ := exists_of_binary h
  have hnull : a = .null ∨ b = .null := by
    refine hfield.imp (fun hl => ?_) fun hr => ?_
    · exact Except.ok.inj (ha.symm.trans (eval_operand_field hl))
    · exact Except.ok.inj (hb.symm.trans (eval_operand_field hr))
  rw [apply_null hop hnull happly]
  exact vouches_null sign c document

theorem vouches_compare (hop : compares op = true)
    (h : eval outer (.binary op lhs rhs) .null = .ok v) :
    (compare op lhs rhs).Vouches sign document v := by
  unfold compare
  split
  · next hl hr => exact vouches_values hl hr h
  · next hl hr => exact vouches_field hop (.inl hl) h _
  · next hl hr => exact vouches_field hop (.inl hl) h _
  · next hl hr => exact vouches_field hop (.inr hr) h _
  · exact vouches_unknown sign document v

theorem vouches_memberOf (h : eval outer (.binary .member lhs rhs) .null = .ok v) :
    (memberOf lhs rhs).Vouches sign document v := by
  unfold memberOf
  split
  · next hl hr => exact vouches_values hl hr h
  · next hl hr => exact vouches_field rfl (.inl hl) h _
  · exact vouches_unknown sign document v
  · next hl hr => exact vouches_field rfl (.inr hr) h _
  · next hl hr => exact vouches_field rfl (.inl hl) h _
  · exact vouches_unknown sign document v

theorem vouches_memberOfPath {pattern : String}
    (h : eval outer (.binary .member lhs (.call .path [.literal (.string pattern)])) .null = .ok v) :
    (memberOfPath lhs (Path.parse pattern)).Vouches sign document v := by
  unfold memberOfPath
  split
  · next hl => exact vouches_field rfl (.inl hl) h _
  · next candidate hl =>
    obtain ⟨x, y, hx, hy, happly⟩ := exists_of_binary h
    cases (eval_operand_value hl .null).symm.trans hx
    cases hy
    cases happly
    exact vouches_const sign _ document
  · exact vouches_unknown sign document v

/-- Null is not defined. -/
theorem vouches_defined {argument : Operation} {arguments : List Operation}
    (h : eval outer (.call .defined (argument :: arguments)) .null = .ok v) :
    (defined argument).Vouches sign document v := by
  unfold defined
  split
  · next field hfield =>
    obtain ⟨values, hvalues, rfl⟩ := exists_of_call h
    obtain ⟨a, rest, ha, -, rfl⟩ := exists_of_evalAll hvalues
    cases (eval_field hfield).symm.trans ha
    intro hexact _
    cases sign with
    | true => exact nofun
    | false => cases hexact rfl
  · exact vouches_unknown sign document v

/-- Null refers to nothing. -/
theorem vouches_references {arguments : List Operation}
    (h : eval outer (.call .references arguments) .null = .ok v) (c : Clause) :
    c.Vouches true document v := by
  obtain ⟨values, -, rfl⟩ := exists_of_call h
  exact fun _ _ => nofun

/-- **What the selector of a filter turns away, or accepts if it is exact, it settles for null.** -/
theorem vouches_ofFilter (fields : Fields Json) :
    ∀ {f : Operation} {sign : Bool} {clause : Clause} {v : Value}, f.seeksReferences sign = true →
      f.isReadFilter = true → ofFilter f = .ok clause → eval outer f .null = .ok v →
        clause.Vouches sign (Collection.stored fields) v
  | .filter condition, sign, clause, v, hseeks, hread, h, heval => by
    rw [eval] at heval
    exact vouches_ofFilter fields (f := condition) hseeks hread h heval
  | .binary op lhs rhs, sign, clause, v, hseeks, hread, h, heval => by
    cases op with
    | and =>
      obtain ⟨c, d, hc, hd, rfl⟩ := ofFilter_and h
      obtain ⟨hl, hr⟩ := Bool.and_eq_true_iff.mp hread
      obtain ⟨hseeksl, hseeksr⟩ := Bool.and_eq_true_iff.mp hseeks
      obtain ⟨x, hx⟩ := judge_ofReadFilter fields hc hl
      obtain ⟨y, hy⟩ := judge_ofReadFilter fields hd hr
      obtain ⟨a, b, ha, hb, happly⟩ := exists_of_binary heval
      cases happly
      exact (vouches_ofFilter fields hseeksl hl hc ha).and
        (vouches_ofFilter fields hseeksr hr hd hb) hx hy
    | or =>
      obtain ⟨c, d, hc, hd, rfl⟩ := ofFilter_or h
      obtain ⟨hl, hr⟩ := Bool.and_eq_true_iff.mp hread
      obtain ⟨hseeksl, hseeksr⟩ := Bool.and_eq_true_iff.mp hseeks
      obtain ⟨x, hx⟩ := judge_ofReadFilter fields hc hl
      obtain ⟨y, hy⟩ := judge_ofReadFilter fields hd hr
      obtain ⟨a, b, ha, hb, happly⟩ := exists_of_binary heval
      cases happly
      exact (vouches_ofFilter fields hseeksl hl hc ha).or
        (vouches_ofFilter fields hseeksr hr hd hb) hx hy
    | member =>
      cases h
      rcases member_cases hread with ⟨pattern, rfl, -, -⟩ | ⟨hmember, -, -⟩
      · exact vouches_memberOfPath heval
      · rw [hmember]
        exact vouches_memberOf heval
    | textMatch => cases hread
    | eq | neq | lt | lte | gt | gte =>
      cases h
      exact vouches_compare rfl heval
  | .not operand, sign, clause, v, hseeks, hread, h, heval => by
    obtain ⟨c, hc, rfl⟩ := ofFilter_not h
    obtain ⟨x, hx⟩ := judge_ofReadFilter fields (f := operand) hc hread
    obtain ⟨a, ha, rfl⟩ := exists_of_not heval
    exact (vouches_ofFilter fields (f := operand) hseeks hread hc ha).not hx
  | .accessor path, sign, clause, v, _, _, h, heval => by
    rw [ofFilter] at h
    cases hfield : (Operation.accessor path).fieldName? with
    | none =>
      rw [hfield] at h
      cases h
      exact vouches_unknown sign _ v
    | some field =>
      rw [hfield] at h
      cases h
      cases (eval_field hfield).symm.trans heval
      exact vouches_null sign _ _
  | .literal w, sign, clause, v, _, _, h, heval => by
    cases h
    cases heval
    exact vouches_ofValue sign _ w
  | .call function arguments, sign, clause, v, hseeks, _, h, heval => by
    cases h
    cases function with
    | references =>
      cases sign with
      | true => exact vouches_references heval _
      | false => cases hseeks
    | defined =>
      cases arguments with
      | nil => exact vouches_unknown sign _ v
      | cons argument arguments => exact vouches_defined heval
    | _ => exact vouches_unknown sign _ v
  | .object _, sign, clause, v, _, _, h, _ | .array _, sign, clause, v, _, _, h, _
  | .pipe _ _, sign, clause, v, _, _, h, _ => by
    cases h
    exact vouches_unknown sign _ v
  | .source _, _, _, _, _, _, h, _ | .assignment _ _, _, _, _, _, _, h, _
  | .splat, _, _, _, _, _, h, _ | .subscript _, _, _, _, _, _, h, _
  | .range _ _ _, _, _, _, _, _, h, _ | .ordering _, _, _, _, _, _, h, _
  | .sortDirection _, _, _, _, _, _, h, _ | .mapJoin _, _, _, _, _, _, h, _ => by
    cases h

end Clause
end DocQuery
