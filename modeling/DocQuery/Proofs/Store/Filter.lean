import DocQuery.Proofs.Store.Clause
import DocQuery.Proofs.Store.Operand
import DocQuery.Proofs.Value.Comparison

/-!
# The parts of filters as selectors

One section for each part that `Clause.ofFilter` turns into a selector: comparisons, membership,
`defined()` and `references()`. Each says that the store answers for every document, and that the
clause describes the part at the document (`Clause.Describes`), given the values of the operands.
-/

set_option autoImplicit false

namespace DocQuery

/-! ## Comparisons -/

namespace Operator

theorem holds_eq_true {op : BinaryOp} {a b v : Value} (h : apply op a b = .ok v) :
    holds op a b = true ↔ v = .bool true := by
  rw [holds_of_apply h, Value.same_true]

theorem holds_eq (a b : Value) : holds .eq a b = a.looseEq b := by
  rw [holds_of_apply rfl, same_truth_equals]

end Operator

namespace Clause

open Selector (reserved)

variable {lhs rhs : Operation} {document : Json} {a b v : Value} {field : String}

theorem comparison?_operatorName {op : BinaryOp} (h : Operator.isComparison op = true) :
    Selector.comparison? (operatorName op) = some op := by
  cases op <;> first | rfl | simp [Operator.isComparison] at h

theorem operatorName_startsWith {op : BinaryOp} (h : Operator.isComparison op = true) :
    (operatorName op).startsWith "$" = true := by
  cases op <;> simp [Operator.isComparison, operatorName] at h ⊢

theorem isComparison_flipped {op : BinaryOp} (h : Operator.isComparison op = true) :
    Operator.isComparison op.flipped = true := by
  cases op <;> first | rfl | simp [Operator.isComparison] at h

theorem accepts_comparison {op : BinaryOp} (hop : Operator.isComparison op = true)
    (hfield : field ∉ reserved) (value document : Json) :
    Selector.accepts (comparison op field value) document =
      .ok (Selector.holds op (Selector.lookup document field) value) := by
  have hname := operatorName_startsWith hop
  have hlookup := comparison?_operatorName hop
  by_cases heq : op = .eq
  · subst heq
    cases value with
    | obj fields =>
      exact (Selector.accepts_on hfield _ document).trans
        (Selector.meets_comparison hname hlookup _ _)
    | _ =>
      show Selector.accepts (on field _) document = _
      rw [Selector.accepts_on hfield, Selector.meets_value (by simp)]
  · have hcomparison : comparison op field value = on field (on (operatorName op) value) := by
      cases op with
      | eq => exact absurd rfl heq
      | _ => rfl
    rw [hcomparison, Selector.accepts_on hfield, Selector.meets_comparison hname hlookup]

/-- The value of a field reference is that of the field. -/
theorem operandValue_fieldReference (document : Json) (field : String) :
    Selector.operandValue document (fieldReference field) =
      Value.ofJson? (Selector.lookup document field) := by
  have hlist : ("$" ++ field).toList = '$' :: field.toList := by simp
  rw [fieldReference, Selector.operandValue, hlist]
  simp

theorem accepts_fieldExpression {op : BinaryOp}
    (hop : Operator.isComparison op = true ∨ op = .member) (a b : String) (document : Json) :
    Selector.accepts (fieldExpression op a b) document =
      .ok (Operator.holds op (Value.ofJson? (Selector.lookup document a))
        (Value.ofJson? (Selector.lookup document b))) := by
  have hname : (if operatorName op = "$in" then some .member
      else Selector.comparison? (operatorName op)) = some op := by
    rcases hop with hop | rfl
    · cases op <;> first | rfl | simp [Operator.isComparison] at hop
    · rfl
  rw [fieldExpression, Selector.accepts_expr, on, Selector.expressionHolds]
  dsimp only [Selector.itemsOf, bind, Except.bind]
  rw [hname]
  show Except.ok (Operator.holds op _ _) = _
  rw [operandValue_fieldReference, operandValue_fieldReference]

/-- An operator on known operands. -/
theorem describes_decided {op : BinaryOp} (h : Operator.apply op a b = .ok v) (document : Json) :
    (decided op a b).Describes document v := by
  rw [decided, h]
  exact describes_ofValue v document

theorem judge_decided (op : BinaryOp) (a b : Value) (document : Json) :
    ∃ x, (decided op a b).judge document = .ok x := by
  unfold decided
  cases Operator.apply op a b with
  | error e => exact ⟨true, rfl⟩
  | ok v =>
    cases v with
    | bool x => exact ⟨x, judge_const x document⟩
    | _ => exact ⟨true, rfl⟩

theorem judge_compare {op : BinaryOp} (hop : Operator.isComparison op = true)
    (hl : lhs.isPlainOperand = true) (hr : rhs.isPlainOperand = true) (document : Json) :
    ∃ x, (compare op lhs rhs).judge document = .ok x := by
  unfold compare
  cases hlhs : Operand.ofOperation lhs with
  | field l =>
    have hlname := Operation.not_mem_reserved hl (Operand.field_of_ofOperation hlhs)
    cases Operand.ofOperation rhs with
    | field r => exact ⟨_, accepts_fieldExpression (.inl hop) l r document⟩
    | value w => exact ⟨_, accepts_comparison hop hlname w.toJson document⟩
    | other => exact ⟨true, rfl⟩
  | value w =>
    cases hrhs : Operand.ofOperation rhs with
    | field r =>
      have hrname := Operation.not_mem_reserved hr (Operand.field_of_ofOperation hrhs)
      exact ⟨_, accepts_comparison (isComparison_flipped hop) hrname w.toJson document⟩
    | value u => exact judge_decided op w u document
    | other => exact ⟨true, rfl⟩
  | other => exact ⟨true, rfl⟩

theorem describes_compare {op : BinaryOp} (hop : Operator.isComparison op = true)
    (hl : lhs.isPlainOperand = true) (hr : rhs.isPlainOperand = true)
    (ha : lhs.Reads document a) (hb : rhs.Reads document b)
    (hv : Operator.apply op a b = .ok v) : (compare op lhs rhs).Describes document v := by
  unfold compare
  cases hlhs : Operand.ofOperation lhs with
  | field l =>
    have hlname := Operand.field_of_ofOperation hlhs
    cases hrhs : Operand.ofOperation rhs with
    | field r =>
      refine describes_exactly (accepts_fieldExpression (.inl hop) l r document) ?_
      rw [← ha.field hlname, ← hb.field (Operand.field_of_ofOperation hrhs)]
      exact (Operator.holds_eq_true hv).symm
    | value w =>
      have hw := Operand.literal_of_ofOperation hrhs
      have hreserved := Operation.not_mem_reserved hl hlname
      refine describes_exactly (accepts_comparison hop hreserved w.toJson document) ?_
      rw [Selector.holds, Value.ofJson_toJson (Operation.isJson_of_isPlainOperand hr hw),
        ← ha.field hlname, ← hb.literal hw]
      exact (Operator.holds_eq_true hv).symm
    | other => exact describes_unknown document v
  | value w =>
    have hw := Operand.literal_of_ofOperation hlhs
    cases hrhs : Operand.ofOperation rhs with
    | field r =>
      have hrname := Operand.field_of_ofOperation hrhs
      have hreserved := Operation.not_mem_reserved hr hrname
      refine describes_exactly
        (accepts_comparison (isComparison_flipped hop) hreserved w.toJson document) ?_
      rw [Selector.holds, Value.ofJson_toJson (Operation.isJson_of_isPlainOperand hl hw),
        ← ha.literal hw, ← hb.field hrname]
      exact (Operator.holds_eq_true ((Operator.apply_flipped hop a b).trans hv)).symm
    | value u =>
      have hu := Operand.literal_of_ofOperation hrhs
      show (decided op w u).Describes document v
      rw [← ha.literal hw, ← hb.literal hu]
      exact describes_decided hv document
    | other => exact describes_unknown document v
  | other => exact describes_unknown document v

end Clause

/-! ## Membership -/

namespace Operator

/-- Among candidates that are no path patterns there is only equality to look for. -/
theorem inItems_eq_any {v : Value} {items : List Value} (h : ∀ c ∈ items, ∀ p, c ≠ .path p) :
    inItems v items = .ok (items.any v.looseEq) := by
  induction items with
  | nil => rfl
  | cons c rest ih =>
    have hrest := ih fun d hd => h d (List.mem_cons_of_mem c hd)
    have hc := h c List.mem_cons_self
    rw [inItems.eq_def, List.any_cons]
    dsimp only
    cases v.looseEq c with
    | true => rfl
    | false =>
      cases c with
      | path p => exact absurd rfl (hc p)
      | _ => exact hrest

/-- What is a member of something that is no path pattern is one of the items of an array. -/
theorem items_of_membership {a b : Value} (hb : ∀ p, b ≠ .path p)
    (h : membership a b = .ok (.bool true)) :
    ∃ items, b = .array items ∧ inItems a items = .ok true := by
  unfold membership at h
  split at h
  · cases h
  · cases b with
    | array items =>
      refine ⟨items, rfl, ?_⟩
      change (inItems a items).map Value.bool = _ at h
      cases hin : inItems a items with
      | error e =>
        rw [hin] at h
        cases h
      | ok x =>
        rw [hin] at h
        cases h
        rfl
    | path p => exact absurd rfl (hb p)
    | _ => cases h

end Operator

namespace Value

theorem eq_arr_of_ofJson {j : Json} {items : List Value} (h : ofJson j = array items) :
    ∃ js, j = .arr js ∧ items = js.map ofJson := by
  cases j with
  | arr js =>
    rw [ofJson, ofItems_eq_map] at h
    cases h
    exact ⟨js, rfl, rfl⟩
  | int n =>
    rw [ofJson] at h
    split at h <;> cases h
  | _ => cases h

theorem ofJson?_ne_path (j : Option Json) (p : Path) : ofJson? j ≠ path p := by
  cases j with
  | none => simp [ofJson?]
  | some j => exact ofJson_ne_path j p

theorem eq_arr_of_ofJson? {j : Option Json} {items : List Value} (h : ofJson? j = array items) :
    ∃ js, j = some (.arr js) ∧ items = js.map ofJson := by
  cases j with
  | none => cases h
  | some j =>
    obtain ⟨js, rfl, hitems⟩ := eq_arr_of_ofJson h
    exact ⟨js, rfl, hitems⟩

/-- The items of a list that JSON can write are no paths. -/
theorem ne_path_of_allJson {items : List Value} (h : allJson items = true) :
    ∀ c ∈ items, ∀ p, c ≠ path p := by
  rintro c hc p rfl
  cases isJson_of_mem h hc

end Value

namespace Clause

open Selector (reserved)

variable {lhs rhs : Operation} {document : Json} {a b v : Value} {field : String}

theorem selector_holds_eq (value : Option Json) (operand : Json) :
    Selector.holds .eq value operand = (Value.ofJson? value).looseEq (Value.ofJson operand) :=
  Operator.holds_eq _ _

theorem accepts_in (hfield : field ∉ reserved) (operands : List Json) (document : Json) :
    Selector.accepts (on field (on "$in" (.arr operands))) document =
      .ok (operands.any (Selector.holds .eq (Selector.lookup document field))) := by
  rw [Selector.accepts_on hfield, Selector.meets_in]

/-- A field that is there and not of a type. -/
theorem accepts_otherThan (hfield : field ∉ reserved) {type : String} {x : Bool}
    (h : Selector.hasType (Selector.lookup document field) (.str type) = .ok x) :
    Selector.accepts (otherThan field type) document =
      .ok ((Selector.lookup document field).isSome && !x) := by
  rw [otherThan, Selector.accepts_on hfield, Selector.meets_exists_not (Selector.meets_type type h)]

theorem hasType_array (value : Option Json) :
    ∃ x, Selector.hasType value (.str "array") = .ok x := by
  cases value with
  | none => exact ⟨false, rfl⟩
  | some j => exact ⟨_, rfl⟩

theorem matchesElement_eq (operand item : Json) :
    Selector.matchesElement (on "$eq" operand) item =
      .ok (Selector.holds .eq (some item) operand) := by
  have hop : Selector.isOperatorDocument (on "$eq" operand) = true := by
    simp [Selector.isOperatorDocument, on]
  unfold Selector.matchesElement
  rw [if_pos hop]
  exact Selector.meets_comparison (by simp) rfl operand (some item)

/-- The selector for a known value in a field. -/
theorem accepts_elemMatch (hfield : field ∉ reserved) (operand document : Json) :
    ∃ x, Selector.accepts (on field (on "$elemMatch" (on "$eq" operand))) document = .ok x ∧
      ∀ items, Selector.lookup document field = some (.arr items) →
        x = items.any fun item => Selector.holds .eq (some item) operand := by
  rw [Selector.accepts_on hfield]
  by_cases h : ∃ items, Selector.lookup document field = some (.arr items)
  · obtain ⟨items, hitems⟩ := h
    have hmeets : Selector.meets (on "$elemMatch" (on "$eq" operand)) (some (.arr (items.map id))) =
        .ok (items.any fun item => Selector.holds .eq (some item) operand) :=
      Selector.meets_elemMatch fun item _ => matchesElement_eq operand item
    rw [List.map_id] at hmeets
    rw [hitems, hmeets]
    refine ⟨_, rfl, ?_⟩
    rintro _ ⟨⟩
    rfl
  · rw [Selector.meets_elemMatch_of_not_array fun items hitems => h ⟨items, hitems⟩]
    exact ⟨false, rfl, fun items hitems => absurd ⟨items, hitems⟩ h⟩

theorem judge_memberOf (hl : lhs.isPlainOperand = true) (hr : rhs.isPlainOperand = true)
    (document : Json) : ∃ x, (memberOf lhs rhs).judge document = .ok x := by
  unfold memberOf
  cases hlhs : Operand.ofOperation lhs with
  | field l =>
    have hlname := Operation.not_mem_reserved hl (Operand.field_of_ofOperation hlhs)
    cases hrhs : Operand.ofOperation rhs with
    | field r =>
      have hrname := Operation.not_mem_reserved hr (Operand.field_of_ofOperation hrhs)
      obtain ⟨x, hx⟩ := hasType_array (Selector.lookup document r)
      show ∃ x, Selector.accepts (combined "$or" _) document = .ok x
      rw [Selector.accepts_or, Selector.acceptsAny_pair
        (accepts_fieldExpression (.inr rfl) l r document) (accepts_otherThan hrname hx)]
      exact ⟨_, rfl⟩
    | value w =>
      cases w with
      | array items => exact ⟨_, accepts_in hlname _ document⟩
      | _ => exact ⟨true, rfl⟩
    | other => exact ⟨true, rfl⟩
  | value w =>
    cases hrhs : Operand.ofOperation rhs with
    | field r =>
      have hrname := Operation.not_mem_reserved hr (Operand.field_of_ofOperation hrhs)
      obtain ⟨x, hx⟩ := hasType_array (Selector.lookup document r)
      obtain ⟨y, hy, -⟩ := accepts_elemMatch hrname w.toJson document
      have hor : Selector.accepts (combined "$or"
          [on r (on "$elemMatch" (on "$eq" w.toJson)), otherThan r "array"]) document = _ :=
        (Selector.accepts_or _ _).trans
          (Selector.acceptsAny_pair hy (accepts_otherThan hrname hx))
      cases w with
      | null => exact ⟨true, rfl⟩
      | _ => exact ⟨_, hor⟩
    | value u => exact judge_decided .member w u document
    | other => exact ⟨true, rfl⟩
  | other => exact ⟨true, rfl⟩

/-- A field in known values: the store looks for an equal one, and so does the engine. -/
theorem describes_fieldIn (hl : lhs.isPlainOperand = true) (hr : rhs.isPlainOperand = true)
    (ha : lhs.Reads document a) (hv : Operator.apply .member a b = .ok v) {items : List Value}
    (hlhs : lhs.fieldName? = some field) (hrhs : rhs.literal? = some (.array items))
    (hb : b = .array items) :
    (exactly (on field (on "$in" (.arr (items.map Value.toJson))))).Describes document v := by
  have hjson : Value.allJson items = true := Operation.isJson_of_isPlainOperand hr hrhs
  have hany : (items.map Value.toJson).any
      (Selector.holds .eq (Selector.lookup document field)) = items.any a.looseEq := by
    rw [List.any_map, ha.field hlhs, Bool.eq_iff_iff, List.any_eq_true, List.any_eq_true]
    refine exists_congr fun c => and_congr_right fun hc => ?_
    rw [Function.comp_apply, selector_holds_eq,
      Value.ofJson_toJson (Value.isJson_of_mem hjson hc)]
  refine describes_exactly
    (accepts_in (Operation.not_mem_reserved hl hlhs) (items.map Value.toJson) document) ?_
  rw [hany]
  subst hb
  by_cases hnull : a.isNull = true
  · obtain rfl := Value.eq_null_of_isNull hnull
    cases hv
    simp
  · have hmember : Operator.apply .member a (.array items) =
        (Operator.inItems a items).map Value.bool := by
      show Operator.membership a (.array items) = _
      rw [Operator.membership, if_neg (by simpa [Value.isNull] using hnull)]
    rw [hmember, Operator.inItems_eq_any (Value.ne_path_of_allJson hjson)] at hv
    cases hv
    simp

theorem describes_memberOf (hl : lhs.isPlainOperand = true) (hr : rhs.isPlainOperand = true)
    (ha : lhs.Reads document a) (hb : rhs.Reads document b)
    (hv : Operator.apply .member a b = .ok v) : (memberOf lhs rhs).Describes document v := by
  unfold memberOf
  cases hlhs : Operand.ofOperation lhs with
  | field l =>
    have hlname := Operand.field_of_ofOperation hlhs
    cases hrhs : Operand.ofOperation rhs with
    | field r =>
      have hrname := Operand.field_of_ofOperation hrhs
      obtain ⟨x, hx⟩ := hasType_array (Selector.lookup document r)
      refine describes_atLeast fun htrue => ?_
      have hholds : Operator.holds .member (Value.ofJson? (Selector.lookup document l))
          (Value.ofJson? (Selector.lookup document r)) = true := by
        rw [← ha.field hlname, ← hb.field hrname]
        exact (Operator.holds_eq_true hv).mpr htrue
      rw [Selector.accepts_or, Selector.acceptsAny_pair
        (accepts_fieldExpression (.inr rfl) l r document)
        (accepts_otherThan (Operation.not_mem_reserved hr hrname) hx), hholds]
      rfl
    | value w =>
      cases w with
      | array items =>
        have hw := Operand.literal_of_ofOperation hrhs
        exact describes_fieldIn hl hr ha hv hlname hw (hb.literal hw)
      | _ => exact describes_unknown document v
    | other => exact describes_unknown document v
  | value w =>
    have hw := Operand.literal_of_ofOperation hlhs
    cases hrhs : Operand.ofOperation rhs with
    | field r =>
      have hrname := Operand.field_of_ofOperation hrhs
      have hreserved := Operation.not_mem_reserved hr hrname
      obtain ⟨x, hx⟩ := hasType_array (Selector.lookup document r)
      obtain ⟨y, hy, hitems⟩ := accepts_elemMatch hreserved w.toJson document
      have hor : v = .bool true → Selector.accepts (combined "$or"
          [on r (on "$elemMatch" (on "$eq" w.toJson)), otherThan r "array"]) document =
            .ok true := by
        rintro rfl
        -- the field is an array that holds the value, which is what the first selector looks for
        have hpath : ∀ p, b ≠ .path p := by
          rw [hb.field hrname]
          exact Value.ofJson?_ne_path _
        obtain ⟨items, rfl, hin⟩ := Operator.items_of_membership hpath hv
        obtain ⟨js, hjs, rfl⟩ := Value.eq_arr_of_ofJson? (hb.field hrname).symm
        rw [Operator.inItems_eq_any fun c hc p => by
          obtain ⟨j, -, rfl⟩ := List.mem_map.mp hc
          exact Value.ofJson_ne_path j p] at hin
        have hjson := Value.ofJson_toJson (Operation.isJson_of_isPlainOperand hl hw)
        have hy' : y = true := by
          rw [hitems js hjs, List.any_eq_true]
          have hany : (js.map Value.ofJson).any a.looseEq = true := by simpa using hin
          obtain ⟨c, hc, hac⟩ := List.any_eq_true.mp hany
          obtain ⟨j, hj, rfl⟩ := List.mem_map.mp hc
          refine ⟨j, hj, ?_⟩
          rw [selector_holds_eq, hjson, ← ha.literal hw, ← Value.looseEq_comm]
          exact hac
        rw [Selector.accepts_or, Selector.acceptsAny_pair hy (accepts_otherThan hreserved hx), hy']
        rfl
      cases w with
      | null => exact describes_unknown document v
      | _ => exact describes_atLeast hor
    | value u =>
      have hu := Operand.literal_of_ofOperation hrhs
      show (decided .member w u).Describes document v
      rw [← ha.literal hw, ← hb.literal hu]
      exact describes_decided hv document
    | other => exact describes_unknown document v
  | other => exact describes_unknown document v

/-- A field is compared with a literal exactly. -/
theorem isExact_compare_literal {o : Operation} {field : String}
    (ho : Operand.ofOperation o = .field field) (v : Value) :
    (compare .eq o (.literal v)).isExact = true := by
  unfold compare
  rw [ho]
  rfl

theorem isExact_member_literal {o : Operation} {field : String}
    (ho : Operand.ofOperation o = .field field) (items : List Value) :
    (member o (.literal (.array items))).isExact = true := by
  rw [member, memberOf, ho]
  · rfl
  · simp

/-! ## Bare fields and `defined()` -/

theorem accepts_true (hfield : field ∉ reserved) (document : Json) :
    Selector.accepts (on field (.bool true)) document =
      .ok (Selector.holds .eq (Selector.lookup document field) (.bool true)) := by
  rw [Selector.accepts_on hfield, Selector.meets_value (by simp)]

theorem accepts_nonempty (hfield : field ∉ reserved) (document : Json) :
    Selector.accepts (on field (.obj [("$exists", .bool true), ("$not", on "$size" (.int 0))]))
        document =
      .ok ((Selector.lookup document field).isSome &&
        !Selector.hasSize (Selector.lookup document field) (.int 0)) := by
  rw [Selector.accepts_on hfield, Selector.meets_exists_not (Selector.meets_size _ _)]

theorem judge_defined (hplain : lhs.isPlainOperand = true) (document : Json) :
    ∃ x, (defined lhs).judge document = .ok x := by
  unfold defined
  cases hfield : lhs.fieldName? with
  | none => exact ⟨true, rfl⟩
  | some name =>
    exact ⟨_, accepts_nonempty (Operation.not_mem_reserved hplain hfield) document⟩

theorem describes_defined (hplain : lhs.isPlainOperand = true) (ha : lhs.Reads document a) :
    (defined lhs).Describes document (.bool (Builtin.defined a)) := by
  unfold defined
  cases hfield : lhs.fieldName? with
  | none => exact describes_unknown document _
  | some name =>
    refine describes_atLeast fun htrue => ?_
    have hdefined : Builtin.defined a = true := by simpa using htrue
    rw [accepts_nonempty (Operation.not_mem_reserved hplain hfield)]
    rw [ha.field hfield] at hdefined
    cases hlookup : Selector.lookup document name with
    | none =>
      rw [hlookup] at hdefined
      cases hdefined
    | some j =>
      rw [hlookup] at hdefined
      cases j with
      | arr items =>
        cases items with
        | nil => cases hdefined
        | cons item items => rfl
      | _ => rfl

/-! ## `references()` -/

end Clause

namespace Context

/-- Whatever the session remembers of the references of a document is right. -/
def KeepsOwn (c : Context) (value : Value) : Prop :=
  ∀ key, documentKey? value = some key → (c.referencesOf key value).1 = findReferences value

theorem keepsOwn_empty (value : Value) : empty.KeepsOwn value := fun _ _ => rfl

theorem documentKey?_isSome (value : Value) :
    (documentKey? value).isSome = (value.getD "_id").isTruthy := by
  unfold documentKey? Value.getD
  cases value.get? "_id" with
  | none => rfl
  | some id =>
    cases htruthy : id.isTruthy with
    | false =>
      show (do guard (id.isTruthy = true); _ : Option String).isSome = id.isTruthy
      rw [htruthy]
      rfl
    | true =>
      show (do guard (id.isTruthy = true); _ : Option String).isSome = id.isTruthy
      rw [htruthy]
      cases id <;> rfl

/-- `references()` looks among the references of a document that has an id to keep them under. -/
theorem refersTo_eq {c : Context} {value : Value} (h : c.KeepsOwn value) (ids : List Value) :
    (c.refersTo value ids).1 = ((value.getD "_id").isTruthy &&
      (findReferences value).any fun r => ids.any fun id => id.asString? == some r.id) := by
  rw [← documentKey?_isSome]
  unfold refersTo
  cases hkey : documentKey? value with
  | none => rfl
  | some key =>
    show (c.referencesOf key value).1.any _ = _
    rw [h key hkey]
    rfl

end Context

namespace Clause

/-- The strings among the arguments of `references()`, as the store and as the engine list them. -/
theorem idsOf_eq_filterMap (values : List Value) :
    values.flatMap idsOf = (Builtin.referenceIds values).filterMap Value.asString? := by
  rw [Builtin.referenceIds, List.filterMap_flatMap]
  refine congrArg (values.flatMap ·) (funext fun v => ?_)
  cases v <;> rfl

theorem lookup_id (r : Reference) : Selector.lookup r.toJson "id" = some (.str r.id) := by
  have hsplit : (Path.parse "id").segments = ["id"] := by decide +kernel
  rw [Selector.lookup, hsplit]
  rfl

theorem matchesElement_id (id : String) (r : Reference) :
    Selector.matchesElement (on "id" (.str id)) r.toJson = .ok (r.id == id) := by
  have hop : Selector.isOperatorDocument (on "id" (.str id)) = false := by
    simp [Selector.isOperatorDocument, on]
  unfold Selector.matchesElement
  rw [hop]
  show Selector.accepts (on "id" (.str id)) r.toJson = _
  rw [Selector.accepts_on (by decide), Selector.meets_value (by simp), lookup_id, selector_holds_eq]
  rfl

/-- What is asked of the references of a stored document is asked of those found in it. -/
theorem accepts_anyReference {element : Json} {p : Reference → Bool}
    (h : ∀ r : Reference, Selector.matchesElement element r.toJson = .ok (p r))
    (fields : Fields Json) :
    Selector.accepts (on referencesField (on "$elemMatch" element)) (Collection.stored fields) =
      .ok (((Value.ofJson (Collection.unstored (Collection.stored fields)).1).getD "_id").isTruthy &&
        (findReferences (Value.ofJson (Collection.unstored (Collection.stored fields)).1)).any
          p) := by
  have hsplit : (Path.parse referencesField).segments = [referencesField] := by decide +kernel
  have hlookup : Selector.lookup (Collection.stored fields) referencesField =
      (Collection.stored fields).get? referencesField := by
    rw [Selector.lookup, hsplit]
    exact bind_pure _
  rw [Selector.accepts_on (by decide), hlookup, Collection.get?_stored_references]
  split
  · next htruthy =>
    rw [htruthy, Bool.true_and, Reference.listToJson, Selector.meets_elemMatch fun r _ => h r]
  · next htruthy =>
    rw [Selector.meets_elemMatch_of_not_array (by simp)]
    simp [htruthy]

/-- A stored document refers to an id if one of its references does. -/
theorem accepts_refersTo (id : String) (fields : Fields Json) :
    Selector.accepts (refersTo id) (Collection.stored fields) =
      .ok (((Value.ofJson (Collection.unstored (Collection.stored fields)).1).getD "_id").isTruthy &&
        (findReferences (Value.ofJson (Collection.unstored (Collection.stored fields)).1)).any
          fun r => r.id == id) :=
  accepts_anyReference (matchesElement_id id) fields

theorem acceptsAny_refersTo (ids : List String) (fields : Fields Json) :
    Selector.acceptsAny (ids.map refersTo) (Collection.stored fields) =
      .ok (ids.any fun id =>
        ((Value.ofJson (Collection.unstored (Collection.stored fields)).1).getD "_id").isTruthy &&
          (findReferences (Value.ofJson (Collection.unstored (Collection.stored fields)).1)).any
            fun r => r.id == id) :=
  Selector.acceptsAny_map fun id _ => accepts_refersTo id fields

theorem judge_references (arguments : List Operation) (fields : Fields Json) :
    ∃ x, (references arguments).judge (Collection.stored fields) = .ok x := by
  unfold references
  cases Operation.literals? arguments with
  | none => exact ⟨true, rfl⟩
  | some values =>
    dsimp only
    split
    · exact ⟨false, rfl⟩
    · rw [judge_exactly, Selector.accepts_or, acceptsAny_refersTo]
      exact ⟨_, rfl⟩

theorem describes_references {arguments : List Operation} {values : List Value}
    (hvalues : ∀ vs, Operation.literals? arguments = some vs → values = vs)
    {fields : Fields Json} {subject : Value}
    (hsubject : subject = Value.ofJson (Collection.unstored (Collection.stored fields)).1)
    {context : Context} (hown : context.KeepsOwn subject) :
    (references arguments).Describes (Collection.stored fields)
      (.bool (context.refersTo subject (Builtin.referenceIds values)).1) := by
  unfold references
  cases hliterals : Operation.literals? arguments with
  | none => exact describes_unknown _ _
  | some vs =>
    obtain rfl := hvalues vs hliterals
    have hids := idsOf_eq_filterMap values
    rw [Context.refersTo_eq hown]
    dsimp only
    split
    · next hnone =>
      -- no argument is a string, so none is the id of a reference
      have hnever : ∀ id ∈ Builtin.referenceIds values, id.asString? = none := by
        simpa [hids] using hnone
      have hfalse : ((findReferences subject).any fun r =>
          (Builtin.referenceIds values).any fun id => id.asString? == some r.id) = false := by
        rw [List.any_eq_false]
        intro r _
        rw [Bool.not_eq_true, List.any_eq_false]
        intro id hid
        simp [hnever id hid]
      rw [hfalse, Bool.and_false]
      exact describes_const false _
    · refine describes_exactly
        ((Selector.accepts_or _ _).trans (acceptsAny_refersTo (values.flatMap idsOf) fields)) ?_
      rw [hids, ← hsubject, Value.bool.injEq, Bool.and_eq_true, List.any_eq_true, List.any_eq_true]
      constructor
      · rintro ⟨htruthy, r, hr, hany⟩
        obtain ⟨id, hid, heq⟩ := List.any_eq_true.mp hany
        refine ⟨r.id, List.mem_filterMap.mpr ⟨id, hid, by simpa using heq⟩, ?_⟩
        rw [htruthy, Bool.true_and, List.any_eq_true]
        exact ⟨r, hr, by simp⟩
      · rintro ⟨name, hname, hboth⟩
        obtain ⟨htruthy, hany⟩ := Bool.and_eq_true_iff.mp hboth
        obtain ⟨r, hr, heq⟩ := List.any_eq_true.mp hany
        obtain ⟨id, hid, hstring⟩ := List.mem_filterMap.mp hname
        obtain rfl : r.id = name := by simpa using heq
        exact ⟨htruthy, r, hr, List.any_eq_true.mpr ⟨id, hid, by simpa using hstring⟩⟩

end Clause
end DocQuery
