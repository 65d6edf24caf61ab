import DocQuery.Operator

/-!
# Exchanging the operands of a comparison

The store compares a field with a literal, the engine whatever stands left with whatever stands
right. Both give one answer: numbers compare the other way round when they are exchanged
(`compareNumbers_swap`), so the loose order turns around, loose equality is symmetric, and an
operator with its operands exchanged is its `flipped` one (`Operator.apply_flipped`).
-/

set_option autoImplicit false

namespace DocQuery

/-- The order of strings is the library's own, so its laws are at hand. -/
theorem compareStrings_eq_compare : compareStrings = compare := rfl

theorem compareStrings_swap (s t : String) : compareStrings t s = (compareStrings s t).swap := by
  rw [compareStrings_eq_compare]
  exact Std.OrientedOrd.eq_swap

theorem beq_eq_compareStrings (s t : String) : (s == t) = (compareStrings s t == .eq) := by
  rw [compareStrings_eq_compare, Bool.eq_iff_iff, beq_iff_eq, beq_iff_eq, Std.compare_eq_iff_eq]

theorem Double.compare?_swap (a b : Double) :
    b.compare? a = (a.compare? b).map Ordering.swap := by
  unfold Double.compare?
  rw [Bool.or_comm]
  split
  · rfl
  · exact congrArg some Std.OrientedOrd.eq_swap

namespace Value

/-! ## Order -/

theorem compareNumbers_swap (a b : Value) :
    compareNumbers b a = (compareNumbers a b).map Ordering.swap := by
  cases a with
  | int n =>
    cases b with
    | int m => exact congrArg some Std.OrientedOrd.eq_swap
    | _ => rfl
  | float d =>
    cases b with
    | int m =>
      show compareMixed m d = ((compareMixed m d).map Ordering.swap).map Ordering.swap
      rcases compareMixed m d with _ | _ | _ | _ <;> rfl
    | float e => exact Double.compare?_swap d e
    | _ => rfl
  | _ => cases b <;> rfl

theorem compareCoerced_swap (a b : Value) :
    compareCoerced b a = (compareCoerced a b).map Ordering.swap := by
  unfold compareCoerced
  cases a.asNumber? with
  | none => cases b.asNumber? <;> rfl
  | some x =>
    cases b.asNumber? with
    | none => rfl
    | some y => exact compareNumbers_swap x y

theorem looseCompare_swap (a b : Value) :
    b.looseCompare a = (a.looseCompare b).map Ordering.swap := by
  cases a <;> cases b
  case string.string s t => exact congrArg some (compareStrings_swap s t)
  case path.path p q => exact congrArg some (compareStrings_swap p.text q.text)
  all_goals first | rfl | exact compareCoerced_swap _ _

/-! ## Equality -/

/-- Two booleans are read as numbers to be ordered, but not to be equal: it makes no difference. -/
theorem beq_eq_compareCoerced (x y : Bool) :
    (x == y) = (compareCoerced (bool x) (bool y) == some .eq) := by
  cases x <;> cases y <;> rfl

theorem looseEq_eq_looseCompare (a b : Value) : a.looseEq b = (a.looseCompare b == some .eq) := by
  cases a <;> cases b
  case string.string s t => exact beq_eq_compareStrings s t
  case path.path p q => exact beq_eq_compareStrings p.text q.text
  case bool.bool x y => exact beq_eq_compareCoerced x y
  all_goals rfl

theorem looseEq_comm (a b : Value) : b.looseEq a = a.looseEq b := by
  rw [looseEq_eq_looseCompare, looseEq_eq_looseCompare, looseCompare_swap a b]
  rcases a.looseCompare b with _ | _ | _ | _ <;> rfl

theorem equals_comm (a b : Value) : b.equals a = a.equals b := by
  unfold equals
  rw [Bool.or_comm, looseEq_comm]

@[simp] theorem looseEq_null (a : Value) : a.looseEq null = false := by
  cases a <;> rfl

@[simp] theorem null_looseEq (a : Value) : null.looseEq a = false := rfl

end Value

namespace Operator

theorem same_truth_equals (a b : Value) : (truth (a.equals b)).same (.bool true) = a.looseEq b := by
  unfold Value.equals
  cases ha : a.isNull || b.isNull with
  | true =>
    rcases Bool.or_eq_true_iff.mp ha with h | h
    · cases a <;> first | rfl | cases h
    · cases b <;> first | exact (Value.looseEq_null a).symm | cases h
  | false =>
    show (Value.bool (a.looseEq b)).same (.bool true) = _
    cases a.looseEq b <;> rfl

/-- An operator holds where its value is exactly `true`. -/
theorem holds_of_apply {op : BinaryOp} {a b v : Value} (h : apply op a b = .ok v) :
    holds op a b = v.same (.bool true) := by
  unfold holds
  rw [h]
  cases v with
  | bool x => cases x <;> rfl
  | _ => rfl

/-- The operators whose operands may change sides. -/
def isComparison : BinaryOp → Bool
  | .eq | .neq | .lt | .lte | .gt | .gte => true
  | .and | .or | .member | .textMatch => false

theorem apply_flipped {op : BinaryOp} (h : isComparison op = true) (a b : Value) :
    apply op.flipped b a = apply op a b := by
  cases op with
  | eq => exact congrArg (fun e => Except.ok (truth e)) (Value.equals_comm a b)
  | neq => exact congrArg (fun e => Except.ok (truth (e.map (!·)))) (Value.equals_comm a b)
  | lt | lte | gt | gte =>
    unfold BinaryOp.flipped apply
    rw [Value.looseCompare_swap a b]
    rcases a.looseCompare b with _ | _ | _ | _ <;> rfl
  | and | or | member | textMatch => simp [isComparison] at h

end Operator
end DocQuery
