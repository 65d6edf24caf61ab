import DocQuery.Operator

/-!
# What operators fail with

Only membership can fail, and its error is about the type of an operand (`Operator.isOfType_of_apply`).
-/

set_option autoImplicit false

namespace DocQuery

namespace ExecError

/-- The errors that a query can run into. The others would be mistakes in how its plan is put
together or run. -/
def isOrdinary : ExecError → Bool
  | .unknownSource _ | .notASource => false
  | _ => true

/-- Whether an error is about the type of an operand of a membership. -/
def isOfType : ExecError → Bool
  | .inOperand _ | .pathCandidate _ => true
  | _ => false

theorem isOrdinary_of_isOfType {e : ExecError} (h : e.isOfType = true) : e.isOrdinary = true := by
  cases e with
  | inOperand _ | pathCandidate _ => rfl
  | _ => cases h

end ExecError

namespace Operator

theorem isOfType_of_inPattern {pattern : Path} {v : Value} {e : ExecError}
    (h : inPattern pattern v = .error e) : e.isOfType = true := by
  cases v with
  | string _ | path _ => cases h
  | _ =>
    cases h
    rfl

theorem isOfType_of_inItems {v : Value} {items : List Value} {e : ExecError}
    (h : inItems v items = .error e) : e.isOfType = true := by
  induction items with
  | nil => cases h
  | cons c rest ih =>
    rw [inItems.eq_def] at h
    dsimp only at h
    cases heq : v.looseEq c with
    | true =>
      rw [heq] at h
      cases h
    | false =>
      rw [heq] at h
      cases c with
      | path pattern =>
        change (do if ← inPattern pattern v then return true else inItems v rest) = _ at h
        cases hin : inPattern pattern v with
        | error e' =>
          rw [hin] at h
          cases h
          exact isOfType_of_inPattern hin
        | ok b =>
          rw [hin] at h
          cases b with
          | true => cases h
          | false => exact ih h
      | _ => exact ih h

theorem isOfType_of_membership {a b : Value} {e : ExecError} (h : membership a b = .error e) :
    e.isOfType = true := by
  unfold membership at h
  split at h
  · cases h
  · cases b with
    | array items =>
      change (inItems a items).map Value.bool = _ at h
      cases hin : inItems a items with
      | error e' =>
        rw [hin] at h
        cases h
        exact isOfType_of_inItems hin
      | ok x =>
        rw [hin] at h
        cases h
    | path pattern =>
      change (inPattern pattern a).map Value.bool = _ at h
      cases hin : inPattern pattern a with
      | error e' =>
        rw [hin] at h
        cases h
        exact isOfType_of_inPattern hin
      | ok x =>
        rw [hin] at h
        cases h
    | _ =>
      cases h
      rfl

theorem isOfType_of_apply {op : BinaryOp} {a b : Value} {e : ExecError}
    (h : apply op a b = .error e) : e.isOfType = true := by
  cases op with
  | member => exact isOfType_of_membership h
  | _ => cases h

theorem isOrdinary_apply {op : BinaryOp} {a b : Value} {e : ExecError}
    (h : apply op a b = .error e) : e.isOrdinary = true :=
  ExecError.isOrdinary_of_isOfType (isOfType_of_apply h)

end Operator
end DocQuery
