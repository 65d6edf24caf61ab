import DocQuery.Operator

/-!
# Three-valued connectives

When `and` and `or` are exactly `true` and exactly `false`, and what they are when one operand
decides.
-/

set_option autoImplicit false

namespace DocQuery

namespace Operator

theorem conjunction_eq_true {v w : Value} :
    conjunction v w = .bool true ↔ v = .bool true ∧ w = .bool true := by
  constructor
  · intro h
    cases v with
    | bool a =>
      cases w with
      | bool b => cases a <;> cases b <;> simp_all [conjunction]
      | _ => cases a <;> simp [conjunction] at h
    | _ =>
      cases w with
      | bool b => cases b <;> simp [conjunction] at h
      | _ => simp [conjunction] at h
  · rintro ⟨rfl, rfl⟩
    rfl

theorem conjunction_false_right (v : Value) : conjunction v (.bool false) = .bool false := by
  cases v with
  | bool a => cases a <;> rfl
  | _ => rfl

theorem conjunction_eq_false {v w : Value} :
    conjunction v w = .bool false ↔ v = .bool false ∨ w = .bool false := by
  constructor
  · intro h
    cases v with
    | bool a =>
      cases w with
      | bool b => cases a <;> cases b <;> simp_all [conjunction]
      | _ => cases a <;> simp_all [conjunction]
    | _ =>
      cases w with
      | bool b => cases b <;> simp_all [conjunction]
      | _ => simp [conjunction] at h
  · rintro (rfl | rfl)
    · rfl
    · exact conjunction_false_right v

theorem disjunction_eq_true {v w : Value} :
    disjunction v w = .bool true ↔ v = .bool true ∨ w = .bool true := by
  constructor
  · intro h
    cases v with
    | bool a =>
      cases w with
      | bool b => cases a <;> cases b <;> simp_all [disjunction]
      | _ => cases a <;> simp_all [disjunction]
    | _ =>
      cases w with
      | bool b => cases b <;> simp_all [disjunction]
      | _ => simp [disjunction] at h
  · rintro (rfl | rfl)
    · rfl
    · cases v with
      | bool a => cases a <;> rfl
      | _ => rfl

theorem disjunction_eq_false {v w : Value} :
    disjunction v w = .bool false ↔ v = .bool false ∧ w = .bool false := by
  constructor
  · intro h
    cases v with
    | bool a =>
      cases w with
      | bool b => cases a <;> cases b <;> simp_all [disjunction]
      | _ => cases a <;> simp [disjunction] at h
    | _ =>
      cases w with
      | bool b => cases b <;> simp [disjunction] at h
      | _ => simp [disjunction] at h
  · rintro ⟨rfl, rfl⟩
    rfl

theorem negation_eq_bool {v : Value} {b : Bool} : negation v = .bool b ↔ v = .bool !b := by
  cases v with
  | bool a => cases a <;> cases b <;> simp [negation]
  | _ => simp [negation]

theorem negation_eq_true {v : Value} (h : negation v = .bool true) : v = .bool false :=
  negation_eq_bool.mp h

end Operator

/-- Being `true` as a filter asks for it. -/
theorem Value.same_true {v : Value} : v.same (.bool true) = true ↔ v = .bool true := by
  cases v <;> simp [same]

end DocQuery
