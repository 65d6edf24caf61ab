import DocQuery.Plan.Operation

/-!
# Plans that equal themselves

Plans are compared as trees, and their literals as values (`Operation.same`). A NaN differs from
itself, and so does every plan that holds one. It is the only thing that does: **a plan equals itself
exactly if there is no NaN in it** (`Operation.same_self`). JSON has no NaN, so none can be written in
the text of a query; a syntax tree may have one.
-/

set_option autoImplicit false

namespace DocQuery

theorem Double.equal_self (d : Double) : d.equal d = !d.isNaN := by
  cases h : d.isNaN <;> simp [equal, compare?, h]

namespace Value

mutual

/-- Whether there is a NaN in a value. -/
def hasNaN : Value → Bool
  | float d => d.isNaN
  | array items => itemsHaveNaN items
  | object fields => fieldsHaveNaN fields
  | null | bool _ | int _ | string _ | path _ => false

def itemsHaveNaN : List Value → Bool
  | [] => false
  | v :: vs => hasNaN v || itemsHaveNaN vs

def fieldsHaveNaN : List (String × Value) → Bool
  | [] => false
  | (_, v) :: fs => hasNaN v || fieldsHaveNaN fs

end

mutual

theorem same_self : ∀ v : Value, v.same v = !v.hasNaN
  | null => rfl
  | bool _ | int _ | string _ | path _ => by
    rw [same]
    exact beq_self_eq_true _
  | float d => Double.equal_self d
  | array vs => sameItems_self vs
  | object fs => sameFields_self fs

theorem sameItems_self : ∀ vs : List Value, sameItems vs vs = !itemsHaveNaN vs
  | [] => rfl
  | v :: vs => by
    rw [sameItems, same_self v, sameItems_self vs, itemsHaveNaN, Bool.not_or]

theorem sameFields_self : ∀ fs : List (String × Value), sameFields fs fs = !fieldsHaveNaN fs
  | [] => rfl
  | (name, v) :: fs => by
    rw [sameFields, beq_self_eq_true, Bool.true_and, same_self v, sameFields_self fs,
      fieldsHaveNaN, Bool.not_or]

end

end Value

namespace Operation

mutual

/-- Whether there is a NaN among the literals of an operation. -/
def hasNaN : Operation → Bool
  | literal v => v.hasNaN
  | filter o | not o | assignment _ o | sortDirection (.mk o _) => hasNaN o
  | binary _ lhs rhs | range lhs rhs _ => hasNaN lhs || hasNaN rhs
  | object members => membersHaveNaN members
  | ordering terms => termsHaveNaN terms
  | array os | call _ os | pipe os _ | mapJoin os => anyHasNaN os
  | source _ | accessor _ | splat | subscript _ => false

def anyHasNaN : List Operation → Bool
  | [] => false
  | o :: os => hasNaN o || anyHasNaN os

def membersHaveNaN : List Member → Bool
  | [] => false
  | .assignment _ o :: ms => hasNaN o || membersHaveNaN ms
  | .splat :: ms => membersHaveNaN ms

def termsHaveNaN : List SortTerm → Bool
  | [] => false
  | .mk o _ :: ts => hasNaN o || termsHaveNaN ts

end

mutual

theorem same_self : ∀ o : Operation, o.same o = !o.hasNaN
  | literal v => Value.same_self v
  | filter o | not o => same_self o
  | assignment name o => by
    rw [same, beq_self_eq_true, Bool.true_and, same_self o, hasNaN]
  | sortDirection (.mk o d) => by
    rw [same, beq_self_eq_true, Bool.and_true, same_self o, hasNaN]
  | binary op lhs rhs | range lhs rhs op => by
    simp only [same, hasNaN, beq_self_eq_true, same_self lhs, same_self rhs, Bool.true_and,
      Bool.and_true, Bool.not_or]
  | object members => sameMembers_self members
  | ordering terms => sameTerms_self terms
  | array os | mapJoin os => sameAll_self os
  | call function os => by
    rw [same, beq_self_eq_true, Bool.true_and, sameAll_self os, hasNaN]
  | pipe os name => by
    rw [same, beq_self_eq_true, Bool.and_true, sameAll_self os, hasNaN]
  | source _ | accessor _ | subscript _ => by
    rw [same]
    exact beq_self_eq_true _
  | splat => rfl

theorem sameAll_self : ∀ os : List Operation, sameAll os os = !anyHasNaN os
  | [] => rfl
  | o :: os => by
    rw [sameAll, same_self o, sameAll_self os, anyHasNaN, Bool.not_or]

theorem sameMembers_self : ∀ ms : List Member, sameMembers ms ms = !membersHaveNaN ms
  | [] => rfl
  | .assignment name o :: ms => by
    rw [sameMembers, beq_self_eq_true, Bool.true_and, same_self o, sameMembers_self ms,
      membersHaveNaN, Bool.not_or]
  | .splat :: ms => sameMembers_self ms

theorem sameTerms_self : ∀ ts : List SortTerm, sameTerms ts ts = !termsHaveNaN ts
  | [] => rfl
  | .mk o d :: ts => by
    rw [sameTerms, beq_self_eq_true, Bool.and_true, same_self o, sameTerms_self ts, termsHaveNaN,
      Bool.not_or]

end

end Operation
end DocQuery
