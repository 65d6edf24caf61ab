import DocQuery.Proofs.Value.Comparison
import DocQuery.Store.Pushdown

/-!
# Literals on the left

A selector has its field on the left. Where a filter has a literal there, the two change sides and
the operator is flipped (`Clause.compare_flipped`). The engine compares what it is given, so the two
give one answer only if nothing that compares values knows left from right: loose equality, the loose
order, and the operators made of these (`Operator.comparisons_mirror`).
-/

set_option autoImplicit false

namespace DocQuery

namespace Clause

/-- A literal on the left changes sides. -/
theorem compare_flipped {op : BinaryOp} (h : Operator.isComparison op = true) {lhs rhs : Operation}
    {v : Value} (hlhs : Operand.ofOperation lhs = .value v) :
    compare op.flipped rhs lhs = compare op lhs rhs := by
  unfold compare
  rw [hlhs]
  cases Operand.ofOperation rhs with
  | field field => rfl
  | value w =>
    show decided op.flipped w v = decided op v w
    unfold decided
    rw [Operator.apply_flipped h]
  | other => rfl

end Clause

namespace Operator

/-- **Loose equality is symmetric, the loose order turns around and is equal where loose equality
holds, and a comparison is its flipped one with the operands exchanged**, for the engine and for the
clause of a literal on the left. -/
theorem comparisons_mirror (a b : Value) :
    a.looseEq b = b.looseEq a ∧ b.looseCompare a = (a.looseCompare b).map Ordering.swap ∧
      (a.looseEq b = true ↔ a.looseCompare b = some .eq) ∧
      ∀ op, isComparison op = true → apply op a b = apply op.flipped b a ∧
        ∀ lhs rhs, Operand.ofOperation lhs = .value a →
          Clause.compare op lhs rhs = Clause.compare op.flipped rhs lhs := by
  refine ⟨Value.looseEq_comm b a, Value.looseCompare_swap a b, ?_, fun op hop => ⟨?_, ?_⟩⟩
  · rw [Value.looseEq_eq_looseCompare, beq_iff_eq]
  · exact (apply_flipped hop a b).symm
  · intro lhs rhs hlhs
    exact (Clause.compare_flipped hop hlhs).symm

/-- An integer that no double is, and the text of the double next to it. -/
theorem comparisons_mirror_text :
    let a := Value.int 9007199254740993
    let b := Value.string "9007199254740992.0"
    isComparison .lte = true ∧ Operand.ofOperation (.literal a) = .value a ∧
      b.looseCompare a = (a.looseCompare b).map Ordering.swap ∧ a.looseCompare b = some .gt ∧
      apply .lte a b = apply .gte b a ∧ apply .lte a b = .ok (.bool false) ∧
      Clause.compare .lte (.literal a) (.attr "x") =
        Clause.compare .gte (.attr "x") (.literal a) := by
  intro a b
  obtain ⟨-, hswap, -, hops⟩ := comparisons_mirror a b
  obtain ⟨happly, hclause⟩ := hops .lte rfl
  have hgt : a.looseCompare b = some .gt := by decide +kernel
  have hfalse : apply .lte a b = .ok (.bool false) := by
    show Except.ok (truth ((a.looseCompare b).map (·.isLE))) = _
    rw [hgt]
    rfl
  exact ⟨rfl, rfl, hswap, hgt, happly, hfalse, hclause (.literal a) (.attr "x") rfl⟩

end Operator
end DocQuery
