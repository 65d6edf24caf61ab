import DocQuery.Proofs.Value.Approximation
import DocQuery.Proofs.Value.Comparison
import DocQuery.Proofs.Value.SortKeys

/-!
# Circles of sort keys

The sort order of all keys, doubles among them. It turns around with its arguments
(`compareForSort_swap`), but "not greater" is not transitive: two doubles may become the decimal of
one integer, and then the integer lies between them in either order.

**That is the only circle there is** (`compareForSort_circular`). Every other comparison of numbers
is one of their approximations, or agrees with it: of three keys where the first is not greater than
the second and the second not greater than the third, the first is greater than the third exactly
when they are two doubles, in the wrong order, on both sides of an integer that equals both.
-/

set_option autoImplicit false

namespace DocQuery
namespace Value

/-! ## Exchanged keys -/

theorem compareWithin_swap (a b : Value) : compareWithin b a = (compareWithin a b).swap := by
  have hnumbers : (compareNumbers b a).getD .eq = ((compareNumbers a b).getD .eq).swap := by
    rw [compareNumbers_swap a b]
    cases compareNumbers a b <;> rfl
  cases a <;> cases b
  case string.string s t => exact compareStrings_swap s t
  case bool.bool x y => exact Std.OrientedOrd.eq_swap
  all_goals exact hnumbers

theorem compareForSort_swap (a b : Value) (d : Direction) :
    compareForSort b a d = (compareForSort a b d).swap := by
  unfold compareForSort
  by_cases hrank : a.rank = b.rank
  · rw [if_pos hrank, if_pos hrank.symm, compareWithin_swap a b]
    cases d <;> rfl
  · rw [if_neg hrank, if_neg (Ne.symm hrank)]
    exact Std.OrientedOrd.eq_swap

/-! ## Numbers -/

/-- A key that is no NaN, and of 64 bits if it is an integer. -/
def IsKey : Value → Prop
  | int n => fitsInt64 n = true
  | float d => d.isNaN = false
  | _ => True

/-- The number that a key is compared as with one of the other kind. -/
def approximation : Value → ℚ
  | int n => n
  | float d => d.approximation
  | _ => 0

theorem isLE_compare {α : Type} [LinearOrder α] {a b : α} :
    (compare a b).isLE = true ↔ a ≤ b := by
  rw [← compare_le_iff_le]
  cases compare a b <;> decide

theorem isLE_floats {x y : Double} (hx : x.isNaN = false) (hy : y.isNaN = false) :
    (compareWithin (float x) (float y)).isLE = true ↔ x.rank ≤ y.rank := by
  show ((x.compare? y).getD .eq).isLE = true ↔ _
  rw [Double.compare?, hx, hy]
  exact isLE_compare

/-- Numbers compare as their approximations, unless both are doubles. -/
theorem isLE_numbers {a b : Value} (ha : a.IsKey) (hb : b.IsKey) (hranka : a.rank = 1)
    (hrankb : b.rank = 1) (hint : a.isFloat = false ∨ b.isFloat = false) :
    (compareWithin a b).isLE = true ↔ a.approximation ≤ b.approximation := by
  cases a with
  | int n =>
    cases b with
    | int m =>
      show (compare n m).isLE = true ↔ (n : ℚ) ≤ m
      rw [isLE_compare, Int.cast_le]
    | float y =>
      show ((compareMixed n y).getD .eq).isLE = true ↔ _
      rw [compareMixed_eq ha hb]
      exact isLE_compare
    | _ => cases hrankb
  | float x =>
    cases b with
    | int m =>
      show (((compareMixed m x).map Ordering.swap).getD .eq).isLE = true ↔ _
      rw [compareMixed_eq hb ha]
      show (compare (m : ℚ) x.approximation).swap.isLE = true ↔ _
      rw [← Std.OrientedOrd.eq_swap]
      exact isLE_compare
    | float y => rcases hint with h | h <;> cases h
    | _ => cases hrankb
  | _ => cases hranka

/-- Doubles in order have approximations in order. -/
theorem approximation_le {a b : Value} (ha : a.IsKey) (hb : b.IsKey) (hranka : a.rank = 1)
    (hrankb : b.rank = 1) (h : (compareWithin a b).isLE = true) :
    a.approximation ≤ b.approximation := by
  cases hfloat : a.isFloat with
  | false => exact (isLE_numbers ha hb hranka hrankb (.inl hfloat)).mp h
  | true =>
    cases hfloat' : b.isFloat with
    | false => exact (isLE_numbers ha hb hranka hrankb (.inr hfloat')).mp h
    | true =>
      cases a <;> cases hfloat
      cases b <;> cases hfloat'
      exact Double.approximation_mono ((isLE_floats ha hb).mp h)

/-- Two doubles that become the decimal of the integer between them, the first one the larger. -/
def Between (a b c : Value) : Prop :=
  ∃ x n y, a = float x ∧ b = int n ∧ c = float y ∧ compareMixed n x = some .eq ∧
    compareMixed n y = some .eq ∧ x.compare? y = some .gt

theorem compareWithin_trans {a b c : Value} (ha : a.IsKey) (hb : b.IsKey) (hc : c.IsKey)
    (hranka : a.rank = 1) (hrankb : b.rank = 1) (hrankc : c.rank = 1)
    (hab : (compareWithin a b).isLE = true) (hbc : (compareWithin b c).isLE = true) :
    (compareWithin a c).isLE = true ∨ Between a b c := by
  have hab' := approximation_le ha hb hranka hrankb hab
  have hbc' := approximation_le hb hc hrankb hrankc hbc
  by_cases hint : a.isFloat = false ∨ c.isFloat = false
  · exact .inl ((isLE_numbers ha hc hranka hrankc hint).mpr (hab'.trans hbc'))
  · obtain ⟨hx, hy⟩ := not_or.mp hint
    rw [Bool.not_eq_false] at hx hy
    cases a <;> cases hx
    cases c <;> cases hy
    rename_i x y
    cases b with
    | float z =>
      rw [isLE_floats ha hb] at hab
      rw [isLE_floats hb hc] at hbc
      exact .inl ((isLE_floats ha hc).mpr (hab.trans hbc))
    | int n =>
      rcases le_or_gt x.rank y.rank with hle | hgt
      · exact .inl ((isLE_floats ha hc).mpr hle)
      · -- the smaller double has the larger approximation, so all three are equal
        have hya : y.approximation ≤ x.approximation := Double.approximation_mono hgt.le
        have hxn : (n : ℚ) = x.approximation := le_antisymm (hbc'.trans hya) hab'
        have hny : (n : ℚ) = y.approximation := le_antisymm hbc' (hya.trans hab')
        refine .inr ⟨x, n, y, rfl, rfl, rfl, ?_, ?_, ?_⟩
        · rw [compareMixed_eq hb ha, compare_eq_iff_eq.mpr hxn]
        · rw [compareMixed_eq hb hc, compare_eq_iff_eq.mpr hny]
        · have hnan : x.isNaN = false := ha
          have hnan' : y.isNaN = false := hc
          rw [Double.compare?, hnan, hnan']
          exact congrArg some (compare_gt_iff_gt.mpr hgt)
    | _ => cases hrankb

/-! ## All keys -/

/-- Three keys that run in a circle. -/
def Circular : Direction → Value → Value → Value → Prop
  | .asc, a, b, c => Between a b c
  | .desc, a, b, c => Between c b a

theorem not_isLE_of_between {a b c : Value} (h : Between a b c) :
    (compareWithin a c).isLE = false := by
  obtain ⟨x, n, y, rfl, rfl, rfl, -, -, hgt⟩ := h
  show ((x.compare? y).getD .eq).isLE = false
  rw [hgt]
  rfl

theorem rank_of_between {a b c : Value} (h : Between a b c) : a.rank = c.rank := by
  obtain ⟨x, n, y, rfl, rfl, rfl, -⟩ := h
  rfl

theorem compareForSort_of_circular {a b c : Value} {d : Direction} (h : Circular d a b c) :
    (compareForSort a c d).isLE = false := by
  cases d with
  | asc =>
    rw [compareForSort, if_pos (rank_of_between h)]
    exact not_isLE_of_between h
  | desc =>
    rw [compareForSort, if_pos (rank_of_between h).symm]
    show (compareWithin a c).swap.isLE = false
    rw [← compareWithin_swap]
    exact not_isLE_of_between h

theorem compareForSort_trans {a b c : Value} (ha : a.IsKey) (hb : b.IsKey) (hc : c.IsKey)
    {d : Direction} (hab : (compareForSort a b d).isLE = true)
    (hbc : (compareForSort b c d).isLE = true) :
    (compareForSort a c d).isLE = true ∨ Circular d a b c := by
  have hle : ∀ {u v : Value}, (compareForSort u v d).isLE = true → u.rank ≤ v.rank := by
    intro u v h
    unfold compareForSort at h
    split at h
    · next heq => exact heq.le
    · exact isLE_compare.mp h
  by_cases hrank : a.rank = c.rank
  · have hab' : a.rank = b.rank := le_antisymm (hle hab) (hrank ▸ hle hbc)
    by_cases hnumber : a.rank = 1
    · have hrankb : b.rank = 1 := hab' ▸ hnumber
      have hrankc : c.rank = 1 := hrank ▸ hnumber
      rw [compareForSort, if_pos hab'] at hab
      rw [compareForSort, if_pos (hab'.symm.trans hrank)] at hbc
      rw [compareForSort, if_pos hrank]
      cases d with
      | asc => exact compareWithin_trans ha hb hc hnumber hrankb hrankc hab hbc
      | desc =>
        change (compareWithin a b).swap.isLE = true at hab
        change (compareWithin b c).swap.isLE = true at hbc
        rw [← compareWithin_swap] at hab hbc
        show (compareWithin a c).swap.isLE = true ∨ _
        rw [← compareWithin_swap]
        exact compareWithin_trans hc hb ha hrankc hrankb hnumber hbc hab
    · -- no other rank has doubles
      have hnone : ∀ v : Value, v.rank ≠ 1 → v.isFloat = false := by
        intro v hv
        cases v with
        | float d => exact absurd rfl hv
        | _ => rfl
      exact .inl ((preordered_compareForSort d).trans (hnone a hnumber)
        (hnone b (hab' ▸ hnumber)) (hnone c (hrank ▸ hnumber)) hab hbc)
  · refine .inl ?_
    rw [compareForSort, if_neg hrank]
    exact isLE_compare.mpr ((hle hab).trans (hle hbc))

/-- **The sort order turns around with its arguments, and it is transitive but for circles** of two
doubles and an integer. -/
theorem compareForSort_circular {a b c : Value} (ha : a.IsKey) (hb : b.IsKey) (hc : c.IsKey)
    (d : Direction) : compareForSort b a d = (compareForSort a b d).swap ∧
      ((compareForSort a b d).isLE = true → (compareForSort b c d).isLE = true →
        ((compareForSort a c d).isLE = true ↔ ¬Circular d a b c)) := by
  refine ⟨compareForSort_swap a b d, fun hab hbc => ⟨fun hac hcircular => ?_, fun hnone => ?_⟩⟩
  · rw [compareForSort_of_circular hcircular] at hac
    cases hac
  · exact (compareForSort_trans ha hb hc hab hbc).resolve_right hnone

/-- One half, one, and one and a half run in no circle. -/
theorem compareForSort_circular_halves :
    IsKey (float ⟨0x3FE0000000000000⟩) ∧ IsKey (int 1) ∧ IsKey (float ⟨0x3FF8000000000000⟩) ∧
      ¬Circular .asc (float ⟨0x3FE0000000000000⟩) (int 1) (float ⟨0x3FF8000000000000⟩) := by
  have hhalf : IsKey (float ⟨0x3FE0000000000000⟩) :=
    (by decide +kernel : Double.isNaN ⟨0x3FE0000000000000⟩ = false)
  have hone : IsKey (int 1) := (by decide : fitsInt64 1 = true)
  have hmore : IsKey (float ⟨0x3FF8000000000000⟩) :=
    (by decide +kernel : Double.isNaN ⟨0x3FF8000000000000⟩ = false)
  exact ⟨hhalf, hone, hmore, ((compareForSort_circular hhalf hone hmore .asc).2
    (by decide +kernel) (by decide +kernel)).mp (by decide +kernel)⟩

/-- `1.0000000000000002`, `1` and `1.0` run in a circle: an ascending sort leaves them as they are,
with the largest in front. -/
theorem compareForSort_circle :
    (compareForSort (float ⟨0x3FF0000000000001⟩) (int 1) .asc).isLE = true ∧
      (compareForSort (int 1) (float ⟨0x3FF0000000000000⟩) .asc).isLE = true ∧
      compareForSort (float ⟨0x3FF0000000000001⟩) (float ⟨0x3FF0000000000000⟩) .asc = .gt ∧
      (sortByKeys [.asc] [([float ⟨0x3FF0000000000001⟩], "1.0000000000000002"), ([int 1], "1"),
        ([float ⟨0x3FF0000000000000⟩], "1.0")]).map (·.2) =
          ["1.0000000000000002", "1", "1.0"] := by
  decide +kernel

end Value
end DocQuery
