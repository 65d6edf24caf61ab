import DocQuery.Double.Rounding
import Mathlib.Algebra.Group.Int.Defs
import Mathlib.Algebra.Group.Nat.Defs

/-!
# Integers as doubles

An integer that JSON can hold, one of at most 64 bits, is never rounded to an infinite double
(`isFinite_ofInt`): its quotient by the scale has at most 54 bits, so the magnitude stays far below
that of infinity.
-/

set_option autoImplicit false

namespace DocQuery
namespace Double

variable {num : Nat}

theorem roundToEven_le (num den : Nat) : roundToEven num den ≤ num / den + 1 := by
  unfold roundToEven
  dsimp only
  split <;> omega

/-- The scale leaves a number with 53 bits, or with one more. -/
theorem log2_le_scaleOf (num : Nat) : (Nat.log2 num : Int) ≤ scaleOf num 1 + 53 := by
  have hone : Nat.log2 1 = 0 := by decide
  unfold scaleOf
  rw [hone]
  dsimp only
  split <;> omega

theorem scaleOf_le (hnum : num < 2 ^ 64) : scaleOf num 1 ≤ 11 := by
  have hone : Nat.log2 1 = 0 := by decide
  have hlog : Nat.log2 num ≤ 63 := by
    by_cases hzero : num = 0
    · rw [hzero]
      decide
    · exact Nat.le_of_lt_succ ((Nat.log2_lt hzero).mpr hnum)
  unfold scaleOf
  rw [hone]
  dsimp only
  split <;> omega

theorem scaled_lt {q : Int} (hq : (Nat.log2 num : Int) ≤ q + 53) :
    num * Nat.pow 2 (-q).toNat / (1 * Nat.pow 2 q.toNat) < 2 ^ 54 := by
  rw [Nat.one_mul, Nat.pow_eq, Nat.pow_eq]
  refine Nat.div_lt_of_lt_mul ?_
  calc num * 2 ^ (-q).toNat
      < 2 ^ (Nat.log2 num + 1) * 2 ^ (-q).toNat :=
        Nat.mul_lt_mul_of_pos_right Nat.lt_log2_self (Nat.two_pow_pos _)
    _ = 2 ^ (Nat.log2 num + 1 + (-q).toNat) := (Nat.pow_add 2 _ _).symm
    _ ≤ 2 ^ (q.toNat + 54) := Nat.pow_le_pow_right Nat.two_pos (by omega)
    _ = 2 ^ q.toNat * 2 ^ 54 := Nat.pow_add 2 _ _

/-- An integer of 64 bits has an exponent below that of `2 ^ 68`. -/
theorem roundMagnitude_lt (hnum : num < 2 ^ 64) : roundMagnitude num 1 < 1090 * exponentBit := by
  unfold roundMagnitude
  split
  · decide
  · have hquotient := scaled_lt (log2_le_scaleOf num)
    have hscale := scaleOf_le hnum
    refine Nat.lt_of_le_of_lt (Nat.min_le_right _ _) ?_
    have hround := roundToEven_le (num * Nat.pow 2 (-scaleOf num 1).toNat)
      (1 * Nat.pow 2 (scaleOf num 1).toNat)
    unfold exponentBit
    omega

theorem magnitude_ofMagnitude {m : Nat} (negative : Bool) (hm : m < infinity) :
    (ofMagnitude negative m).magnitude = m := by
  have hsign : m < signBit := Nat.lt_trans hm (by decide)
  unfold magnitude ofMagnitude
  rw [UInt64.toNat_ofNat']
  unfold signBit at hsign ⊢
  cases negative <;> simp <;> omega

theorem magnitude_ofInt_lt {n : Int} (hn : n.natAbs < 2 ^ 64) :
    (ofInt n).magnitude < 1090 * exponentBit := by
  have hlt := roundMagnitude_lt hn
  rw [ofInt, ofRatio, magnitude_ofMagnitude _ (Nat.lt_trans hlt (by decide))]
  exact hlt

theorem isFinite_ofInt {n : Int} (hn : n.natAbs < 2 ^ 64) : (ofInt n).isFinite = true :=
  decide_eq_true (Nat.lt_trans (magnitude_ofInt_lt hn) (by decide))

end Double
end DocQuery
