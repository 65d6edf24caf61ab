import DocQuery.Proofs.Value.Decimals
import DocQuery.Proofs.Value.Rounding
import DocQuery.Value.Compare

/-!
# Doubles as decimals

The number that a double is compared as with an integer (`Double.approximation`): that of its
decimal, or one beyond all integers of 64 bits. **It grows with the double**, if not strictly
(`approximation_mono`), and **it decides every comparison with an integer** (`compareMixed_eq`).

Doubles of different size differ by one part in `2 ^ 53` at least (`size_le`), which is more than
the conversion to a decimal loses before it sheds digits.
-/

set_option autoImplicit false

namespace DocQuery
namespace Double

/-! ## The size of a double -/

theorem significand_lt (d : Double) : d.significand < 2 ^ 53 := by
  unfold significand exponentBit
  split <;> omega

theorem le_exponent (d : Double) : -1074 ≤ d.exponent := by
  unfold exponent exponentBit
  split <;> omega

/-- Only the smallest doubles have a significand of less than 53 bits. -/
theorem le_significand {d : Double} (h : -1074 < d.exponent) : 2 ^ 52 ≤ d.significand := by
  unfold exponent at h
  unfold significand exponentBit at *
  split <;> omega

/-- The bits of a double, by its exponent and its significand. -/
theorem magnitude_eq (d : Double) :
    (d.magnitude : Int) = (d.exponent + 1074) * exponentBit + d.significand := by
  unfold exponent significand exponentBit
  split <;> omega

theorem exponent_le {a b : Double} (h : a.magnitude < b.magnitude) : a.exponent ≤ b.exponent := by
  have ha := magnitude_eq a
  have hb := magnitude_eq b
  have hlt := significand_lt b
  by_contra hgt
  have hle := le_significand (d := a) (by have := le_exponent b; omega)
  unfold exponentBit at ha hb
  omega

/-- The number a finite double is, without its sign. -/
def size (d : Double) : ℚ := d.significand * 2 ^ d.exponent

/-- A smaller double is smaller by one part in `2 ^ 53` at least. -/
theorem size_le {a b : Double} (h : a.magnitude < b.magnitude) :
    a.size ≤ b.size * (1 - 1 / 2 ^ 53) := by
  have ha := magnitude_eq a
  have hb := magnitude_eq b
  have hlt : (b.significand : ℚ) ≤ 2 ^ 53 := by
    exact_mod_cast (significand_lt b).le
  unfold size
  rcases (exponent_le h).lt_or_eq with hexponent | hexponent
  · have hle : (2 ^ 52 : ℚ) ≤ b.significand := by
      exact_mod_cast le_significand (d := b) (by have := le_exponent a; omega)
    have hlt' : (a.significand : ℚ) + 1 ≤ 2 ^ 53 := by
      exact_mod_cast significand_lt a
    have hpow : (2 : ℚ) ^ a.exponent * 2 ≤ 2 ^ b.exponent := by
      rw [← zpow_add_one₀ (by norm_num)]
      exact zpow_le_zpow_right₀ (by norm_num) hexponent
    have hpos : (0 : ℚ) < 2 ^ a.exponent := by positivity
    have hpos' : (0 : ℚ) < 2 ^ b.exponent := by positivity
    calc (a.significand : ℚ) * 2 ^ a.exponent ≤ (2 ^ 53 - 1) * 2 ^ a.exponent := by
          gcongr
          linarith
      _ ≤ (2 ^ 52 - 1 / 2) * 2 ^ b.exponent := by linarith
      _ ≤ b.significand * (1 - 1 / 2 ^ 53) * 2 ^ b.exponent := by
          gcongr
          linarith
      _ = b.significand * 2 ^ b.exponent * (1 - 1 / 2 ^ 53) := by ring
  · have hless : (a.significand : ℚ) + 1 ≤ b.significand := by
      have hnat : a.significand + 1 ≤ b.significand := by
        rw [hexponent] at ha
        omega
      exact_mod_cast hnat
    rw [hexponent]
    calc (a.significand : ℚ) * 2 ^ b.exponent
        ≤ b.significand * (1 - 1 / 2 ^ 53) * 2 ^ b.exponent := by
          gcongr
          linarith
      _ = b.significand * 2 ^ b.exponent * (1 - 1 / 2 ^ 53) := by ring

/-! ## Approximations -/

/-- The number a double is compared as with an integer: that of its decimal. -/
def approximation (d : Double) : ℚ :=
  match Decimal.ofDouble? d with
  | some decimal => decimal.toRat
  | none => if d.negative then -2 ^ 96 else 2 ^ 96

/-- That number, without its sign. -/
def nearness (d : Double) : ℚ :=
  if d.isFinite then Decimal.nearby d.significand d.exponent else 2 ^ 96

theorem approximation_eq (d : Double) :
    d.approximation = if d.negative then -d.nearness else d.nearness := by
  unfold approximation nearness Decimal.ofDouble? Decimal.nearby
  cases d.isFinite with
  | false => rfl
  | true =>
    simp only [if_true]
    cases hs : Decimal.ofScaled? d.significand d.exponent with
    | none => rfl
    | some s =>
      have hroom : d.significand < Decimal.capacity := d.significand_lt.trans (by decide)
      have hexponent := Decimal.exponent_of_ofScaled? hroom hs
      obtain ⟨c, e⟩ := s
      obtain ⟨k, rfl⟩ : ∃ k : Nat, e = -(k : Int) := ⟨e.natAbs, by dsimp only at hexponent; omega⟩
      have hplaces : (-(-(k : Int))).toNat = k := by omega
      show Decimal.toRat ⟨if d.negative then -(c : Int) else c, (-(-(k : Int))).toNat⟩ = _
      dsimp only
      rw [Decimal.value_mk_neg, hplaces, Decimal.toRat]
      cases d.negative with
      | false => simp
      | true => simp [neg_div]

theorem nearness_nonneg (d : Double) : 0 ≤ d.nearness := by
  unfold nearness
  split
  · exact Decimal.nearby_nonneg _ _
  · norm_num

theorem nearness_zero {d : Double} (h : d.magnitude = 0) : d.nearness = 0 := by
  have hsignificand : d.significand = 0 := by
    unfold significand exponentBit
    rw [h]
    rfl
  have hfinite : d.isFinite = true := by
    unfold isFinite
    rw [h]
    rfl
  rw [nearness, hfinite, hsignificand]
  exact Decimal.nearby_zero d.le_exponent

theorem nearness_mono {a b : Double} (h : a.magnitude ≤ b.magnitude) :
    a.nearness ≤ b.nearness := by
  rcases h.lt_or_eq with hlt | heq
  · cases hb : b.isFinite with
    | true =>
      have ha : a.isFinite = true :=
        decide_eq_true (lt_of_lt_of_le hlt (of_decide_eq_true hb).le)
      rw [nearness, nearness, ha, hb]
      exact Decimal.nearby_mono a.significand_lt b.significand_lt a.le_exponent b.le_exponent
        (size_le hlt)
    | false =>
      rw [nearness, nearness, hb]
      split
      · exact Decimal.nearby_le a.significand_lt a.le_exponent
      · exact le_rfl
  · unfold nearness isFinite significand exponent
    rw [heq]

/-- **A larger double is not compared as a smaller number.** -/
theorem approximation_mono {a b : Double} (h : a.rank ≤ b.rank) :
    a.approximation ≤ b.approximation := by
  have ha := a.nearness_nonneg
  have hb := b.nearness_nonneg
  rw [approximation_eq, approximation_eq]
  unfold rank at h
  cases hnegative : a.negative <;> cases hnegative' : b.negative <;>
    simp only [hnegative, hnegative', Bool.false_eq_true, if_true, if_false] at h ⊢
  case false.false => exact nearness_mono (by omega)
  case false.true =>
    -- both are zero
    rw [nearness_zero (d := a) (by omega), nearness_zero (d := b) (by omega), neg_zero]
  case true.false => linarith
  case true.true => exact neg_le_neg (nearness_mono (by omega))

/-! ## Comparison with integers -/

theorem rank_le (d : Double) : d.rank ≤ d.magnitude := by
  unfold rank
  split <;> omega

theorem neg_magnitude_le (d : Double) : -(d.magnitude : Int) ≤ d.rank := by
  unfold rank
  split <;> omega

theorem not_isNaN_of_isFinite {d : Double} (h : d.isFinite = true) : d.isNaN = false :=
  decide_eq_false (Nat.lt_asymm (of_decide_eq_true h))

/-- A double without a decimal is beyond the doubles of all integers of 64 bits. -/
theorem le_magnitude_of_none {d : Double} (h : Decimal.ofDouble? d = none) :
    1090 * exponentBit ≤ d.magnitude := by
  unfold Decimal.ofDouble? at h
  split at h
  · rw [Option.map_eq_none_iff] at h
    have hexponent := Decimal.le_of_ofScaled?_eq_none d.significand_lt h
    have hmagnitude := d.magnitude_eq
    unfold exponentBit at hmagnitude ⊢
    omega
  · next hlarge =>
    have hinfinite : ¬d.magnitude < infinity := fun hlt => hlarge (decide_eq_true hlt)
    unfold infinity at hinfinite
    unfold exponentBit at hinfinite ⊢
    omega

end Double

namespace Value

open Double

/-- **An integer of 64 bits and a double are compared as the integer and the approximation.** -/
theorem compareMixed_eq {n : Int} (hn : fitsInt64 n = true) {d : Double} (hd : d.isNaN = false) :
    compareMixed n d = some (compare (n : ℚ) d.approximation) := by
  obtain ⟨hmin, hmax⟩ := of_decide_eq_true hn
  unfold minInt64 at hmin
  unfold maxInt64 at hmax
  unfold compareMixed
  cases hdecimal : Decimal.ofDouble? d with
  | some decimal =>
    have hint : (Decimal.ofInt n).toRat = n := by
      rw [Decimal.toRat, Decimal.ofInt, pow_zero, div_one]
    dsimp only
    rw [Decimal.cmp_eq, hint, approximation, hdecimal]
  | none =>
    have hbits : n.natAbs < 2 ^ 64 := by omega
    have hsmall := magnitude_ofInt_lt hbits
    have hlarge := le_magnitude_of_none hdecimal
    have hnan := not_isNaN_of_isFinite (isFinite_ofInt hbits)
    have hn' : (n : ℚ) < 2 ^ 96 := by
      exact_mod_cast (by omega : n < 2 ^ 96)
    have hn'' : -2 ^ 96 < (n : ℚ) := by
      exact_mod_cast (by omega : -2 ^ 96 < n)
    dsimp only
    rw [compare?, hnan, hd, approximation, hdecimal]
    refine congrArg some ?_
    have hle := rank_le (ofInt n)
    have hge := neg_magnitude_le (ofInt n)
    cases hnegative : d.negative with
    | false =>
      have hrank : d.rank = d.magnitude := by
        rw [rank, hnegative]
        rfl
      rw [compare_lt_iff_lt.mpr (by omega), compare_lt_iff_lt.mpr]
      exact hn'
    | true =>
      have hrank : d.rank = -(d.magnitude : Int) := by
        rw [rank, hnegative]
        rfl
      rw [compare_gt_iff_gt.mpr (by omega), compare_gt_iff_gt.mpr]
      exact hn''

end Value
end DocQuery
