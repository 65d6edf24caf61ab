import DocQuery.Decimal
import Mathlib.Algebra.Order.Field.Power
import Mathlib.Algebra.Order.Ring.Pow
import Mathlib.Tactic.FieldSimp
import Mathlib.Tactic.Linarith
import Mathlib.Tactic.LinearCombination
import Mathlib.Tactic.Positivity
import Mathlib.Tactic.Ring

/-!
# How far a decimal is from its double

`Decimal.ofScaled?` turns `m · 2 ^ e` into a decimal. With `e` not negative it is exact, or there is
no decimal (`ofScaled?_of_nonneg`). Otherwise it works factors of five into the coefficient, which
loses less than one part in `2 ^ 93` each time (`le_value_mulFive`), and then sheds digits one after
the other: `settled`.

**The conversion keeps the order** of numbers that differ by a bit of a double (`nearby_mono`):
shedding digits keeps every order (`settled_le_settled`), and what the factors of five lose is less
than such a bit.
-/

set_option autoImplicit false

namespace DocQuery
namespace Decimal

/-- The number a decimal is. -/
def toRat (d : Decimal) : ℚ := d.coefficient / 10 ^ d.places

/-- The number a coefficient stands for. -/
def Scaled.value (s : Scaled) : ℚ := s.coefficient * 10 ^ s.exponent

theorem compare_of_lt_iff {α β : Type} [LinearOrder α] [LinearOrder β] {a b : α} {c d : β}
    (h : a < b ↔ c < d) (h' : b < a ↔ d < c) : compare a b = compare c d := by
  rcases lt_trichotomy a b with hab | rfl | hba
  · rw [compare_lt_iff_lt.mpr hab, compare_lt_iff_lt.mpr (h.mp hab)]
  · have hcd : c = d := le_antisymm (le_of_not_gt fun hlt => lt_irrefl _ (h'.mpr hlt))
      (le_of_not_gt fun hlt => lt_irrefl _ (h.mpr hlt))
    rw [compare_eq_iff_eq.mpr rfl, compare_eq_iff_eq.mpr hcd]
  · rw [compare_gt_iff_gt.mpr hba, compare_gt_iff_gt.mpr (h'.mp hba)]

/-- Decimals compare as the numbers they are. -/
theorem cmp_eq (a b : Decimal) : a.cmp b = compare a.toRat b.toRat := by
  have hlt : ∀ x y : Decimal, x.coefficient * Nat.pow 10 y.places <
      y.coefficient * Nat.pow 10 x.places ↔ x.toRat < y.toRat := by
    intro x y
    unfold toRat
    rw [div_lt_div_iff₀ (by positivity) (by positivity)]
    exact_mod_cast Iff.rfl
  exact compare_of_lt_iff (hlt a b) (hlt b a)

/-! ## Factors of five -/

/-- What a step that halves an odd coefficient may lose, in parts of the coefficient. -/
def loss : ℚ := 1 / 2 ^ 93

theorem value_half {m : Nat} (e : Int) (h : m % 2 = 0) :
    Scaled.value ⟨m / 2, e + 1⟩ = 5 * Scaled.value ⟨m, e⟩ := by
  have hm : ((m / 2 : Nat) : ℚ) * 2 = m := by
    exact_mod_cast Nat.div_mul_cancel (Nat.dvd_of_mod_eq_zero h)
  unfold Scaled.value
  rw [zpow_add_one₀ (by norm_num)]
  linear_combination (5 * 10 ^ e) * hm

theorem value_times (m : Nat) (e : Int) :
    Scaled.value ⟨m * 5, e⟩ = 5 * Scaled.value ⟨m, e⟩ := by
  unfold Scaled.value
  push_cast
  ring

theorem value_half_le (m : Nat) (e : Int) :
    Scaled.value ⟨m / 2, e + 1⟩ ≤ 5 * Scaled.value ⟨m, e⟩ := by
  have hm : ((m / 2 : Nat) : ℚ) * 2 ≤ m := by
    exact_mod_cast Nat.div_mul_le_self m 2
  have hpow : (0 : ℚ) < 10 ^ e := by positivity
  unfold Scaled.value
  rw [zpow_add_one₀ (by norm_num)]
  nlinarith

theorem le_value_half {m : Nat} (e : Int) (h : capacity ≤ m * 5) :
    5 * Scaled.value ⟨m, e⟩ * (1 - loss) ≤ Scaled.value ⟨m / 2, e + 1⟩ := by
  have hm : (m : ℚ) ≤ ((m / 2 : Nat) : ℚ) * 2 + 1 := by
    exact_mod_cast (by omega : m ≤ m / 2 * 2 + 1)
  have hlarge : (2 ^ 96 : ℚ) ≤ m * 5 := by
    exact_mod_cast h
  have hpow : (0 : ℚ) < 10 ^ e := by positivity
  have hcoefficient : 5 * (m : ℚ) * (1 - loss) ≤ ((m / 2 : Nat) : ℚ) * 10 := by
    unfold loss
    linarith
  unfold Scaled.value
  rw [zpow_add_one₀ (by norm_num)]
  calc 5 * ((m : ℚ) * 10 ^ e) * (1 - loss)
      = 5 * (m : ℚ) * (1 - loss) * 10 ^ e := by ring
    _ ≤ ((m / 2 : Nat) : ℚ) * 10 * 10 ^ e := mul_le_mul_of_nonneg_right hcoefficient hpow.le
    _ = ((m / 2 : Nat) : ℚ) * (10 ^ e * 10) := by ring

theorem value_nonneg (s : Scaled) : 0 ≤ s.value := by
  unfold Scaled.value
  positivity

theorem value_mulFive_le (n : Nat) (s : Scaled) : (mulFive n s).value ≤ 5 ^ n * s.value := by
  induction n generalizing s with
  | zero => simp [mulFive]
  | succ n ih =>
    obtain ⟨m, e⟩ := s
    have hnext : ∀ t : Scaled, t.value ≤ 5 * Scaled.value ⟨m, e⟩ →
        (mulFive n t).value ≤ 5 ^ (n + 1) * Scaled.value ⟨m, e⟩ := by
      intro t ht
      calc (mulFive n t).value ≤ 5 ^ n * t.value := ih t
        _ ≤ 5 ^ n * (5 * Scaled.value ⟨m, e⟩) := mul_le_mul_of_nonneg_left ht (by positivity)
        _ = 5 ^ (n + 1) * Scaled.value ⟨m, e⟩ := by ring
    unfold mulFive
    split
    · exact hnext _ (value_half_le m e)
    · split
      · exact hnext _ (value_times m e).le
      · exact hnext _ (value_half_le m e)

/-- Each factor of five loses less than one part in `2 ^ 93`. -/
theorem le_value_mulFive (n : Nat) (s : Scaled) :
    5 ^ n * s.value * (1 - loss) ^ n ≤ (mulFive n s).value := by
  have hloss : (0 : ℚ) ≤ 1 - loss := by
    unfold loss
    norm_num
  have hloss' : 1 - loss ≤ 1 := by
    unfold loss
    norm_num
  induction n generalizing s with
  | zero => simp [mulFive]
  | succ n ih =>
    obtain ⟨m, e⟩ := s
    have hnext : ∀ t : Scaled, 5 * Scaled.value ⟨m, e⟩ * (1 - loss) ≤ t.value →
        5 ^ (n + 1) * Scaled.value ⟨m, e⟩ * (1 - loss) ^ (n + 1) ≤ (mulFive n t).value := by
      intro t ht
      calc 5 ^ (n + 1) * Scaled.value ⟨m, e⟩ * (1 - loss) ^ (n + 1)
          = 5 ^ n * (5 * Scaled.value ⟨m, e⟩ * (1 - loss)) * (1 - loss) ^ n := by ring
        _ ≤ 5 ^ n * t.value * (1 - loss) ^ n := by gcongr
        _ ≤ (mulFive n t).value := ih t
    have hexact : 5 * Scaled.value ⟨m, e⟩ * (1 - loss) ≤ 5 * Scaled.value ⟨m, e⟩ :=
      mul_le_of_le_one_right (mul_nonneg (by norm_num) (value_nonneg _)) hloss'
    unfold mulFive
    split
    · next heven => exact hnext _ (hexact.trans (value_half e heven).ge)
    · split
      · exact hnext _ (hexact.trans (value_times m e).ge)
      · next hlarge => exact hnext _ (le_value_half e (Nat.le_of_not_lt hlarge))

theorem exponent_mulFive_le (n : Nat) (s : Scaled) :
    (mulFive n s).exponent ≤ s.exponent + n := by
  induction n generalizing s with
  | zero => simp [mulFive]
  | succ n ih =>
    obtain ⟨m, e⟩ := s
    unfold mulFive
    split
    · exact (ih _).trans (by push_cast; omega)
    · split
      · exact (ih _).trans (by push_cast; omega)
      · exact (ih _).trans (by push_cast; omega)

/-! ## Shedding digits -/

theorem shed_mono {c d : Nat} (h : c ≤ d) : shed c ≤ shed d := by
  unfold shed
  split <;> split <;> omega

theorem shed_ten_mul (c : Nat) : shed (10 * c) = c := by
  unfold shed
  split <;> omega

/-- What is left of `c / 10 ^ n`: places beyond the 28th go first, and then those that a coefficient
of more than 52 bits has. -/
def settled : Nat → Nat → ℚ
  | 0, c => c
  | n + 1, c =>
    if 28 ≤ n then if c / 10 = 0 then 0 else settled n (shed c)
    else if 2 ^ 52 ≤ c then settled n (shed c)
    else c / 10 ^ (n + 1)

theorem settled_nonneg (n c : Nat) : 0 ≤ settled n c := by
  induction n generalizing c with
  | zero => exact Nat.cast_nonneg c
  | succ n ih =>
    unfold settled
    split
    · split
      · exact le_rfl
      · exact ih _
    · split
      · exact ih _
      · positivity

@[simp] theorem settled_zero (n : Nat) : settled n 0 = 0 := by
  cases n with
  | zero => exact Nat.cast_zero
  | succ n => simp [settled]

/-- A trailing zero makes no difference. -/
theorem settled_ten_mul (n c : Nat) : settled (n + 1) (10 * c) = settled n c := by
  have hquotient : 10 * c / 10 = c := Nat.mul_div_cancel_left c (by norm_num)
  rw [settled, hquotient, shed_ten_mul]
  split
  · split
    · next hzero => rw [hzero, settled_zero]
    · rfl
  · next hplaces =>
    split
    · rfl
    · next hsmall =>
      have hcancel : ((10 * c : Nat) : ℚ) / 10 ^ (n + 1) = c / 10 ^ n := by
        rw [pow_succ]
        push_cast
        field_simp
      rw [hcancel]
      cases n with
      | zero => simp [settled]
      | succ n => rw [settled, if_neg (by omega), if_neg (by omega)]

theorem settled_mul_pow (n c k : Nat) : settled (n + k) (c * 10 ^ k) = settled n c := by
  induction k with
  | zero => simp
  | succ k ih =>
    have hten : c * 10 ^ (k + 1) = 10 * (c * 10 ^ k) := by ring
    rw [hten, ← Nat.add_assoc, settled_ten_mul, ih]

/-- A coefficient of more than 52 bits keeps as many when it sheds its last digit. -/
theorem le_ten_mul_shed {c : Nat} (h : 2 ^ 52 ≤ c) : 2 ^ 52 ≤ 10 * shed c := by
  unfold shed
  split <;> omega

theorem le_settled {n c : Nat} (hplaces : n ≤ 28) (h : 2 ^ 52 ≤ 10 * c) :
    (2 ^ 52 : ℚ) / 10 ^ (n + 1) ≤ settled n c := by
  have hc : (2 ^ 52 : ℚ) ≤ 10 * c := by
    exact_mod_cast h
  induction n generalizing c with
  | zero =>
    rw [settled]
    linarith
  | succ n ih =>
    rw [settled, if_neg (by omega)]
    split
    · next hlarge =>
      have hshed := le_ten_mul_shed hlarge
      refine le_trans ?_ (ih (by omega) hshed (by exact_mod_cast hshed))
      rw [pow_succ _ (n + 1)]
      gcongr
      linarith [show (0 : ℚ) < 10 ^ (n + 1) by positivity]
    · rw [pow_succ _ (n + 1), div_le_div_iff₀ (by positivity) (by positivity)]
      nlinarith [show (0 : ℚ) < 10 ^ (n + 1) by positivity]

theorem settled_mono (n : Nat) {c d : Nat} (h : c ≤ d) : settled n c ≤ settled n d := by
  induction n generalizing c d with
  | zero => exact Nat.cast_le.mpr h
  | succ n ih =>
    by_cases hplaces : 28 ≤ n
    · rw [settled, settled, if_pos hplaces, if_pos hplaces]
      by_cases hc : c / 10 = 0
      · rw [if_pos hc]
        split
        · exact le_rfl
        · exact settled_nonneg n _
      · rw [if_neg hc, if_neg (by omega)]
        exact ih (shed_mono h)
    · rw [settled, settled, if_neg hplaces, if_neg hplaces]
      by_cases hc : 2 ^ 52 ≤ c
      · rw [if_pos hc, if_pos (hc.trans h)]
        exact ih (shed_mono h)
      · rw [if_neg hc]
        split
        · next hd =>
          have hlt : (c : ℚ) ≤ 2 ^ 52 := by
            exact_mod_cast (Nat.le_of_not_le hc)
          refine le_trans ?_ (le_settled (by omega) (le_ten_mul_shed hd))
          gcongr
        · gcongr

/-- **Shedding digits keeps the order of numbers**, whatever places they have. -/
theorem settled_le_settled {n k c d : Nat} (h : (c : ℚ) / 10 ^ n ≤ d / 10 ^ k) :
    settled n c ≤ settled k d := by
  have hcross : c * 10 ^ k ≤ d * 10 ^ n := by
    rw [div_le_div_iff₀ (by positivity) (by positivity)] at h
    exact_mod_cast h
  calc settled n c = settled (n + k) (c * 10 ^ k) := (settled_mul_pow n c k).symm
    _ ≤ settled (n + k) (d * 10 ^ n) := settled_mono _ hcross
    _ = settled (k + n) (d * 10 ^ n) := by rw [Nat.add_comm]
    _ = settled k d := settled_mul_pow k d n

/-! ## The conversion -/

theorem value_mk_neg (c n : Nat) : Scaled.value ⟨c, -(n : Int)⟩ = c / 10 ^ n := by
  rw [Scaled.value, zpow_neg, zpow_natCast, div_eq_mul_inv]

theorem value_mk_zero (c : Nat) : Scaled.value ⟨c, 0⟩ = c := by
  rw [Scaled.value, zpow_zero, mul_one]

theorem value_shorten {n : Nat} (hplaces : n ≤ 28) (c : Nat) :
    (shorten n c).value = settled n c := by
  induction n generalizing c with
  | zero => exact value_mk_zero c
  | succ n ih =>
    have hshort : ¬28 ≤ n := by omega
    rw [shorten, settled, if_neg hshort, Nat.pow_eq]
    by_cases hc : 2 ^ 52 ≤ c
    · rw [if_pos hc, if_pos hc]
      exact ih (by omega) _
    · rw [if_neg hc, if_neg hc]
      exact value_mk_neg c (n + 1)

theorem exponent_shorten (n c : Nat) : (shorten n c).exponent ≤ 0 := by
  induction n generalizing c with
  | zero => exact le_rfl
  | succ n ih =>
    rw [shorten]
    split
    · exact ih _
    · show -((n : Int) + 1) ≤ 0
      omega

/-- Digits beyond the 28th place go first, one after the other. -/
theorem value_trim (k c : Nat) :
    (shorten (-(trim k ⟨c, -((28 + k : Nat) : Int)⟩).exponent).toNat
      (trim k ⟨c, -((28 + k : Nat) : Int)⟩).coefficient).value = settled (28 + k) c := by
  induction k generalizing c with
  | zero => exact value_shorten le_rfl c
  | succ k ih =>
    have hlong : 28 ≤ 28 + k := by omega
    rw [trim, ← Nat.add_assoc, settled, if_pos hlong]
    by_cases hc : c / 10 = 0
    · rw [if_pos hc, if_pos hc]
      exact value_mk_zero 0
    · rw [if_neg hc, if_neg hc]
      have hexponent : (-((28 + k + 1 : Nat) : Int)) + 1 = -((28 + k : Nat) : Int) := by
        push_cast
        ring
      rw [hexponent]
      exact ih (shed c)

/-- The two ways of shedding digits, one after the other. -/
theorem value_shed (c n : Nat) :
    (shorten (-(trim (n - 28) ⟨c, -(n : Int)⟩).exponent).toNat
      (trim (n - 28) ⟨c, -(n : Int)⟩).coefficient).value = settled n c := by
  by_cases hplaces : 28 ≤ n
  · obtain ⟨k, rfl⟩ := Nat.exists_eq_add_of_le hplaces
    rw [Nat.add_sub_cancel_left]
    exact value_trim k c
  · have hnone : n - 28 = 0 := by omega
    have hn : (-(-(n : Int))).toNat = n := by omega
    rw [hnone, trim, hn]
    exact value_shorten (by omega) c

/-- Dividing by five is doubling, as long as there is room. -/
theorem divFive_eq {n m : Nat} (hm : m < capacity) :
    divFive n ⟨m, n⟩ = if m * 2 ^ n < capacity then some ⟨m * 2 ^ n, 0⟩ else none := by
  induction n generalizing m with
  | zero =>
    rw [pow_zero, mul_one, if_pos hm]
    rfl
  | succ n ih =>
    have hpow : m * 2 ^ (n + 1) = m * 2 * 2 ^ n := by ring
    rw [divFive, hpow]
    by_cases hroom : 2 * m < capacity
    · have hexponent : ((n + 1 : Nat) : Int) - 1 = n := by omega
      rw [if_pos hroom, hexponent]
      exact ih (by omega)
    · have hlarge : ¬m * 2 * 2 ^ n < capacity := by
        have hone : 1 ≤ 2 ^ n := Nat.one_le_two_pow
        have := Nat.le_mul_of_pos_right (m * 2) hone
        omega
      rw [if_neg hroom, if_pos (by push_cast; omega), if_neg hlarge]

/-- Integers are converted exactly, as long as there is room. -/
theorem ofScaled?_of_nonneg {m : Nat} (n : Nat) (hm : m < capacity) :
    ofScaled? m n = if m * 2 ^ n < capacity then some ⟨m * 2 ^ n, 0⟩ else none := by
  unfold ofScaled?
  rw [if_pos (Int.natCast_nonneg n), Int.toNat_natCast, divFive_eq hm]
  split
  · rfl
  · rfl

/-- Other numbers get their factors of five and shed digits. -/
theorem ofScaled?_of_neg (m : Nat) {n : Nat} (hn : 0 < n) : ∃ s c k, ofScaled? m (-(n : Int)) =
    some s ∧ s.exponent ≤ 0 ∧ s.value = settled k c ∧
      (mulFive n ⟨m, -(n : Int)⟩).value = c / 10 ^ k := by
  have hexponent := exponent_mulFive_le n ⟨m, -(n : Int)⟩
  generalize hfive : mulFive n ⟨m, -(n : Int)⟩ = s at hexponent ⊢
  obtain ⟨c, e⟩ := s
  obtain ⟨k, rfl⟩ : ∃ k : Nat, e = -(k : Int) := ⟨e.natAbs, by dsimp only at hexponent; omega⟩
  refine ⟨shorten (-(trim (k - 28) ⟨c, -(k : Int)⟩).exponent).toNat
    (trim (k - 28) ⟨c, -(k : Int)⟩).coefficient, c, k, ?_, exponent_shorten _ _, value_shed c k,
    value_mk_neg c k⟩
  have hneg : ¬(0 : Int) ≤ -(n : Int) := by omega
  have hsteps : (-(-(n : Int))).toNat = n := by omega
  have hshed : (-28 - -(k : Int)).toNat = k - 28 := by omega
  have hplaces : ¬0 < -(k : Int) := by omega
  unfold ofScaled?
  rw [if_neg hneg, hsteps, hfive]
  show (if 0 < -(k : Int) then _ else _) = _
  rw [if_neg hplaces, hshed]
  rfl

/-- A decimal has no zeros behind its coefficient. -/
theorem exponent_of_ofScaled? {m : Nat} {e : Int} {s : Scaled} (hm : m < capacity)
    (h : ofScaled? m e = some s) : s.exponent ≤ 0 := by
  by_cases hneg : e < 0
  · obtain ⟨n, rfl⟩ : ∃ n : Nat, e = -(n : Int) := ⟨e.natAbs, by omega⟩
    obtain ⟨t, c, k, ht, hexponent, -⟩ := ofScaled?_of_neg m (by omega : 0 < n)
    rw [ht] at h
    cases h
    exact hexponent
  · obtain ⟨n, rfl⟩ := Int.eq_ofNat_of_zero_le (Int.not_lt.mp hneg)
    rw [ofScaled?_of_nonneg n hm] at h
    split at h
    · cases h
      exact le_rfl
    · cases h

/-- Only a large number has no decimal. -/
theorem le_of_ofScaled?_eq_none {m : Nat} {e : Int} (hm : m < 2 ^ 53)
    (h : ofScaled? m e = none) : 44 ≤ e := by
  by_cases hneg : e < 0
  · obtain ⟨n, rfl⟩ : ∃ n : Nat, e = -(n : Int) := ⟨e.natAbs, by omega⟩
    obtain ⟨t, c, k, ht, -⟩ := ofScaled?_of_neg m (by omega : 0 < n)
    rw [ht] at h
    cases h
  · obtain ⟨n, rfl⟩ := Int.eq_ofNat_of_zero_le (Int.not_lt.mp hneg)
    rw [ofScaled?_of_nonneg n (hm.trans (by decide))] at h
    split at h
    · cases h
    · next hlarge =>
      by_contra hsmall
      refine hlarge ?_
      calc m * 2 ^ n < 2 ^ 53 * 2 ^ n := Nat.mul_lt_mul_of_pos_right hm (by positivity)
        _ ≤ 2 ^ 53 * 2 ^ 43 := Nat.mul_le_mul_left _ (Nat.pow_le_pow_right (by norm_num) (by omega))
        _ = capacity := by decide

/-! ## Order -/

/-- The number that the decimal of `m · 2 ^ e` is; `2 ^ 96` where there is none. -/
def nearby (m : Nat) (e : Int) : ℚ :=
  match ofScaled? m e with
  | some s => s.value
  | none => 2 ^ 96

theorem five_pow_mul (m n : Nat) :
    5 ^ n * Scaled.value ⟨m, -(n : Int)⟩ = m * 2 ^ (-(n : Int)) := by
  have hten : (10 : ℚ) ^ n = 5 ^ n * 2 ^ n := by
    rw [← mul_pow]
    norm_num
  rw [value_mk_neg, hten, zpow_neg, zpow_natCast]
  field_simp

/-- All factors of five together lose less than a bit of a double. -/
theorem bit_le_losses {n : Nat} (hn : n ≤ 1074) : (1 - 1 / 2 ^ 53 : ℚ) ≤ (1 - loss) ^ n := by
  have hloss : (0 : ℚ) < loss := by
    unfold loss
    norm_num
  have hn' : (n : ℚ) ≤ 1074 := by
    exact_mod_cast hn
  calc (1 - 1 / 2 ^ 53 : ℚ) ≤ 1 + 1074 * -loss := by
        unfold loss
        norm_num
    _ ≤ 1 + n * -loss := by nlinarith
    _ ≤ (1 + -loss) ^ n := by
        refine one_add_mul_le_pow ?_ n
        unfold loss
        norm_num
    _ = (1 - loss) ^ n := by rw [← sub_eq_add_neg]

/-- What is settled lies below the number itself by less than a bit of a double. -/
theorem nearby_eq {m : Nat} {e : Int} (hm : m < 2 ^ 53) (he : -1074 ≤ e) : ∃ c n : Nat,
    nearby m e = min (2 ^ 96) (settled n c) ∧ (c : ℚ) / 10 ^ n ≤ m * 2 ^ e ∧
      m * 2 ^ e * (1 - 1 / 2 ^ 53) ≤ (c : ℚ) / 10 ^ n := by
  have hbit : (1 - 1 / 2 ^ 53 : ℚ) ≤ 1 := by norm_num
  by_cases hneg : e < 0
  · obtain ⟨n, rfl⟩ : ∃ n : Nat, e = -(n : Int) := ⟨e.natAbs, by omega⟩
    obtain ⟨s, c, k, hs, -, hvalue, hfive⟩ := ofScaled?_of_neg m (by omega : 0 < n)
    have hle := value_mulFive_le n ⟨m, -(n : Int)⟩
    have hge := le_value_mulFive n ⟨m, -(n : Int)⟩
    rw [five_pow_mul] at hle hge
    rw [hfive] at hle hge
    have hsize : (0 : ℚ) ≤ m * 2 ^ (-(n : Int)) := by positivity
    refine ⟨c, k, ?_, hle, le_trans ?_ hge⟩
    · -- far below the largest coefficient
      have hsmall : (c : ℚ) / 10 ^ k ≤ (2 ^ 53 : Nat) / 10 ^ 0 := by
        refine hle.trans ?_
        have hm' : (m : ℚ) ≤ 2 ^ 53 := by
          exact_mod_cast hm.le
        have hpow : (2 : ℚ) ^ (-(n : Int)) ≤ 1 := zpow_le_one_of_nonpos₀ (by norm_num) (by omega)
        push_cast
        rw [pow_zero, div_one]
        calc (m : ℚ) * 2 ^ (-(n : Int)) ≤ m * 1 := by gcongr
          _ ≤ 2 ^ 53 := by rw [mul_one]; exact hm'
      have hsettled := settled_le_settled hsmall
      rw [nearby, hs]
      dsimp only
      rw [hvalue, min_eq_right]
      refine hsettled.trans ?_
      rw [settled]
      norm_num
    · exact mul_le_mul_of_nonneg_left (bit_le_losses (by omega)) hsize
  · obtain ⟨n, rfl⟩ := Int.eq_ofNat_of_zero_le (Int.not_lt.mp hneg)
    have hroom : m < capacity := hm.trans (by decide)
    have hsize : ((m * 2 ^ n : Nat) : ℚ) / 10 ^ 0 = m * 2 ^ (n : Int) := by
      push_cast
      rw [pow_zero, div_one, zpow_natCast]
    refine ⟨m * 2 ^ n, 0, ?_, hsize.le, ?_⟩
    · have hcapacity : (2 ^ 96 : ℚ) = (capacity : Nat) := by
        exact_mod_cast rfl
      rw [nearby, ofScaled?_of_nonneg n hroom, settled, hcapacity]
      by_cases hfits : m * 2 ^ n < capacity
      · rw [if_pos hfits, min_eq_right (Nat.cast_le.mpr hfits.le)]
        exact value_mk_zero _
      · rw [if_neg hfits, min_eq_left (Nat.cast_le.mpr (Nat.le_of_not_lt hfits))]
    · rw [hsize]
      exact mul_le_of_le_one_right (by positivity) hbit

theorem nearby_le {m : Nat} {e : Int} (hm : m < 2 ^ 53) (he : -1074 ≤ e) :
    nearby m e ≤ 2 ^ 96 := by
  obtain ⟨c, n, hnearby, -, -⟩ := nearby_eq hm he
  rw [hnearby]
  exact min_le_left _ _

theorem nearby_nonneg (m : Nat) (e : Int) : 0 ≤ nearby m e := by
  unfold nearby
  split
  · exact value_nonneg _
  · norm_num

theorem nearby_zero {e : Int} (he : -1074 ≤ e) : nearby 0 e = 0 := by
  obtain ⟨c, n, hnearby, hle, -⟩ := nearby_eq (by norm_num : 0 < 2 ^ 53) he
  have hc : c = 0 := by
    rw [Nat.cast_zero, zero_mul, div_le_iff₀ (by positivity), zero_mul] at hle
    exact_mod_cast le_antisymm hle (Nat.cast_nonneg c)
  rw [hnearby, hc, settled_zero]
  norm_num

/-- **Of two numbers that differ by a bit of a double the decimals stand in the same order**, or are
the same. -/
theorem nearby_mono {m m' : Nat} {e e' : Int} (hm : m < 2 ^ 53) (hm' : m' < 2 ^ 53)
    (he : -1074 ≤ e) (he' : -1074 ≤ e')
    (h : (m : ℚ) * 2 ^ e ≤ m' * 2 ^ e' * (1 - 1 / 2 ^ 53)) : nearby m e ≤ nearby m' e' := by
  obtain ⟨c, n, hnearby, hle, -⟩ := nearby_eq hm he
  obtain ⟨d, k, hnearby', -, hge⟩ := nearby_eq hm' he'
  rw [hnearby, hnearby']
  exact min_le_min_left _ (settled_le_settled ((hle.trans h).trans hge))

end Decimal
end DocQuery
