import Mathlib.Data.Nat.Bitwise
import Mathlib.Data.Nat.Size
import Mathlib.Order.Bounds.Basic
import Mathlib.Tactic.Common

/-!
# Alignment to powers of two

Masking with the complement of `2 ^ k - 1` rounds down to a multiple of `2 ^ k` (`land_mask`), and
multiples of one number that are less than that number apart are ordered
(`le_of_dvd_of_lt_add`).  Spreading the bits of a number over `n - 1` lower positions gives the
number in front of the next power of two exactly when there are no `n` zeros in a row below its
highest bit (`Spread.eq_pred_iff`).
-/

namespace Align

/-- Clearing the low `k` bits of a number below `2 ^ w` rounds it down to a multiple of `2 ^ k`. -/
theorem land_mask {x k w : ℕ} (hx : x < 2 ^ w) (hk : k ≤ w) :
    x &&& (2 ^ w - 1 - (2 ^ k - 1)) = x / 2 ^ k * 2 ^ k := by
  have hmask : 2 ^ w - 1 - (2 ^ k - 1) = 2 ^ k * (2 ^ (w - k) - 1) := by
    have hpow : 2 ^ w = 2 ^ k * 2 ^ (w - k) := by rw [← Nat.pow_add, Nat.add_sub_cancel' hk]
    have hpos : 0 < 2 ^ k := Nat.two_pow_pos k
    rw [Nat.mul_sub, ← hpow, Nat.mul_one]
    omega
  apply Nat.eq_of_testBit_eq
  intro i
  rw [hmask, Nat.mul_comm (x / 2 ^ k), Nat.testBit_and, Nat.testBit_two_pow_mul,
    Nat.testBit_two_pow_mul, Nat.testBit_two_pow_sub_one, Nat.testBit_div_two_pow]
  by_cases hik : k ≤ i
  · rw [decide_eq_true hik, Bool.true_and, Bool.true_and, Nat.sub_add_cancel hik]
    by_cases hiw : i < w
    · rw [decide_eq_true (by omega), Bool.and_true]
    · have hbit : x.testBit i = false :=
        Nat.testBit_lt_two_pow (hx.trans_le (Nat.pow_le_pow_right (by omega) (by omega)))
      rw [hbit, Bool.false_and]
  · rw [decide_eq_false hik, Bool.false_and, Bool.false_and, Bool.and_false]

/-- A multiple of `p` is at most every other one from which it is less than `p` away. -/
theorem le_of_dvd_of_lt_add {p x y : ℕ} (hx : p ∣ x) (hy : p ∣ y) (h : x < y + p) : x ≤ y := by
  obtain ⟨a, rfl⟩ := hx
  obtain ⟨b, rfl⟩ := hy
  have hlt : p * a < p * (b + 1) := by rwa [Nat.mul_succ]
  exact Nat.mul_le_mul_left p (Nat.lt_succ_iff.mp (Nat.lt_of_mul_lt_mul_left hlt))

/-! ### Spreading bits -/

/-- The bits of `w` are those of `u`, each spread over the `n - 1` lower positions. -/
def Spread (n u w : ℕ) : Prop := ∀ j, w.testBit j = true ↔ ∃ i < n, u.testBit (j + i) = true

/-- At first the word is spread over its own bits only. -/
theorem spread_one (u : ℕ) : Spread 1 u u := by
  intro j
  constructor
  · exact fun h => ⟨0, Nat.one_pos, h⟩
  · rintro ⟨i, hi, h⟩
    obtain rfl : i = 0 := by omega
    exact h

/-- One shift spreads the word further. -/
theorem Spread.step {n k u w : ℕ} (h : Spread n u w) (hk : k ≤ n) :
    Spread (n + k) u (w ||| w >>> k) := by
  intro j
  rw [Nat.testBit_or, Nat.testBit_shiftRight, Bool.or_eq_true, h j, h (k + j)]
  constructor
  · rintro (⟨i, hi, hu⟩ | ⟨i, hi, hu⟩)
    · exact ⟨i, by omega, hu⟩
    · exact ⟨k + i, by omega, by rwa [show j + (k + i) = k + j + i by omega]⟩
  · rintro ⟨i, hi, hu⟩
    by_cases hin : i < n
    · exact Or.inl ⟨i, hin, hu⟩
    · refine Or.inr ⟨i - k, by omega, ?_⟩
      rwa [show k + j + (i - k) = j + i by omega]

/-- Below the highest bit of `u` there are no `n` zeros in a row. -/
def Dense (n u : ℕ) : Prop := ∀ j < u.size, ∃ i < n, u.testBit (j + i) = true

instance (n u : ℕ) : Decidable (Dense n u) :=
  inferInstanceAs (Decidable (∀ j < u.size, ∃ i < n, u.testBit (j + i) = true))

/-- A number of at most `n` bits has no room for `n` zeros below its highest bit. -/
theorem dense_of_lt {n u : ℕ} (hu : u < 2 ^ n) : Dense n u := by
  intro j hj
  have hsize : u.size ≤ n := Nat.size_le.mpr hu
  refine ⟨u.size - 1 - j, by omega, ?_⟩
  rw [show j + (u.size - 1 - j) = u.size - 1 by omega]
  have htop : 2 ^ (u.size - 1) ≤ u := Nat.lt_size.mp (by omega)
  have hlt : u < 2 ^ (u.size - 1 + 1) := by
    rw [show u.size - 1 + 1 = u.size by omega]
    exact Nat.lt_size_self u
  rw [Nat.testBit_eq_decide_div_mod_eq, decide_eq_true_iff]
  have hdiv : u / 2 ^ (u.size - 1) = 1 := by
    apply Nat.div_eq_of_lt_le (by omega)
    rw [Nat.pow_succ] at hlt
    omega
  rw [hdiv]

/-- A spread bit lies below the highest bit. -/
theorem Spread.lt_size {n u w j : ℕ} (h : Spread n u w) (hj : w.testBit j = true) : j < u.size := by
  obtain ⟨i, -, hui⟩ := (h j).mp hj
  have := Nat.lt_size.mpr (Nat.ge_two_pow_of_testBit hui)
  omega

/-- The spread word has no more bits than the original one. -/
theorem Spread.lt {n u w : ℕ} (h : Spread n u w) : w < 2 ^ u.size :=
  Nat.lt_pow_two_of_testBit w fun j hj =>
    Bool.eq_false_iff.mpr fun hw => absurd (h.lt_size hw) (by omega)

/-- Spreading the bits of a number over `n` positions gives one less than a power of two exactly if
no `n` zeros in a row remain. -/
theorem Spread.eq_pred_iff {n u w : ℕ} (h : Spread n u w) : w = 2 ^ u.size - 1 ↔ Dense n u := by
  constructor
  · rintro rfl j hj
    exact (h j).mp (by rw [Nat.testBit_two_pow_sub_one, decide_eq_true hj])
  · intro hd
    apply Nat.eq_of_testBit_eq
    intro j
    rw [Nat.testBit_two_pow_sub_one, Bool.eq_iff_iff, decide_eq_true_iff]
    exact ⟨h.lt_size, fun hj => (h j).mpr (hd j hj)⟩

/-- The least power of two that is not below a number. -/
theorem isLeast_two_pow_size {v : ℕ} (hv : 0 < v) :
    IsLeast {p | (∃ k, p = 2 ^ k) ∧ v ≤ p} (2 ^ (v - 1).size) := by
  refine ⟨⟨⟨_, rfl⟩, ?_⟩, ?_⟩
  · have := Nat.lt_size_self (v - 1)
    omega
  · rintro _ ⟨⟨k, rfl⟩, hle⟩
    exact Nat.pow_le_pow_right (by omega) (Nat.size_le.mpr (by omega))

end Align
