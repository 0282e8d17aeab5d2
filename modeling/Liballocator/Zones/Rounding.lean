import Liballocator.Zones.Classes

/-!
# Rounding to a power of two on a 64-bit machine

`roundPowerOf2` spreads the bits of its argument by the shifts 1, 2, 4, 8 and 16.  Together they
cover the 32 positions of a 32-bit word.  For words of 64 bits the shift by 32 is missing: where 32
zeros in a row stand below the highest bit of `value - 1`, some of them remain and the result is no
power of two.  `chunkSize` rounds with the same function.
-/

namespace Liballocator

open Align

/-- The powers of two that are not below `v`. -/
def powersFrom (v : ℕ) : Set ℕ := {p | (∃ k, p = 2 ^ k) ∧ v ≤ p}

/-- Rounding gives the least power of two exactly if no 32 zeros in a row have to be filled. -/
theorem isLeast_roundPowerOf2_iff [Platform] {v : ℕ} (hv : 0 < v) (hle : v ≤ 2 ^ (width - 1)) :
    IsLeast (powersFrom v) (roundPowerOf2 v) ↔ Dense 32 (v - 1) := by
  have hleast : IsLeast (powersFrom v) (2 ^ (v - 1).size) := isLeast_two_pow_size hv
  rw [← roundPowerOf2_eq_iff hv hle]
  constructor
  · exact fun h => h.unique hleast
  · intro h
    rwa [h]

section Lp64

attribute [local instance] lp64

/-- With words of 64 bits `roundPowerOf2` and `chunkSize` round to the least power of two exactly if
below the highest bit of the number in front of the rounded one there are no 32 zeros in a row. -/
theorem rounding_iff {v size : ℕ} (hv : 1 ≤ v) (hle : v ≤ 2 ^ 63) (hsize : size ≤ 2 ^ 63) :
    (IsLeast (powersFrom v) (roundPowerOf2 v) ↔ Dense 32 (v - 1)) ∧
    (IsLeast (powersFrom (max size 16)) (chunkSize size) ↔ Dense 32 (max size 16 - 1)) := by
  refine ⟨isLeast_roundPowerOf2_iff hv hle, ?_⟩
  exact isLeast_roundPowerOf2_iff (lt_max_of_lt_right (by omega)) (max_le hsize (by decide))

/-- A value beyond `2 ^ 32` that is rounded, and one that is not. -/
theorem rounding_beyond :
    (IsLeast (powersFrom 6442450945) (roundPowerOf2 6442450945) ↔ Dense 32 (6442450945 - 1)) ∧
    (IsLeast (powersFrom (max 4294967297 16)) (chunkSize 4294967297) ↔
      Dense 32 (max 4294967297 16 - 1)) :=
  rounding_iff (by decide) (by decide) (by decide)

/-- Beyond `2 ^ 32` the result has 32 bits set and is no power of two. -/
theorem exists_unrounded :
    ¬((∀ v, 1 ≤ v → v ≤ 2 ^ 63 → IsLeast (powersFrom v) (roundPowerOf2 v)) ∧
      ∀ size ≤ 2 ^ 63, IsLeast (powersFrom (max size 16)) (chunkSize size)) ∧
    roundPowerOf2 4294967297 = 8589934591 ∧ chunkSize 4294967297 = 8589934591 ∧
    ¬IsLeast (powersFrom 4294967297) 8589934591 := by
  have hround : roundPowerOf2 4294967297 = 8589934591 := by decide
  have hchunk : chunkSize 4294967297 = 8589934591 := by decide
  have hnot : ¬IsLeast (powersFrom 4294967297) 8589934591 := by
    rw [← hround, isLeast_roundPowerOf2_iff (by omega) (by decide)]
    intro hd
    obtain ⟨i, hi, hbit⟩ := hd 0 (by decide)
    rw [Nat.zero_add, show 4294967297 - 1 = 2 ^ 32 by decide, Nat.testBit_two_pow,
      decide_eq_true_iff] at hbit
    omega
  refine ⟨fun h => hnot ?_, hround, hchunk, hnot⟩
  exact hround ▸ h.1 4294967297 (by omega) (by omega)

end Lp64

end Liballocator
