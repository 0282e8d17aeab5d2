import Liballocator.ZoneAllocator
import Liballocator.Library.Align

/-!
# Chunk sizes and their classes

`roundPowerOf2` spreads the bits of a number over all lower positions, so `chunkSize` is a power of
two.  Zones of the class number `i` have chunks of `classSize i` bytes; `descIdx` is the class of
the chunks that hold zone descriptors.
-/

namespace Liballocator

open Program Align

variable [Platform]

/-- The shifts of `roundPowerOf2` cover 32 positions, so the result is a power of two exactly if
there are no 32 zeros in a row to fill. -/
theorem roundPowerOf2_eq_iff {v : ℕ} (hv : 0 < v) (hle : v ≤ 2 ^ (width - 1)) :
    roundPowerOf2 v = 2 ^ (v - 1).size ↔ Dense 32 (v - 1) := by
  have hwidth : 2 ^ width = 2 ^ (width - 1) * 2 := by
    rw [← Nat.pow_succ, Nat.succ_eq_add_one, Nat.sub_add_cancel]
    rcases Platform.wordBytes_eq with h | h <;> rw [width, h] <;> omega
  have hsub : Word.sub v 1 = v - 1 := Word.sub_eq hv (by omega)
  have hspread := ((((((spread_one (v - 1)).step (k := 1) (by omega)).step (k := 2)
    (by omega)).step (k := 4) (by omega)).step (k := 8) (by omega)).step (k := 16) (by omega))
  have hsize : (v - 1).size ≤ width - 1 := Nat.size_le.mpr (by omega)
  have hpow : 2 ^ (v - 1).size ≤ 2 ^ (width - 1) := Nat.pow_le_pow_right (by omega) hsize
  have hpos := Nat.two_pow_pos (v - 1).size
  have hlt := hspread.lt
  rw [roundPowerOf2, hsub, ← hspread.eq_pred_iff, Word.add_eq (by omega)]
  omega

/-- `roundPowerOf2` of a number whose predecessor has at most 31 bits is a power of two. -/
theorem roundPowerOf2_eq {v : ℕ} (hv : 0 < v) (hlt : v ≤ 2 ^ 31) :
    roundPowerOf2 v = 2 ^ (v - 1).size := by
  have hwidth : 31 ≤ width - 1 := by
    rcases Platform.wordBytes_eq with h | h
    · rw [width, h]
    · rw [width, h]
      omega
  apply (roundPowerOf2_eq_iff hv (hlt.trans (Nat.pow_le_pow_right (by omega) hwidth))).mpr
  exact dense_of_lt (by omega)

/-! ### Classes -/

/-- The size of the chunks of the class number `i`. -/
def classSize (i : ℕ) : ℕ := 2 ^ (i + 4)

omit [Platform] in
/-- Chunk sizes are multiples of sixteen. -/
theorem classSize_dvd (i : ℕ) : 16 ∣ classSize i := Nat.pow_dvd_pow 2 (show 4 ≤ i + 4 by omega)

omit [Platform] in
/-- Chunks have at least sixteen bytes. -/
theorem classSize_ge (i : ℕ) : 16 ≤ classSize i :=
  Nat.pow_le_pow_right (show 0 < 2 by omega) (show 4 ≤ i + 4 by omega)

omit [Platform] in
/-- Chunks are not empty. -/
theorem classSize_pos (i : ℕ) : 0 < classSize i := Nat.two_pow_pos _

omit [Platform] in
/-- Different classes have chunks of different sizes. -/
theorem classSize_inj {i j : ℕ} : classSize i = classSize j ↔ i = j := by
  rw [classSize, classSize, Nat.pow_right_inj (le_refl 2)]
  omega

/-- There are fewer classes than bits in a word. -/
theorem maxZoneIdx_lt : maxZoneIdx < width := by
  have hmax : maxZoneIdx = 8 := rfl
  rcases Platform.wordBytes_eq with h | h <;> rw [hmax, width, h] <;> omega

/-- The chunk size of a class has the index of the class. -/
theorem zoneIdx_classSize {i : ℕ} (hi : i < width) : zoneIdx (classSize i) = i := by
  have hlt : i + 4 < 2 ^ width := by
    have hwidth := maxZoneIdx_lt
    have hmax : maxZoneIdx = 8 := rfl
    have hpow := Nat.mul_le_mul_left 2 (Nat.lt_two_pow_self (n := width - 1))
    rw [← Nat.pow_succ', Nat.succ_eq_add_one, Nat.sub_add_cancel (by omega)] at hpow
    omega
  rw [zoneIdx, classSize, Nat.log_pow (by omega), Word.sub_eq (by omega) hlt, Nat.add_sub_cancel]

/-- A size that is rounded up to the size of a class has the index of the class. -/
theorem zoneIdx_chunkSize {size i : ℕ} (h : chunkSize size = classSize i) :
    zoneIdx (chunkSize size) = i := by
  have hlt : 2 ^ (i + 4) < 2 ^ width := by
    rw [← classSize, ← h]
    exact Word.add_lt _ _
  have hi := (Nat.pow_lt_pow_iff_right (by omega)).mp hlt
  rw [h, zoneIdx_classSize (by omega)]

/-- Every size is rounded up to the size of a class. -/
theorem chunkSize_eq {size : ℕ} (hlt : size ≤ 2 ^ 31) :
    ∃ i, chunkSize size = classSize i ∧ size ≤ classSize i := by
  have hmin : minimalAllocSize = 16 := rfl
  have hmax : max size minimalAllocSize ≤ 2 ^ 31 := by omega
  have hround := roundPowerOf2_eq (v := max size minimalAllocSize) (by omega) hmax
  have hfour : 4 ≤ (max size minimalAllocSize - 1).size := by
    have h := Nat.lt_size (m := 3) (n := max size minimalAllocSize - 1)
    omega
  have hle := Nat.lt_size_self (max size minimalAllocSize - 1)
  refine ⟨(max size minimalAllocSize - 1).size - 4, ?_, ?_⟩ <;>
    rw [classSize, Nat.sub_add_cancel hfour]
  · exact hround
  · omega

/-- The class of the chunks that hold zone descriptors. -/
def descIdx : ℕ := zoneIdx (chunkSize sizeofZone)

/-- The two machines: 32-byte chunks for descriptors of 28 bytes, 64-byte chunks for 56 bytes. -/
theorem descIdx_cases : (wordBytes = 4 ∧ descIdx = 1) ∨ (wordBytes = 8 ∧ descIdx = 2) := by
  have key : ∀ {size i : ℕ}, 16 ≤ size → size ≤ 2 ^ 31 → (size - 1).size = i + 4 →
      zoneIdx (chunkSize size) = i := by
    intro size i hge hle hsize
    have hmax : max size minimalAllocSize = size := Nat.max_eq_left hge
    apply zoneIdx_chunkSize
    rw [chunkSize, hmax, roundPowerOf2_eq (by omega) hle, hsize, classSize]
  rcases Platform.wordBytes_eq with h | h
  · exact Or.inl ⟨h, key (by rw [sizeofZone, h]; omega) (by rw [sizeofZone, h]; omega)
      (by rw [sizeofZone, h]; decide)⟩
  · exact Or.inr ⟨h, key (by rw [sizeofZone, h]; omega) (by rw [sizeofZone, h]; omega)
      (by rw [sizeofZone, h]; decide)⟩

/-- The class for descriptors is one of the classes. -/
theorem descIdx_lt : descIdx < maxZoneIdx := by
  have hmax : maxZoneIdx = 8 := rfl
  rcases descIdx_cases with ⟨-, h⟩ | ⟨-, h⟩ <;> omega

/-- A zone descriptor fits in a chunk of the class for descriptors. -/
theorem sizeofZone_le : sizeofZone ≤ classSize descIdx := by
  rcases descIdx_cases with ⟨hw, h⟩ | ⟨hw, h⟩ <;> rw [sizeofZone, hw, h, classSize] <;> omega

/-- The chunks for descriptors are small. -/
theorem classSize_descIdx_le : classSize descIdx ≤ 64 := by
  rcases descIdx_cases with ⟨-, h⟩ | ⟨-, h⟩ <;> rw [h, classSize] <;> omega

/-- The chunks for descriptors have the size that the zone allocator computes. -/
theorem chunkSize_sizeofZone : chunkSize sizeofZone = classSize descIdx := by
  have hle : sizeofZone ≤ 2 ^ 31 := by
    have := sizeofZone_le
    have := classSize_descIdx_le
    omega
  obtain ⟨i, h, -⟩ := chunkSize_eq hle
  rw [descIdx, zoneIdx_chunkSize h, h]

end Liballocator
