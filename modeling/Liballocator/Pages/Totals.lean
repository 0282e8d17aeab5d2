import Liballocator.Pages.Initial
import Mathlib.Algebra.BigOperators.Ring.List

/-!
# The sums in the statistics

`getStats` of the page allocator accumulates the sizes of the regions and the sizes of their aligned
parts modulo `2 ^ 32`.  As long as they fit, the sums are those of the accepted regions.
-/

namespace Liballocator

open Tiling

variable [Platform]

/-- Sums of 32 bits are compatible with words. -/
theorem two_pow_32_dvd : 2 ^ 32 ∣ 2 ^ width :=
  Nat.pow_dvd_pow 2 ((Nat.pow_le_pow_iff_right (by omega)).mp two_pow_32_le)

/-- The wrapping operations do not matter to a sum modulo `2 ^ 32`. -/
theorem add_mod_32 (a b : ℕ) : Word.add a b % 2 ^ 32 = (a + b) % 2 ^ 32 :=
  Nat.mod_mod_of_dvd _ two_pow_32_dvd

/-- What the loops over the regions accumulate. -/
theorem foldl_add_32 {f : RegionInfo → ℕ} {infos : List RegionInfo} {x : ℕ} (hx : x < 2 ^ 32) :
    infos.foldl (fun sum region => Word.add sum (f region) % 2 ^ 32) x =
      (x + (infos.map f).sum) % 2 ^ 32 := by
  induction infos generalizing x with
  | nil =>
    rw [List.foldl_nil, List.map_nil, List.sum_nil, Nat.add_zero]
    exact (Nat.mod_eq_of_lt hx).symm
  | cons r rs ih =>
    rw [List.foldl_cons, ih (Nat.mod_lt _ (Nat.two_pow_pos 32)), add_mod_32, Nat.mod_add_mod,
      List.map_cons, List.sum_cons, Nat.add_assoc]

namespace PageAllocator

/-- The total size is a sum modulo `2 ^ 32`. -/
theorem totalMemorySize_eq (self : PageAllocator) : self.getStats.totalMemorySize =
    (self.regionsInfo.map RegionInfo.size).sum % 2 ^ 32 :=
  (foldl_add_32 (Nat.two_pow_pos 32)).trans (by rw [Nat.zero_add])

/-- The effective size is a sum modulo `2 ^ 32`. -/
theorem effectiveMemorySize_eq (self : PageAllocator) : self.getStats.effectiveMemorySize =
    (self.regionsInfo.map RegionInfo.alignedSize).sum % 2 ^ 32 :=
  (foldl_add_32 (Nat.two_pow_pos 32)).trans (by rw [Nat.zero_add])

end PageAllocator

/-- The sizes in the records do not depend on their pointers. -/
theorem map_size_placeRegions (head c : ℕ) (infos : List RegionInfo) :
    (placeRegions head c infos).map RegionInfo.size = infos.map RegionInfo.size ∧
      (placeRegions head c infos).map RegionInfo.alignedSize =
        infos.map RegionInfo.alignedSize := by
  induction infos generalizing c with
  | nil => exact ⟨rfl, rfl⟩
  | cons r rs ih =>
    obtain ⟨h₁, h₂⟩ := ih (c + r.pageCount)
    rw [placeRegions, List.map_cons, List.map_cons, List.map_cons, List.map_cons, h₁, h₂]
    exact ⟨rfl, rfl⟩

/-! ### The sums of usable regions -/

variable {regions : List Region} {ps : ℕ}

omit [Platform] in
/-- The pages of a region are not larger than the region. -/
theorem RegionInfo.Describes.alignedSize_le {info : RegionInfo} {r : Region}
    (h : info.Describes ps r) : info.alignedSize ≤ info.size := by
  have h₁ := h.le_alignedStart
  have h₂ := h.alignedEnd_eq
  have h₃ := h.alignedEnd_le
  rw [h.alignedSize_eq, h.size_eq]
  omega

/-- The accepted regions are some of the regions. -/
theorem ValidRegions.sum_accepted_le (hv : ValidRegions regions) (hps : ValidPageSize ps) :
    ((accepted ps regions).map RegionInfo.size).sum ≤ (regions.map Region.size).sum := by
  have hadd := hv.add_lt
  clear hv
  induction regions with
  | nil => exact le_rfl
  | cons r rs ih =>
    have ih := ih fun r hr => hadd r (List.mem_cons_of_mem _ hr)
    rw [List.map_cons, List.sum_cons]
    cases hs : usableRegion ps r with
    | none =>
      rw [accepted, List.filterMap_cons_none hs]
      exact ih.trans (Nat.le_add_left _ _)
    | some info =>
      rw [accepted, List.filterMap_cons_some hs, List.map_cons, List.sum_cons,
        (usableRegion_eq_some hps (hadd r List.mem_cons_self) hs).size_eq]
      exact Nat.add_le_add_left ih _

namespace Fitting

variable (h : Fitting regions ps)

include h

/-- The aligned parts of the regions are made of whole pages. -/
theorem sum_alignedSize :
    ((accepted ps regions).map RegionInfo.alignedSize).sum = pageSum (accepted ps regions) * ps := by
  rw [pageSum, List.map_congr_left fun _ => h.alignedSize_eq]
  exact List.sum_map_mul_right _ _ _

/-- The pages of all regions are not larger than the regions. -/
theorem sum_alignedSize_le : ((accepted ps regions).map RegionInfo.alignedSize).sum ≤
    ((accepted ps regions).map RegionInfo.size).sum := by
  apply List.sum_le_sum
  intro info hi
  obtain ⟨r, -, hd, -⟩ := h.describes hi
  exact hd.alignedSize_le

/-- The statistics of the page allocator, when the sizes of the regions add up to a number of 32
bits. -/
theorem getStats_config (hlt : ((accepted ps regions).map RegionInfo.size).sum < 2 ^ 32) :
    (layout h).config.getStats.totalMemorySize =
        ((accepted ps regions).map RegionInfo.size).sum ∧
      (layout h).config.getStats.effectiveMemorySize = (layout h).count * ps ∧
      (layout h).count * ps ≤ ((accepted ps regions).map RegionInfo.size).sum := by
  have hle := h.sum_alignedSize_le
  have hsize := map_size_placeRegions (PageAllocator.configured (accepted ps regions) ps).pagesHead
    0 (accepted ps regions)
  have hsum := h.sum_alignedSize
  rw [PageAllocator.totalMemorySize_eq, PageAllocator.effectiveMemorySize_eq, h.layout_count]
  refine ⟨?_, ?_, by omega⟩
  · exact (congrArg (fun l => List.sum l % 2 ^ 32) hsize.1).trans (Nat.mod_eq_of_lt hlt)
  · refine (congrArg (fun l => List.sum l % 2 ^ 32) hsize.2).trans ?_
    rw [Nat.mod_eq_of_lt (by omega), hsum]

end Fitting

end Liballocator
