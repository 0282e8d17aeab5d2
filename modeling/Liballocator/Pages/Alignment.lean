import Liballocator.Pages.Regions
import Mathlib.Data.Finset.Card
import Mathlib.Data.Finset.Image

/-!
# Which regions are accepted

`Region.wholePages` collects the addresses of the pages inside of a region.  For a region whose end
is an address `initRegionInfo` finds exactly these pages.  If the end is behind the last address,
the sum `address + size` wraps around and lies before the region.  Then there is no aligned end, and
the only regions that are rejected instead of failing an assertion are those smaller than a page.
-/

namespace Liballocator

open Align

/-- The addresses of the pages that lie inside of a region. -/
def Region.wholePages (r : Region) (ps : ℕ) : Finset ℕ :=
  {m ∈ Finset.range (r.address + r.size) |
    ps ∣ m ∧ r.address ≤ m ∧ m + ps ≤ r.address + r.size}

variable {r : Region} {ps : ℕ}

/-- The whole pages of a region begin at multiples of the page size and end inside of the region. -/
theorem Region.mem_wholePages (hps : 0 < ps) {m : ℕ} :
    m ∈ r.wholePages ps ↔ ps ∣ m ∧ r.address ≤ m ∧ m + ps ≤ r.address + r.size := by
  rw [Region.wholePages, Finset.mem_filter, Finset.mem_range, and_iff_right_iff_imp]
  rintro ⟨-, -, hle⟩
  omega

/-- A region without pages ends in front of the end of every page behind its start. -/
theorem Region.wholePages_eq_empty_iff (hps : 0 < ps) : r.wholePages ps = ∅ ↔
    ∀ m, ps ∣ m → r.address ≤ m → r.address + r.size < m + ps := by
  rw [Finset.eq_empty_iff_forall_notMem]
  apply forall_congr'
  intro m
  rw [Region.mem_wholePages hps]
  constructor
  · intro h hdvd hge
    by_contra hc
    exact h ⟨hdvd, hge, Nat.le_of_not_lt hc⟩
  · rintro h ⟨hdvd, hge, hle⟩
    exact absurd (h hdvd hge) (Nat.not_lt.mpr hle)

section Regions

namespace RegionInfo.Describes

variable {info : RegionInfo}

/-- The pages of a record that leaves less than a page free at both ends of the region. -/
theorem wholePages_eq (hd : info.Describes ps r) (hps : 0 < ps)
    (hstart : info.alignedStart < r.address + ps)
    (hend : r.address + r.size < info.alignedEnd + ps) :
    r.wholePages ps = (Finset.range info.pageCount).image fun i => info.alignedStart + i * ps := by
  have hge := hd.le_alignedStart
  have hle := hd.alignedEnd_le
  have heq := hd.alignedEnd_eq
  ext m
  rw [Region.mem_wholePages hps, Finset.mem_image]
  constructor
  · rintro ⟨hdvd, h₁, h₂⟩
    have hm : info.alignedStart ≤ m := le_of_dvd_of_lt_add hd.dvd hdvd (by omega)
    obtain ⟨i, hi⟩ := Nat.dvd_sub hdvd hd.dvd
    rw [Nat.mul_comm] at hi
    have hlt : i * ps < info.pageCount * ps := by omega
    exact ⟨i, Finset.mem_range.mpr (Nat.lt_of_mul_lt_mul_right hlt), by omega⟩
  · rintro ⟨i, hi, rfl⟩
    have hmul := Nat.mul_le_mul_right ps (Nat.succ_le_of_lt (Finset.mem_range.mp hi))
    rw [Nat.succ_mul] at hmul
    exact ⟨Nat.dvd_add hd.dvd (Dvd.intro_left i rfl), by omega, by omega⟩

/-- There are as many whole pages as the record says. -/
theorem card_wholePages (hd : info.Describes ps r) (hps : 0 < ps)
    (hstart : info.alignedStart < r.address + ps)
    (hend : r.address + r.size < info.alignedEnd + ps) :
    (r.wholePages ps).card = info.pageCount := by
  rw [hd.wholePages_eq hps hstart hend, Finset.card_image_of_injective, Finset.card_range]
  intro i j he
  exact Nat.eq_of_mul_eq_mul_right hps (Nat.add_left_cancel he)

/-- The aligned start is the first multiple of the page size in the region. -/
theorem isLeast_alignedStart (hd : info.Describes ps r)
    (hstart : info.alignedStart < r.address + ps) :
    IsLeast {m | ps ∣ m ∧ r.address ≤ m} info.alignedStart := by
  refine ⟨⟨hd.dvd, hd.le_alignedStart⟩, ?_⟩
  rintro m ⟨hdvd, hle⟩
  exact le_of_dvd_of_lt_add hd.dvd hdvd (by omega)

/-- The aligned end is the last multiple of the page size in the region. -/
theorem isGreatest_alignedEnd (hd : info.Describes ps r)
    (hend : r.address + r.size < info.alignedEnd + ps) :
    IsGreatest {m | ps ∣ m ∧ m ≤ r.address + r.size} info.alignedEnd := by
  have hdvd : ps ∣ info.alignedEnd := by
    rw [hd.alignedEnd_eq]
    exact Nat.dvd_add hd.dvd (Dvd.intro_left _ rfl)
  refine ⟨⟨hdvd, hd.alignedEnd_le⟩, ?_⟩
  rintro m ⟨hm, hle⟩
  exact le_of_dvd_of_lt_add hm hdvd (by omega)

end RegionInfo.Describes

variable [Platform]

/-- `initRegionInfo` accepts the regions that contain a page and finds all of their pages. -/
theorem initRegionInfo_exact {k : ℕ} (hk : k < width) (hr : r.address + r.size < 2 ^ width) :
    ∃ valid info, initRegionInfo r (2 ^ k) = .ok (valid, info) ∧
      (valid = true ↔ (r.wholePages (2 ^ k)).Nonempty) ∧
      (valid = true →
        IsLeast {m | 2 ^ k ∣ m ∧ r.address ≤ m} info.alignedStart ∧
        IsGreatest {m | 2 ^ k ∣ m ∧ m ≤ r.address + r.size} info.alignedEnd ∧
        info.pageCount = (r.wholePages (2 ^ k)).card ∧
        info.alignedSize = info.pageCount * 2 ^ k ∧
        info.alignedSize = info.alignedEnd - info.alignedStart) := by
  have hpos := Nat.two_pow_pos k
  obtain ⟨valid, info, he, hd, hnone⟩ := initRegionInfo_two_pow hk hr
  refine ⟨valid, info, he, ?_, fun hv => ?_⟩
  · cases valid with
    | false =>
      refine ⟨fun hc => absurd hc (by simp), ?_⟩
      rw [(Region.wholePages_eq_empty_iff hpos).mpr (hnone rfl)]
      exact fun hc => absurd hc Finset.not_nonempty_empty
    | true =>
      obtain ⟨hd, hstart, hend⟩ := hd rfl
      refine ⟨fun _ => Finset.card_pos.mp ?_, fun _ => rfl⟩
      rw [hd.card_wholePages hpos hstart hend]
      exact hd.pageCount_pos
  · obtain ⟨hd, hstart, hend⟩ := hd hv
    refine ⟨hd.isLeast_alignedStart hstart, hd.isGreatest_alignedEnd hend,
      (hd.card_wholePages hpos hstart hend).symm, hd.alignedSize_eq, ?_⟩
    rw [hd.alignedSize_eq, hd.alignedEnd_eq, Nat.add_sub_cancel_left]

end Regions

section Lp64

attribute [local instance] lp64

/-- A region of two pages whose ends are both unaligned. -/
theorem initRegionInfo_exact_unaligned :
    ∃ valid info, initRegionInfo ⟨4097, 8192⟩ (2 ^ 12) = .ok (valid, info) ∧
      (valid = true ↔ (Region.wholePages ⟨4097, 8192⟩ (2 ^ 12)).Nonempty) ∧
      (valid = true →
        IsLeast {m | 2 ^ 12 ∣ m ∧ 4097 ≤ m} info.alignedStart ∧
        IsGreatest {m | 2 ^ 12 ∣ m ∧ m ≤ 4097 + 8192} info.alignedEnd ∧
        info.pageCount = (Region.wholePages ⟨4097, 8192⟩ (2 ^ 12)).card ∧
        info.alignedSize = info.pageCount * 2 ^ 12 ∧
        info.alignedSize = info.alignedEnd - info.alignedStart) :=
  initRegionInfo_exact (r := ⟨4097, 8192⟩) (by decide) (by decide)

end Lp64

/-! ### The end of the address space -/

section Boundary

variable [Platform]

/-- `initRegionInfo` returns, and it accepts the region exactly if there is a page in it. -/
def Judged (ps : ℕ) (r : Region) : Prop :=
  ∃ valid info, initRegionInfo r ps = .ok (valid, info) ∧
    (valid = true ↔ (r.wholePages ps).Nonempty)

omit [Platform] in
/-- A region smaller than a page contains none. -/
theorem wholePages_small (hps : 0 < ps) (hsize : r.size < ps) : r.wholePages ps = ∅ :=
  (Region.wholePages_eq_empty_iff hps).mpr fun m _ _ => by omega

/-- The end of a region that wraps around lies before its start, so it has no aligned end. -/
theorem alignedEnd_wrapped (h : ValidPageSize ps) (haddr : r.address < 2 ^ width)
    (hsize : r.size < 2 ^ width) (hwrap : 2 ^ width ≤ r.address + r.size) :
    alignedEnd r ps = none := by
  have hadd : Word.add r.address r.size = r.address + r.size - 2 ^ width := by
    rw [Word.add, Nat.mod_eq_sub_mod hwrap, Nat.mod_eq_of_lt (by omega)]
  have hdown : alignDown (Word.add r.address r.size) ps ≤ Word.add r.address r.size := by
    rw [alignDown_eq h (Word.add_lt _ _)]
    exact Nat.div_mul_le_self _ _
  rw [alignedEnd]
  exact if_pos (by omega)

/-- A region is judged unless it reaches beyond the last address and is not smaller than a page. -/
theorem judged_iff (h : ValidPageSize ps) (haddr : r.address < 2 ^ width)
    (hsize : r.size < 2 ^ width) :
    Judged ps r ↔ r.size < ps ∨ r.address + r.size < 2 ^ width := by
  constructor
  · rintro ⟨valid, info, he, -⟩
    by_contra hc
    push Not at hc
    rw [initRegionInfo, if_neg (by omega), alignedEnd_wrapped h haddr hsize hc.2] at he
    cases hs : alignedStart r ps <;> rw [hs] at he <;> exact absurd he (by simp)
  · rintro (hlt | hlt)
    · refine ⟨false, clearRegionInfo, if_pos hlt, fun hc => absurd hc (by simp), ?_⟩
      rw [wholePages_small h.pos hlt]
      exact fun hc => absurd hc Finset.not_nonempty_empty
    · obtain ⟨k, -, hk, rfl⟩ := h
      obtain ⟨valid, info, he, hv, -⟩ := initRegionInfo_exact hk hlt
      exact ⟨valid, info, he, hv⟩

/-- Regions of arbitrary address and size are judged unless they reach beyond the last address and
are not smaller than a page; for the region between two boundaries this means that they are in
order, or that the region that wraps around is smaller than a page. -/
theorem initRegionInfo_judged_iff (h : ValidPageSize ps) :
    (∀ r : Region, r.address < 2 ^ width → r.size < 2 ^ width →
      (Judged ps r ↔ r.size < ps ∨ r.address + r.size < 2 ^ width)) ∧
    ∀ start stop, start < 2 ^ width → stop < 2 ^ width →
      (Judged ps ⟨start, Word.sub stop start⟩ ↔
        start ≤ stop ∨ 2 ^ width + stop < start + ps) := by
  refine ⟨fun r haddr hsize => judged_iff h haddr hsize, fun start stop hstart hstop => ?_⟩
  have hps := h.lt
  rw [judged_iff (r := ⟨start, Word.sub stop start⟩) h hstart (Word.sub_lt _ _)]
  dsimp only
  by_cases hle : start ≤ stop
  · rw [Word.sub_eq hle hstop]
    exact iff_of_true (Or.inr (by omega)) (Or.inl hle)
  · have hsub : Word.sub stop start = 2 ^ width - (start - stop) := by
      rw [Word.sub, Nat.mod_eq_of_lt hstart, Nat.mod_eq_of_lt (by omega)]
      omega
    rw [hsub]
    constructor
    · rintro (hlt | hlt) <;> omega
    · rintro (hlt | hlt) <;> omega

end Boundary

section Lp64

attribute [local instance] lp64

/-- 4096 is a valid page size. -/
theorem validPageSize_4096 : ValidPageSize 4096 := ⟨12, by decide, by decide, rfl⟩

/-- With pages of 4096 bytes, a region is judged when it is smaller than a page or ends inside of
the address space. -/
theorem initRegionInfo_judged_4096 :
    (∀ r : Region, r.address < 2 ^ width → r.size < 2 ^ width →
      (Judged 4096 r ↔ r.size < 4096 ∨ r.address + r.size < 2 ^ width)) ∧
    ∀ start stop, start < 2 ^ width → stop < 2 ^ width →
      (Judged 4096 ⟨start, Word.sub stop start⟩ ↔
        start ≤ stop ∨ 2 ^ width + stop < start + 4096) :=
  initRegionInfo_judged_iff validPageSize_4096

/-- The last page of the address space, two pages around its end, and boundaries in the wrong order:
the first region is usable, and all of them fail an assertion. -/
theorem exists_unjudged :
    ¬(∀ r : Region, r.address < 2 ^ width → r.size < 2 ^ width → Judged 4096 r) ∧
    18446744073709547520 ∈ Region.wholePages ⟨18446744073709547520, 4096⟩ 4096 ∧
    initRegionInfo ⟨18446744073709547520, 4096⟩ 4096 = .error .assertion ∧
    initRegionInfo ⟨18446744073709547520, 8192⟩ 4096 = .error .assertion ∧
    initRegionInfo ⟨8192, Word.sub 4096 8192⟩ 4096 = .error .assertion := by
  refine ⟨fun h => ?_, ?_, rfl, rfl, rfl⟩
  · obtain ⟨_, _, he, -⟩ := h ⟨18446744073709547520, 4096⟩ (by decide) (by decide)
    exact absurd he (by simp [show initRegionInfo ⟨18446744073709547520, 4096⟩ 4096 =
      .error .assertion from rfl])
  · rw [Region.mem_wholePages (by omega)]
    decide

end Lp64

end Liballocator
