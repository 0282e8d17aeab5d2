import Liballocator.Pages.Stored
import Liballocator.Pages.Totals

/-!
# The memory totals of the page allocator

The loops of `getStats` begin with `0U`, so the sums are kept in 32 bits whatever the size of a word
is.  After every run the totals are those of the accepted regions exactly when the sizes of these
regions add up to less than `2 ^ 32` (`PageRun.totals_iff`).
-/

namespace Liballocator

open Program Tiling

section Totals

variable [Platform] {regions : List Region} {ps : ℕ} {s₀ s₁ s : PageState} {live : List PageBlock}

/-- The statistics show the exact totals of the regions with the records `infos`. -/
structure PageAllocator.TotalsExact (infos : List RegionInfo) (s : PageState) : Prop where
  total : s.self.getStats.totalMemorySize = (infos.map RegionInfo.size).sum
  effective : s.self.getStats.effectiveMemorySize = (infos.map RegionInfo.alignedSize).sum
  user : s.self.getStats.userMemorySize +
    s.self.getStats.reservedPagesCount * s.self.getStats.pageSize =
      s.self.getStats.effectiveMemorySize
  free : s.self.getStats.freeMemorySize ≤ s.self.getStats.userMemorySize

/-- The statistics of a represented state without its two counters. -/
theorem PageRep.getStats {L : Layout} {a : Pages} (hr : PageRep L a s) : s.self.getStats =
    { L.config.getStats with
      freeMemorySize := Word.mul s.self.freePagesCount L.config.pageSize
      freePagesCount := s.self.freePagesCount } := by
  rw [hr.config]
  rfl

/-- What is not reserved has room for the free pages. -/
theorem Fitting.free_add_reserved_le (h : Fitting regions ps) {a : Pages} {gs : List Group}
    (hr : PageRep (layout h) a s)
    (hreach : Pages.Reach (layout h) (Pages.initial (accepted ps regions) ps) a gs)
    (hi : (Pages.initial (accepted ps regions) ps).Inv) :
    s.self.freePagesCount + reservedPages (layout h).count ps ≤ (layout h).count := by
  obtain ⟨hia, -, hused⟩ := hreach.inv hi
  have hle := hia.freeCount_add_le
  rw [(hused.map Span.size).sum_eq, h.used_initial, List.map_append, List.sum_append,
    List.map_singleton, List.sum_singleton, hr.count] at hle
  have hcounter := hr.table.freeCount
  have hsize : (reservedGroup (accepted ps regions) ps).size = reservedPages (layout h).count ps :=
    rfl
  omega

/-- The totals are exact when 32 bits hold the size of all regions. -/
theorem Fitting.totalsExact (h : Fitting regions ps) {a : Pages} {gs : List Group}
    (hlt : ((accepted ps regions).map RegionInfo.size).sum < 2 ^ 32)
    (hr : PageRep (layout h) a s)
    (hreach : Pages.Reach (layout h) (Pages.initial (accepted ps regions) ps) a gs)
    (hi : (Pages.initial (accepted ps regions) ps).Inv) :
    PageAllocator.TotalsExact (accepted ps regions) s := by
  obtain ⟨htotal, heffective, hle⟩ := h.getStats_config hlt
  have hfree := h.free_add_reserved_le hr hreach hi
  have hword := two_pow_32_le
  have hmul := Nat.mul_le_mul_right ps hfree
  rw [Nat.add_mul] at hmul
  -- none of the products is cut off
  have hreserved : Word.mul ps (reservedPages (layout h).count ps) =
      reservedPages (layout h).count ps * ps := by
    rw [Word.mul_eq (by rw [Nat.mul_comm]; omega), Nat.mul_comm]
  have hpages : Word.mul s.self.freePagesCount ps = s.self.freePagesCount * ps :=
    Word.mul_eq (by omega)
  have huser : (layout h).config.getStats.userMemorySize =
      (layout h).count * ps - reservedPages (layout h).count ps * ps := by
    refine (congrArg (fun x => Word.sub x _) heffective).trans ?_
    refine (congrArg (Word.sub _) hreserved).trans (Word.sub_eq (by omega) (by omega))
  have hstats := hr.getStats
  refine ⟨?_, ?_, ?_, ?_⟩ <;> rw [hstats]
  · exact htotal
  · exact heffective.trans (h.layout_count ▸ h.sum_alignedSize.symm)
  · simp only [huser, heffective]
    exact Nat.sub_add_cancel (by omega)
  · simp only [huser]
    refine (le_of_eq hpages).trans (by omega)

/-- The totals are right after every run exactly when 32 bits hold the size of all accepted
regions. -/
theorem PageRun.totals_iff (hlt : ps < 2 ^ width) (hv : ValidRegions regions)
    (htable : pageSum (accepted ps regions) * sizeofPage ≤
      (descRegionOf (accepted ps regions) ps).alignedSize)
    (hsmall : ∀ r ∈ accepted ps regions, r.pageCount < 2 ^ 21)
    (hinit : PageAllocator.init regions ps s₀ = .ok (true, s₁)) :
    (∀ s live, PageRun s₁ s live → PageAllocator.TotalsExact (accepted ps regions) s) ↔
      ((accepted ps regions).map RegionInfo.size).sum < 2 ^ 32 := by
  have h := PageAllocator.fitting_of_init hlt hv htable hinit
  obtain ⟨-, hr, -⟩ := (PageAllocator.init_spec h hsmall).of_run_eq hinit
  constructor
  · intro hall
    have htotal := (hall s₁ [] .start).total
    have hsize := map_size_placeRegions
      (PageAllocator.configured (accepted ps regions) ps).pagesHead 0 (accepted ps regions)
    have hregions : s₁.self.regionsInfo = (layout h).config.regionsInfo := by
      rw [hr.config]
    have hsum : (s₁.self.regionsInfo.map RegionInfo.size).sum =
        ((accepted ps regions).map RegionInfo.size).sum :=
      congrArg List.sum ((congrArg (List.map _) hregions).trans hsize.1)
    rw [PageAllocator.totalMemorySize_eq, hsum] at htotal
    rw [← htotal]
    exact Nat.mod_lt _ (Nat.two_pow_pos 32)
  · intro hfit s live hrun
    obtain ⟨a, gs, hreach, hra, -⟩ := hrun.simulation hr
    exact h.totalsExact hfit hra hreach hr.inv

end Totals

section Lp64

attribute [local instance] lp64

/-- Two regions of 512 bytes each are far below the limit. -/
theorem PageRun.totals_touching : ∃ s₁,
    PageAllocator.init touchingRegions 256 blankPages = .ok (true, s₁) ∧
      ∀ s live, PageRun s₁ s live →
        PageAllocator.TotalsExact (accepted 256 touchingRegions) s := by
  obtain ⟨s₁, hinit⟩ := touchingRegions_good.init_returns blankPages
    touchingRegions_fitting.pageSize touchingRegions_fitting.entries
    touchingRegions_fitting.exists_page
  exact ⟨s₁, hinit, (PageRun.totals_iff (by decide) touchingRegions_fitting.valid
    touchingRegions_fitting.table (by decide) hinit).mpr (by decide)⟩

/-- A region of four gigabytes: `2 ^ 20` pages of 4096 bytes. -/
def wideRegions : List Region := [⟨4096, 4294967296⟩]

theorem wideRegions_fitting : Fitting wideRegions 4096 :=
  ⟨⟨12, by decide, by decide, rfl⟩, ⟨by decide, by decide, by decide⟩, by decide, by decide,
    by decide, by decide⟩

/-- Four gigabytes of memory are shown as none. -/
theorem exists_wrapped_total : ValidRegions wideRegions ∧
    pageSum (accepted 4096 wideRegions) * sizeofPage ≤
      (descRegionOf (accepted 4096 wideRegions) 4096).alignedSize ∧
    (∀ r ∈ accepted 4096 wideRegions, r.pageCount < 2 ^ 21) ∧ ∃ s₁,
      PageAllocator.init wideRegions 4096 blankPages = .ok (true, s₁) ∧ PageRun s₁ s₁ [] ∧
      s₁.self.getStats.totalMemorySize = 0 ∧
      ¬PageAllocator.TotalsExact (accepted 4096 wideRegions) s₁ := by
  have hsmall : ∀ r ∈ accepted 4096 wideRegions, r.pageCount < 2 ^ 21 := by decide
  obtain ⟨_, s₁, hinit, rfl, hr, -⟩ :=
    PageAllocator.init_spec (s := blankPages) wideRegions_fitting hsmall
  have htotal : s₁.self.getStats.totalMemorySize = 0 := by
    rw [hr.getStats]
    exact (show (layout wideRegions_fitting).config.getStats.totalMemorySize = 0 by decide)
  exact ⟨wideRegions_fitting.valid, wideRegions_fitting.table, hsmall, s₁, hinit, .start, htotal,
    fun h => absurd (htotal.symm.trans h.total) (by decide)⟩

end Lp64

end Liballocator
