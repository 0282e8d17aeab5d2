import Liballocator.Pages.Layout

/-!
# The region with the table

`chooseDescRegion` looks for the smallest region that can hold the table.  Its running best starts
with the first region, whether or not that one is large enough.  When it is, the search ends with a
best fit (`BestFit`); otherwise the first region is smaller than every region that is large enough,
so it stays selected, and the table reaches over its end.
-/

namespace Liballocator

open Program Tiling

/-- The region number `idx` has room for `size` bytes, and it is the smallest one with so much
room. -/
structure BestFit (infos : List RegionInfo) (size idx : ℕ) : Prop where
  lt : idx < infos.length
  fits : size ≤ (infos.getD idx clearRegionInfo).alignedSize
  least : ∀ info ∈ infos, size ≤ info.alignedSize →
    (infos.getD idx clearRegionInfo).alignedSize ≤ info.alignedSize

section Search

variable {all done rest : List RegionInfo} {size selected : ℕ}

/-- The running best among the regions `done`. -/
private structure BestSoFar (all done : List RegionInfo) (size selected : ℕ) : Prop where
  lt : selected < all.length
  fits : size ≤ (all.getD selected clearRegionInfo).alignedSize
  least : ∀ info ∈ done, size ≤ info.alignedSize →
    (all.getD selected clearRegionInfo).alignedSize ≤ info.alignedSize

/-- One more region that is not better. -/
private theorem BestSoFar.keep {r : RegionInfo} (h : BestSoFar all done size selected)
    (hr : size ≤ r.alignedSize →
      (all.getD selected clearRegionInfo).alignedSize ≤ r.alignedSize) :
    BestSoFar all (done ++ [r]) size selected := by
  refine ⟨h.lt, h.fits, fun info hi hle => ?_⟩
  rcases List.mem_append.mp hi with hi | hi
  · exact h.least info hi hle
  · obtain rfl := List.mem_singleton.mp hi
    exact hr hle

/-- The search goes on from a running best that is large enough. -/
private theorem BestSoFar.search (h : BestSoFar all done size selected) (hs : all = done ++ rest) :
    BestFit all size
      (PageAllocator.chooseDescRegionFrom all size done.length selected rest) := by
  induction rest generalizing done selected with
  | nil =>
    rw [List.append_nil] at hs
    exact ⟨h.lt, h.fits, fun info hi => h.least info (hs ▸ hi)⟩
  | cons r rs ih =>
    have hs' : all = (done ++ [r]) ++ rs := by rw [hs, List.append_assoc, List.singleton_append]
    have hlen : done.length + 1 = (done ++ [r]).length := by simp
    have hget : all.getD done.length clearRegionInfo = r := by
      rw [hs, List.getD_eq_getElem?_getD]
      simp
    unfold PageAllocator.chooseDescRegionFrom
    rw [hlen]
    split_ifs with hsmall hbetter
    · exact ih (h.keep fun hle => absurd hle (Nat.not_le_of_lt hsmall)) hs'
    · -- the region becomes the best one
      refine ih ⟨?_, ?_, fun info hi hle => ?_⟩ hs'
      · rw [hs]
        simp
      · rw [hget]
        exact Nat.le_of_not_lt hsmall
      · rw [hget]
        rcases List.mem_append.mp hi with hi | hi
        · exact hbetter.le.trans (h.least info hi hle)
        · rw [List.mem_singleton.mp hi]
    · exact ih (h.keep fun _ => Nat.le_of_not_lt hbetter) hs'

/-- A first region that is too small stays selected. -/
private theorem search_stuck {r : RegionInfo} (hr : r.alignedSize < size)
    (h0 : all.getD 0 clearRegionInfo = r) {i : ℕ} :
    PageAllocator.chooseDescRegionFrom all size i 0 rest = 0 := by
  induction rest generalizing i with
  | nil => rfl
  | cons q qs ih =>
    unfold PageAllocator.chooseDescRegionFrom
    rw [h0]
    split_ifs with hsmall hbetter
    · exact ih
    · omega
    · exact ih

end Search

section Choice

variable [Platform]

/-- The search finds a best fit exactly when the first region is large enough. -/
theorem PageAllocator.bestFit_iff {self : PageAllocator} {r : RegionInfo} {rs : List RegionInfo}
    (hs : self.regionsInfo = r :: rs) :
    BestFit self.regionsInfo (Word.mul self.pagesCount sizeofPage) self.chooseDescRegion ↔
      Word.mul self.pagesCount sizeofPage ≤ r.alignedSize := by
  have h0 : self.regionsInfo.getD 0 clearRegionInfo = r := by rw [hs]; rfl
  rw [chooseDescRegion]
  constructor
  · intro h
    by_contra hlt
    have hfits := h.fits
    rw [search_stuck (Nat.lt_of_not_le hlt) h0, h0] at hfits
    exact hlt hfits
  · intro hle
    have hbest : BestSoFar self.regionsInfo [] (Word.mul self.pagesCount sizeofPage) 0 := by
      refine ⟨?_, ?_, fun _ hi => absurd hi List.not_mem_nil⟩
      · rw [hs]
        exact Nat.succ_pos _
      · rwa [h0]
    exact hbest.search rfl

/-! ### The number of the pages -/

variable {regions : List Region} {ps : ℕ}

/-- The pages of valid regions fit in the address space. -/
theorem ValidRegions.pageSum_mul_le (hv : ValidRegions regions) (hps : ValidPageSize ps) :
    pageSum (accepted ps regions) * ps ≤ 2 ^ width := by
  have hd := hv.pairwise hps
  have hdesc := fun info (hi : info ∈ accepted ps regions) => hv.describes hps hi
  have hsum : pageSum (accepted ps regions) * ps =
      (((accepted ps regions).map fun info => (⟨info.alignedStart, info.pageCount * ps⟩ : Span)).map
        Span.size).sum := by
    rw [List.map_map, pageSum]
    exact (List.sum_map_mul_right _ _ _).symm
  have hend : ∀ info ∈ accepted ps regions,
      info.alignedStart + info.pageCount * ps = info.alignedEnd := by
    intro info hi
    obtain ⟨r, -, hr⟩ := hdesc info hi
    exact hr.alignedEnd_eq.symm
  rw [hsum]
  refine sum_size_le (fun g hg => ?_) (List.pairwise_map.mpr (hd.imp_of_mem fun hi hj h => ?_))
  · obtain ⟨info, hi, rfl⟩ := List.mem_map.mp hg
    obtain ⟨r, hmem, hr⟩ := hdesc info hi
    rw [hend info hi]
    exact hr.alignedEnd_le.trans (hv.add_lt r hmem).le
  · rwa [hend _ hi, hend _ hj]

/-- The number of the pages fits in one word. -/
theorem ValidRegions.pageSum_lt (hv : ValidRegions regions) (hps : ValidPageSize ps) :
    pageSum (accepted ps regions) < 2 ^ width := by
  have hle := hv.pageSum_mul_le hps
  have hpos := two_pow_width_pos
  have hmul := Nat.mul_le_mul_left (pageSum (accepted ps regions)) hps.le
  omega

/-- `countPages` counts the pages of valid regions. -/
theorem ValidRegions.countPages (hv : ValidRegions regions) (hps : ValidPageSize ps) :
    (PageAllocator.configured (accepted ps regions) ps).pagesCount =
      pageSum (accepted ps regions) :=
  countPages_eq (p := { PageAllocator.cleared with regionsInfo := accepted ps regions })
    (hv.pageSum_lt hps)

/-- The search for the region with the table finds a smallest one among those with enough room, and
the table ends inside of it, exactly when the first region has enough room. -/
theorem PageAllocator.chooseDescRegion_iff {self : PageAllocator} (hps : ValidPageSize ps)
    (hadd : ∀ r ∈ regions, r.address + r.size < 2 ^ width)
    (hinfos : self.regionsInfo = accepted ps regions)
    (hex : ∃ info ∈ self.regionsInfo, self.pagesCount * sizeofPage ≤ info.alignedSize) :
    (BestFit self.regionsInfo (self.pagesCount * sizeofPage) self.chooseDescRegion ∧
      let info := self.regionsInfo.getD self.chooseDescRegion clearRegionInfo
      info.alignedStart + self.pagesCount * sizeofPage ≤ info.alignedEnd) ↔
    ∃ first ∈ self.regionsInfo.head?, self.pagesCount * sizeofPage ≤ first.alignedSize := by
  have hdesc : ∀ info ∈ accepted ps regions, ∃ r ∈ regions, info.Describes ps r := by
    intro info hi
    obtain ⟨r, hr, hs⟩ := List.mem_filterMap.mp hi
    exact ⟨r, hr, usableRegion_eq_some hps (hadd r hr) hs⟩
  obtain ⟨info, hi, hle⟩ := hex
  -- the table is not larger than a region, so its size does not wrap around
  have hmul : Word.mul self.pagesCount sizeofPage = self.pagesCount * sizeofPage := by
    obtain ⟨r, hr, hd⟩ := hdesc info (hinfos ▸ hi)
    have hend := hd.alignedEnd_le
    have hlt := hadd r hr
    rw [hd.alignedEnd_eq, ← hd.alignedSize_eq] at hend
    exact Word.mul_eq (by omega)
  cases hs : self.regionsInfo with
  | nil =>
    rw [hs] at hi
    exact absurd hi List.not_mem_nil
  | cons r rs =>
    have hiff := bestFit_iff hs
    rw [hmul, hs] at hiff
    rw [hiff]
    simp only [List.head?_cons, Option.mem_def, Option.some.injEq, exists_eq_left']
    refine ⟨And.left, fun hle => ⟨hle, ?_⟩⟩
    -- a best fit is one of the records, so its size is that of its aligned part
    have hbest := hiff.mpr hle
    have hmem : (r :: rs).getD self.chooseDescRegion clearRegionInfo ∈ accepted ps regions := by
      rw [List.getD_eq_getElem _ _ hbest.lt, ← hinfos, hs]
      exact List.getElem_mem _
    obtain ⟨q, -, hq⟩ := hdesc _ hmem
    rw [hq.alignedEnd_eq, ← hq.alignedSize_eq]
    exact Nat.add_le_add_left hbest.fits _

end Choice

section Lp64

attribute [local instance] lp64

/-- A region with eight pages of 128 bytes in front of one with a single page. -/
def largeFirstRegions : List Region := [⟨8192, 1024⟩, ⟨4096, 128⟩]

/-- A region with a single page of 128 bytes in front of one with eight pages. -/
def smallFirstRegions : List Region := [⟨4096, 128⟩, ⟨8192, 1024⟩]

/-- 128 is a valid page size. -/
theorem validPageSize_128 : ValidPageSize 128 := ⟨7, by decide, by decide, rfl⟩

/-- With the large region in front the search finds it. -/
theorem PageAllocator.chooseDescRegion_largeFirst :
    (PageAllocator.configured (accepted 128 largeFirstRegions) 128).chooseDescRegion = 0 ∧
      BestFit (accepted 128 largeFirstRegions) (9 * 32) 0 := by
  have hadd : ∀ r ∈ largeFirstRegions, r.address + r.size < 2 ^ width := by decide
  have hinfos : (configured (accepted 128 largeFirstRegions) 128).regionsInfo =
    accepted 128 largeFirstRegions := rfl
  refine ⟨by decide, ((chooseDescRegion_iff validPageSize_128 hadd hinfos ?_).mpr ?_).1⟩
  · exact ⟨_, List.mem_cons_self, by decide⟩
  · exact ⟨_, rfl, by decide⟩

/-- With the small region in front the search does not find the large one: the table of nine records
is put in the small region, behind whose end it reaches. -/
theorem exists_poor_choice : ValidPageSize 128 ∧ ValidRegions smallFirstRegions ∧
    let self := PageAllocator.configured (accepted 128 smallFirstRegions) 128
    (∃ info ∈ self.regionsInfo, self.pagesCount * sizeofPage ≤ info.alignedSize) ∧
      ¬BestFit self.regionsInfo (self.pagesCount * sizeofPage) self.chooseDescRegion ∧
      let info := self.regionsInfo.getD self.chooseDescRegion clearRegionInfo
      info.alignedEnd < info.alignedStart + self.pagesCount * sizeofPage := by
  refine ⟨validPageSize_128, ⟨by decide, by decide, by decide⟩, by decide, fun h => ?_, by decide⟩
  exact absurd h.fits (by decide)

end Lp64

end Liballocator
