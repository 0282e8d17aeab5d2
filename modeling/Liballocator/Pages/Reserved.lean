import Liballocator.Pages.Alignment
import Liballocator.Pages.Query
import Liballocator.Pages.Totals
import Mathlib.Data.Finset.Sort
import Mathlib.Algebra.Order.Floor.Div

/-!
# The reserved pages

After `init` the pages are numbered in the order of the regions.  The pages of the chosen region
that the table of descriptors overlaps are reserved, and the other pages of every region are one
free group (`PageAllocator.init_reserves`).
-/

namespace Liballocator

open Program Tiling

/-- The addresses of the pages in the order of the regions. -/
def pagesInOrder (regions : List Region) (ps : ℕ) : List ℕ :=
  regions.flatMap fun r => (r.wholePages ps).sort

section Reserved

variable [Platform]

/-! ### The pages of the accepted regions -/

section Numbers

variable {regions : List Region} {ps : ℕ} {r : Region} {info : RegionInfo}

/-- The addresses of the pages of a record, in their order. -/
def RegionInfo.pages (info : RegionInfo) (ps : ℕ) : List ℕ :=
  (List.range info.pageCount).map fun k => info.alignedStart + k * ps

omit [Platform] in
/-- The pages of a record, by their numbers. -/
theorem RegionInfo.mem_pages {m : ℕ} :
    m ∈ info.pages ps ↔ ∃ k < info.pageCount, info.alignedStart + k * ps = m := by
  simp [RegionInfo.pages]

omit [Platform] in
/-- The pages are in the order of their addresses. -/
theorem RegionInfo.sort_pages (hps : 0 < ps) : (info.pages ps).toFinset.sort = info.pages ps := by
  have hlt : (info.pages ps).Pairwise (· < ·) := by
    rw [RegionInfo.pages, List.pairwise_map]
    refine List.pairwise_lt_range.imp fun hij => ?_
    exact Nat.add_lt_add_left (Nat.mul_lt_mul_of_pos_right hij hps) _
  exact (List.toFinset_sort (· ≤ ·) (hlt.imp Nat.ne_of_lt)).mpr (hlt.imp Nat.le_of_lt)

/-- A region has a record with all of its pages, or it has no pages. -/
theorem usableRegion_cases (h : ValidPageSize ps) (hr : r.address + r.size < 2 ^ width) :
    (∃ info, usableRegion ps r = some info ∧ info.Describes ps r ∧
      r.wholePages ps = (info.pages ps).toFinset) ∨
    usableRegion ps r = none ∧ r.wholePages ps = ∅ := by
  have hps := h.pos
  obtain ⟨k, -, hk, rfl⟩ := h
  obtain ⟨valid, info, he, hd, hnone⟩ := initRegionInfo_two_pow hk hr
  cases valid with
  | true =>
    obtain ⟨hd, hstart, hend⟩ := hd rfl
    refine Or.inl ⟨info, by rw [usableRegion, he], hd, ?_⟩
    rw [hd.wholePages_eq hps hstart hend]
    ext m
    simp [RegionInfo.pages]
  | false =>
    refine Or.inr ⟨by rw [usableRegion, he], ?_⟩
    exact (Region.wholePages_eq_empty_iff hps).mpr (hnone rfl)

/-- The pages of the regions are those of the accepted records. -/
theorem ValidRegions.pagesInOrder_eq (hv : ValidRegions regions) (h : ValidPageSize ps) :
    pagesInOrder regions ps = (accepted ps regions).flatMap fun info => info.pages ps := by
  have hlt := hv.add_lt
  clear hv
  unfold pagesInOrder accepted
  induction regions with
  | nil => rfl
  | cons r rs ih =>
    have ih := ih fun r' hr' => hlt r' (List.mem_cons_of_mem _ hr')
    rw [List.flatMap_cons, ih]
    rcases usableRegion_cases h (hlt r List.mem_cons_self) with ⟨info, hu, -, hw⟩ | ⟨hu, hw⟩
    · rw [List.filterMap_cons_some hu, List.flatMap_cons, hw, RegionInfo.sort_pages h.pos]
    · rw [List.filterMap_cons_none hu, hw, Finset.sort_empty, List.nil_append]

omit [Platform] in
/-- The address of page number `i` is the one at place `i`. -/
theorem map_pageAddr (infos : List RegionInfo) :
    (List.range (pageSum infos)).map (pageAddr ps infos) =
      infos.flatMap fun info => info.pages ps := by
  induction infos with
  | nil => rfl
  | cons r rs ih =>
    rw [pageSum_cons, List.range_add, List.map_append, List.flatMap_cons, List.map_map]
    congr 1
    · exact List.map_congr_left fun k hk => by rw [pageAddr, if_pos (List.mem_range.mp hk)]
    · rw [← ih]
      apply List.map_congr_left
      intro k _
      rw [Function.comp_apply, pageAddr, if_neg (by omega), Nat.add_sub_cancel_left]

end Numbers

/-! ### The numbers of the pages of a region -/

namespace Fitting

variable {regions : List Region} {ps : ℕ} (h : Fitting regions ps) {pre post : List RegionInfo}
  {info : RegionInfo} {r : Region} {i : ℕ}

include h

/-- Every accepted record has its region. -/
theorem exists_regionOf (hs : accepted ps regions = pre ++ info :: post) :
    ∃ r ∈ regions, info.Describes ps r ∧ r.wholePages ps = (info.pages ps).toFinset := by
  obtain ⟨r, hr, hu⟩ := List.mem_filterMap.mp (region_mem hs)
  rcases usableRegion_cases h.pageSize (h.valid.add_lt r hr) with ⟨info', hu', hd, hw⟩ | ⟨hu', -⟩
  · obtain rfl : info' = info := Option.some.inj (hu'.symm.trans hu)
    exact ⟨r, hr, hd, hw⟩
  · rw [hu'] at hu
    exact absurd hu (by simp)

/-- The pages of a region have consecutive numbers. -/
theorem addr_mem_wholePages_iff (hs : accepted ps regions = pre ++ info :: post)
    (hw : r.wholePages ps = (info.pages ps).toFinset) (hi : i < (layout h).count) :
    (layout h).addr i ∈ r.wholePages ps ↔
      pageSum pre ≤ i ∧ i < pageSum pre + info.pageCount := by
  have hle : pageSum pre + info.pageCount ≤ (layout h).count := by
    rw [h.layout_count, hs, pageSum_append, pageSum_cons]
    omega
  rw [hw, List.mem_toFinset, RegionInfo.mem_pages]
  constructor
  · rintro ⟨k, hk, he⟩
    have := h.addr_inj hi (show pageSum pre + k < (layout h).count by omega)
      ((h.addr_split hs hk).trans he).symm
    omega
  · rintro ⟨h₁, h₂⟩
    obtain ⟨k, rfl⟩ := Nat.exists_eq_add_of_le h₁
    exact ⟨k, by omega, (h.addr_split hs (by omega)).symm⟩

/-- Different regions have different pages. -/
theorem eq_of_mem_wholePages {r' : Region} (hr : r ∈ regions) (hr' : r' ∈ regions) {m : ℕ}
    (hm : m ∈ r.wholePages ps) (hm' : m ∈ r'.wholePages ps) : r = r' := by
  have hps := h.pageSize.pos
  obtain ⟨-, h₁, h₂⟩ := (Region.mem_wholePages hps).mp hm
  obtain ⟨-, h₃, h₄⟩ := (Region.mem_wholePages hps).mp hm'
  have : Std.Symm fun r r' : Region =>
    r.address + r.size ≤ r'.address ∨ r'.address + r'.size ≤ r.address := ⟨fun _ _ => Or.symm⟩
  by_contra hne
  have := h.valid.disjoint.forall hr hr' hne
  omega

end Fitting

/-! ### The chosen region -/

omit [Platform] in
/-- `chooseDescRegion` only looks at the aligned sizes. -/
theorem chooseDescRegionFrom_congr {all all' rest rest' : List RegionInfo}
    (hall : all.map RegionInfo.alignedSize = all'.map RegionInfo.alignedSize)
    (hrest : rest.map RegionInfo.alignedSize = rest'.map RegionInfo.alignedSize)
    {size i selected : ℕ} :
    PageAllocator.chooseDescRegionFrom all size i selected rest =
      PageAllocator.chooseDescRegionFrom all' size i selected rest' := by
  have hsel : ∀ j, (all.getD j clearRegionInfo).alignedSize =
      (all'.getD j clearRegionInfo).alignedSize := by
    intro j
    rw [← List.getD_map (f := RegionInfo.alignedSize), hall, List.getD_map]
  induction rest generalizing rest' i selected with
  | nil =>
    obtain rfl : rest' = [] := List.map_eq_nil_iff.mp hrest.symm
    rfl
  | cons r rs ih =>
    cases rest' with
    | nil => exact absurd hrest (by simp)
    | cons r' rs' =>
      obtain ⟨hr, hrs⟩ := List.cons.inj hrest
      unfold PageAllocator.chooseDescRegionFrom
      rw [hr, hsel, ih hrs, ih hrs]

/-- The end of the table. -/
theorem Layout.tail_add (L : Layout) : L.config.pagesTail + sizeofPage = L.pageAt L.count := by
  rw [L.tail_eq_pageAt, ← Nat.one_mul sizeofPage, ← Layout.pageAt_add,
    Nat.sub_add_cancel L.count_pos]

/-- The region `r` is the one that `chooseDescRegion` picks, and the table is put in it. -/
structure PageAllocator.ChosenRegion (object : PageAllocator) (r : Region) : Prop where
  descRegionIdx : object.descRegionIdx = object.chooseDescRegion
  start : (object.regionsInfo.getD object.descRegionIdx clearRegionInfo).start = r.address
  size : (object.regionsInfo.getD object.descRegionIdx clearRegionInfo).size = r.size
  head : r.address ≤ object.pagesHead
  tail : object.pagesTail + sizeofPage ≤ r.address + r.size

namespace Fitting

variable {regions : List Region} {ps : ℕ} (h : Fitting regions ps) {r : Region}

include h

/-- The region with the table is the chosen one. -/
theorem chosenRegion (hd : (descRegionOf (accepted ps regions) ps).Describes ps r) :
    (layout h).config.ChosenRegion r := by
  obtain ⟨post, hs⟩ := h.desc_split
  have hidx : (layout h).config.descRegionIdx = ((accepted ps regions).take
      (PageAllocator.configured (accepted ps regions) ps).descRegionIdx).length :=
    (desc_length ps h.exists_page).symm
  have hget := h.getD_split hs
  refine ⟨?_, ?_, ?_, ?_, ?_⟩
  · exact chooseDescRegionFrom_congr (map_size_placeRegions _ _ _).2.symm
      (map_size_placeRegions _ _ _).2.symm
  · rw [hidx, hget]
    exact hd.start_eq
  · rw [hidx, hget]
    exact hd.size_eq
  · exact hd.le_alignedStart
  · rw [Layout.tail_add, Layout.pageAt, h.layout_count]
    exact h.table_le.trans hd.alignedEnd_le

/-- The reserved pages are those of the region with the table that begin in front of its end. -/
theorem reserved_covers_iff (hw : r.wholePages ps =
    ((descRegionOf (accepted ps regions) ps).pages ps).toFinset) {i : ℕ}
    (hi : i < (layout h).count) : (reservedGroup (accepted ps regions) ps).Covers i ↔
      (layout h).addr i ∈ r.wholePages ps ∧
        (layout h).addr i < (layout h).config.pagesTail + sizeofPage ∧
        (layout h).config.pagesHead < (layout h).addr i + ps := by
  obtain ⟨post, hs⟩ := h.desc_split
  obtain ⟨-, -, hle⟩ := h.reserved
  have hsize : ∀ k, (reservedGroup (accepted ps regions) ps).size ≤ k ↔
      (layout h).count * sizeofPage ≤ k * ps := fun k => roundUp_le_iff h.pageSize.pos
  have hps := h.pageSize.pos
  have hhead : (layout h).config.pagesHead =
    (descRegionOf (accepted ps regions) ps).alignedStart := rfl
  have hfirst : (reservedGroup (accepted ps regions) ps).first =
    pageSum ((accepted ps regions).take
      (PageAllocator.configured (accepted ps regions) ps).descRegionIdx) := rfl
  rw [h.addr_mem_wholePages_iff hs hw hi, Layout.tail_add, Span.Covers, Layout.pageAt, hhead,
    hfirst]
  constructor
  · rintro ⟨h₁, h₂⟩
    obtain ⟨k, rfl⟩ := Nat.exists_eq_add_of_le h₁
    have hk := (not_congr (hsize k)).mp (by omega)
    rw [h.addr_split hs (by omega)]
    exact ⟨⟨by omega, by omega⟩, by omega, by omega⟩
  · rintro ⟨⟨h₁, h₂⟩, hlt, -⟩
    obtain ⟨k, rfl⟩ := Nat.exists_eq_add_of_le h₁
    rw [h.addr_split hs (by omega)] at hlt
    have hk := (not_congr (hsize k)).mpr (by omega)
    exact ⟨h₁, by omega⟩

end Fitting

/-! ### After `init` -/

section Init

variable {regions : List Region} {ps : ℕ} {s₀ s₁ s : PageState}

/-- A page is marked when it is reserved or live. -/
theorem PageAllocator.WellFormed.isUsed_iff {reserved : Group} {live : List Group}
    {free : ℕ → List Group} (hwf : PageAllocator.WellFormed s reserved live free) {i : ℕ}
    (hi : i < s.self.pagesCount) : s.isUsed i = true ↔ ∃ g ∈ reserved :: live, g.Covers i := by
  rw [← Bool.not_eq_false, hwf.used i hi]
  obtain ⟨g, hg, hcov⟩ := hwf.partition.exists_covers hi
  constructor
  · intro hfree
    rcases List.mem_append.mp hg with hg | hg
    · exact ⟨g, hg, hcov⟩
    · exact absurd ⟨g, hg, hcov⟩ hfree
  · rintro ⟨g, hg, hcov⟩ ⟨g', hg', hcov'⟩
    obtain rfl := hwf.partition.eq_of_covers (List.mem_append_left _ hg)
      (List.mem_append_right _ hg') hcov hcov'
    exact (List.nodup_append.mp hwf.partition.nodup).2.2 g hg g hg' rfl

/-- The group `g` consists of the pages of the region `r` that are not used. -/
def PageState.IsRest (s : PageState) (ps : ℕ) (r : Region) (g : Group) : Prop :=
  ∀ i, g.Covers i ↔
    i < s.self.pagesCount ∧ s.address i ∈ r.wholePages ps ∧ s.isUsed i = false

/-- The pages that hold the table are reserved, and the other pages of every region are one free
group; a group is given by the numbers of its pages. -/
structure PageAllocator.Reserves (regions : List Region) (ps : ℕ) (s : PageState)
    (reserved : Group) (free : List Group) : Prop where
  /-- The pages are numbered in the order of the regions. -/
  numbers : (List.range s.self.pagesCount).map s.address = pagesInOrder regions ps
  count : s.self.getStats.reservedPagesCount =
    (s.self.getStats.totalPagesCount * sizeofPage) ⌈/⌉ ps
  size : reserved.size = s.self.getStats.reservedPagesCount
  used : ∀ i < s.self.pagesCount, s.isUsed i = true ↔ reserved.Covers i
  /-- The reserved pages are the pages of the chosen region that the table overlaps. -/
  table : ∃ r ∈ regions, s.self.ChosenRegion r ∧ ∀ i < s.self.pagesCount, reserved.Covers i ↔
    s.address i ∈ r.wholePages ps ∧ s.address i < s.self.pagesTail + sizeofPage ∧
      s.self.pagesHead < s.address i + ps
  /-- Every other page belongs to exactly one free group. -/
  covered : ∀ i < s.self.pagesCount, ¬reserved.Covers i → ∃! g, g ∈ free ∧ g.Covers i
  nodup : free.Nodup
  /-- Every free group is what is left of a region. -/
  rest : ∀ g ∈ free, 0 < g.size ∧ ∃ r ∈ regions, s.IsRest ps r g
  /-- There is one free group for each region with a page that is not reserved, and none for the
  other regions. -/
  region : ∀ r ∈ regions, (∃! g, g ∈ free ∧ s.IsRest ps r g) ↔
    ∃ i < s.self.pagesCount, s.address i ∈ r.wholePages ps ∧ ¬reserved.Covers i

/-- The addresses in the table. -/
theorem PageRep.address_eq {L : Layout} {a : Pages} (hr : PageRep L a s) {i : ℕ}
    (hi : i < L.count) : s.address i = L.addr i := by
  rw [PageState.address, PageState.descriptor_eq hr.config, hr.addr hi]

/-- A free group after `init` is the rest of its region. -/
theorem Fitting.isRest (h : Fitting regions ps)
    (hr : PageRep (layout h) (Pages.initial (accepted ps regions) ps) s)
    (hwf : PageAllocator.WellFormed s (reservedGroup (accepted ps regions) ps) []
      (Pages.initial (accepted ps regions) ps).free) {g : Group}
    (hg : g ∈ (Pages.initial (accepted ps regions) ps).freeGroups) :
    ∃ r ∈ regions, s.IsRest ps r g := by
  have hcount : s.self.pagesCount = (layout h).count := by rw [hr.config]
  obtain ⟨pre, info, post, k, hs, hk, hlt, hgk⟩ := h.mem_freeGroups_initial.mp hg
  obtain ⟨r, hrr, -, hw⟩ := h.exists_regionOf hs
  refine ⟨r, hrr, fun i => ⟨fun hcov => ?_, ?_⟩⟩
  · have hi := hwf.partition.lt_of_covers (List.mem_append_right _ hg) hcov
    refine ⟨hi, ?_, (hwf.used i hi).mpr ⟨g, hg, hcov⟩⟩
    rw [hcount] at hi
    rw [hr.address_eq hi, h.addr_mem_wholePages_iff hs hw hi]
    obtain ⟨h₁, h₂⟩ := hcov
    rw [hgk] at h₁ h₂
    simp only at h₁ h₂
    omega
  · rintro ⟨hi, hmem, hfree⟩
    -- the page is in a free group, and that one is the rest of the same region
    obtain ⟨g', hg', hcov⟩ := (hwf.used i hi).mp hfree
    obtain ⟨pre', info', post', k', hs', hk', hlt', hgk'⟩ := h.mem_freeGroups_initial.mp hg'
    rw [hcount] at hi
    rw [hr.address_eq hi, h.addr_mem_wholePages_iff hs hw hi] at hmem
    have hcov' := hcov
    obtain ⟨h₁, h₂⟩ := hcov'
    rw [hgk'] at h₁ h₂
    simp only at h₁ h₂
    obtain ⟨j, rfl⟩ := Nat.exists_eq_add_of_le hmem.1
    obtain ⟨rfl, rfl⟩ := eq_of_regionOf (k := j) (l := pageSum pre + j - pageSum pre') hs hs'
      (by omega) (by omega) (by rw [Nat.add_sub_cancel' (by omega)])
    rwa [hgk, hk, ← hk', ← hgk']

/-- `init` reserves the pages of the table and nothing else. -/
theorem Fitting.reserves (h : Fitting regions ps)
    (hr : PageRep (layout h) (Pages.initial (accepted ps regions) ps) s)
    (hwf : PageAllocator.WellFormed s (reservedGroup (accepted ps regions) ps) []
      (Pages.initial (accepted ps regions) ps).free) :
    PageAllocator.Reserves regions ps s (reservedGroup (accepted ps regions) ps)
      (Pages.initial (accepted ps regions) ps).freeGroups := by
  have hcount : s.self.pagesCount = (layout h).count := by rw [hr.config]
  have hstats : s.self.getStats.reservedPagesCount = reservedPages (layout h).count ps ∧
      s.self.getStats.totalPagesCount = (layout h).count := by
    rw [hr.config]
    exact ⟨rfl, rfl⟩
  have hused : ∀ i < s.self.pagesCount, s.isUsed i = true ↔
      (reservedGroup (accepted ps regions) ps).Covers i := by
    intro i hi
    rw [hwf.isUsed_iff hi]
    simp
  have hfree : ∀ i < s.self.pagesCount, ¬(reservedGroup (accepted ps regions) ps).Covers i ↔
      ∃ g ∈ (Pages.initial (accepted ps regions) ps).freeGroups, g.Covers i := by
    intro i hi
    rw [← hused i hi, Bool.not_eq_true]
    exact hwf.used i hi
  have hunique : ∀ g ∈ (Pages.initial (accepted ps regions) ps).freeGroups,
      ∀ g' ∈ (Pages.initial (accepted ps regions) ps).freeGroups, ∀ i, g.Covers i → g'.Covers i →
        g' = g := fun g hg g' hg' i hcov hcov' =>
    hwf.partition.eq_of_covers (List.mem_append_right _ hg') (List.mem_append_right _ hg) hcov' hcov
  refine ⟨?_, ?_, ?_, hused, ?_, ?_, ?_, ?_, ?_⟩
  · rw [h.valid.pagesInOrder_eq h.pageSize, ← map_pageAddr, hcount, h.layout_count]
    apply List.map_congr_left
    intro i hi
    rw [List.mem_range, ← h.layout_count] at hi
    rw [hr.address_eq hi]
    exact h.addressable.layout_addr i
  · rw [hstats.1, hstats.2]
    rfl
  · rw [hstats.1]
    rfl
  · obtain ⟨post, hs⟩ := h.desc_split
    obtain ⟨r, hrr, hd, hw⟩ := h.exists_regionOf hs
    have hc := h.chosenRegion hd
    refine ⟨r, hrr, ?_, fun i hi => ?_⟩
    · rw [hr.config]
      exact ⟨hc.descRegionIdx, hc.start, hc.size, hc.head, hc.tail⟩
    · rw [hcount] at hi
      rw [hr.address_eq hi, hr.config]
      exact h.reserved_covers_iff hw hi
  · intro i hi hnot
    obtain ⟨g, hg, hcov⟩ := (hfree i hi).mp hnot
    exact ⟨g, ⟨hg, hcov⟩, fun g' hg' => hunique g hg g' hg'.1 i hcov hg'.2⟩
  · exact (List.nodup_append.mp hwf.partition.nodup).2.1
  · intro g hg
    exact ⟨hwf.partition.size_pos (List.mem_append_right _ hg), h.isRest hr hwf hg⟩
  · refine fun r hrr => ⟨?_, ?_⟩
    · rintro ⟨g, ⟨hg, hrest⟩, -⟩
      have hpos := hwf.partition.size_pos (List.mem_append_right _ hg)
      have hcov : g.Covers g.first := ⟨le_rfl, Nat.lt_add_of_pos_right hpos⟩
      have hpage := (hrest g.first).mp hcov
      exact ⟨g.first, hpage.1, hpage.2.1, (hfree _ hpage.1).mpr ⟨g, hg, hcov⟩⟩
    rintro ⟨i, hi, hmem, hnot⟩
    obtain ⟨g, hg, hcov⟩ := (hfree i hi).mp hnot
    obtain ⟨r', hrr', hrest⟩ := h.isRest hr hwf hg
    obtain rfl := h.eq_of_mem_wholePages hrr hrr' hmem ((hrest i).mp hcov).2.1
    refine ⟨g, ⟨hg, hrest⟩, fun g' hg' => hunique g hg g' hg'.1 i hcov ?_⟩
    exact (hg'.2 i).mpr ((hrest i).mp hcov)

/-- After `init` exactly the pages that hold the table are reserved. -/
theorem PageAllocator.init_reserves (hg : GoodArguments regions ps)
    (hinit : PageAllocator.init regions ps s₀ = .ok (true, s₁)) :
    ∃ reserved free, PageAllocator.WellFormed s₁ reserved [] free ∧
      PageAllocator.Reserves regions ps s₁ reserved ((List.range maxGroupIdx).flatMap free) := by
  have h := hg.fitting hinit
  have hr := ((PageAllocator.init_spec h (pageCount_lt hg.few)).of_run_eq hinit).2.1
  have hwf := h.wellFormed .start hr hr (hg.count_lt hinit)
  exact ⟨_, _, hwf, h.reserves hr hwf⟩

end Init

end Reserved

section Touching

attribute [local instance] lp64

/-- One of the four pages of two regions that touch is reserved. -/
theorem PageAllocator.init_reserves_touching : ∃ s₁,
    PageAllocator.init touchingRegions 256 blankPages = .ok (true, s₁) ∧
      ∃ reserved free, PageAllocator.WellFormed s₁ reserved [] free ∧
        PageAllocator.Reserves touchingRegions 256 s₁ reserved
          ((List.range maxGroupIdx).flatMap free) := by
  obtain ⟨s₁, hinit⟩ := touchingRegions_good.init_returns blankPages
    touchingRegions_fitting.pageSize touchingRegions_fitting.entries
    touchingRegions_fitting.exists_page
  exact ⟨s₁, hinit, PageAllocator.init_reserves touchingRegions_good hinit⟩

end Touching

end Liballocator
