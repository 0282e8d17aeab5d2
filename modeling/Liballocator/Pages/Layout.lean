import Liballocator.Pages.Init

/-!
# The table that `init` sets up

`Usable` collects what the arguments of `init` must satisfy for its success, including that the
table fits in the region it is put in.  For such arguments `layout` is the table; `Usable.sound`
shows that its pages are apart from each other, and that two neighbours that `getRegion` takes for
pages of one region are adjacent in memory.
-/

namespace Liballocator

open Program Align

variable [Platform]

/-! ### Addresses of pages -/

variable {ps : ℕ} {infos : List RegionInfo}

omit [Platform] in
/-- The regions of two lists have the pages of both. -/
@[simp] theorem pageSum_append (l l' : List RegionInfo) :
    pageSum (l ++ l') = pageSum l + pageSum l' := by
  simp [pageSum]

omit [Platform] in
/-- Regions with few pages together have few pages each. -/
theorem pageCount_lt {n : ℕ} (h : pageSum infos < n) : ∀ r ∈ infos, r.pageCount < n := fun _ hr =>
  (List.single_le_sum (by simp) _ (List.mem_map_of_mem hr)).trans_lt h

omit [Platform] in
/-- Every page is a page of one of the regions. -/
theorem exists_region {i : ℕ} (hi : i < pageSum infos) :
    ∃ pre r post k, infos = pre ++ r :: post ∧ i = pageSum pre + k ∧ k < r.pageCount := by
  induction infos generalizing i with
  | nil => simp at hi
  | cons r rs ih =>
    by_cases hlt : i < r.pageCount
    · exact ⟨[], r, rs, i, rfl, by simp, hlt⟩
    · rw [pageSum_cons] at hi
      obtain ⟨pre, r', post, k, rfl, hk, hlt'⟩ := ih (i := i - r.pageCount) (by omega)
      exact ⟨r :: pre, r', post, k, rfl, by rw [pageSum_cons]; omega, hlt'⟩

omit [Platform] in
/-- The address of page number `k` of a region. -/
theorem pageAddr_append {pre post : List RegionInfo} {r : RegionInfo} {k : ℕ}
    (hk : k < r.pageCount) :
    pageAddr ps (pre ++ r :: post) (pageSum pre + k) = r.alignedStart + k * ps := by
  induction pre with
  | nil => simp [pageAddr, hk]
  | cons r' rs ih =>
    rw [List.cons_append, pageAddr, pageSum_cons, if_neg (by omega), ← ih]
    congr 1
    omega

/-- The addresses do not depend on the pointers in the records. -/
theorem pageAddr_placeRegions {head c i : ℕ} :
    pageAddr ps (placeRegions head c infos) i = pageAddr ps infos i := by
  induction infos generalizing c i with
  | nil => rfl
  | cons r rs ih =>
    rw [placeRegions, pageAddr, pageAddr, ih]
    rfl

/-! ### The fields before the loop over the regions -/

/-- What `init` does with the fields between its two loops. -/
def PageAllocator.configure (self : PageAllocator) (pageSize : ℕ) : PageAllocator :=
  let self := { self with pagesCount := countPages self }
  let self := { self with pageSize := pageSize }
  let self := { self with descRegionIdx := chooseDescRegion self }
  let descRegion := self.regionsInfo.getD self.descRegionIdx clearRegionInfo
  { self with
    pagesHead := descRegion.alignedStart
    pagesTail := Page.minus (Page.plus descRegion.alignedStart self.pagesCount) 1 }

/-- The fields when `init` enters its loop over the regions with the records `infos`. -/
def PageAllocator.configured (infos : List RegionInfo) (pageSize : ℕ) : PageAllocator :=
  { cleared with regionsInfo := infos }.configure pageSize

/-- The region that `chooseDescRegion` picks. -/
def descRegionOf (infos : List RegionInfo) (pageSize : ℕ) : RegionInfo :=
  infos.getD (PageAllocator.configured infos pageSize).descRegionIdx clearRegionInfo

/-- The counted pages, as long as they fit in a word. -/
theorem countPages_eq {p : PageAllocator} (h : pageSum p.regionsInfo < 2 ^ width) :
    PageAllocator.countPages p = pageSum p.regionsInfo := by
  have key : ∀ (l : List RegionInfo) (x : ℕ), x + pageSum l < 2 ^ width →
      l.foldl (fun pagesCount region => Word.add pagesCount region.pageCount) x =
        x + pageSum l := by
    intro l
    induction l with
    | nil => exact fun x _ => rfl
    | cons r rs ih =>
      intro x hx
      rw [pageSum_cons] at hx
      rw [List.foldl_cons, Word.add_eq (by omega), ih _ (by omega), pageSum_cons, Nat.add_assoc]
  rw [PageAllocator.countPages, key _ 0 (by omega), Nat.zero_add]

omit [Platform] in
/-- The search for the region with the table returns the index of a region. -/
private theorem chooseDescRegionFrom_lt {all rest : List RegionInfo} {size i selected : ℕ}
    (hs : selected < all.length) (hi : i + rest.length = all.length) :
    PageAllocator.chooseDescRegionFrom all size i selected rest < all.length := by
  induction rest generalizing i selected with
  | nil => exact hs
  | cons r rs ih =>
    rw [List.length_cons] at hi
    unfold PageAllocator.chooseDescRegionFrom
    split_ifs
    · exact ih hs (by omega)
    · exact ih (by omega) (by omega)
    · exact ih hs (by omega)

variable (ps) in
/-- The region with the table is one of the array. -/
theorem descRegionIdx_lt (hne : infos ≠ []) :
    (PageAllocator.configured infos ps).descRegionIdx < infos.length :=
  chooseDescRegionFrom_lt (List.length_pos_iff.mpr hne) (Nat.zero_add _)

variable (ps) in
/-- The region with the table is an accepted one. -/
theorem descRegionOf_mem (hne : infos ≠ []) : descRegionOf infos ps ∈ infos := by
  have h := descRegionIdx_lt ps hne
  rw [descRegionOf, List.getD_eq_getElem _ _ h]
  exact List.getElem_mem h

/-- There are pages as soon as one region has been accepted. -/
theorem ValidRegions.pageSum_pos {regions : List Region} (hv : ValidRegions regions)
    (hps : ValidPageSize ps) (hne : accepted ps regions ≠ []) :
    0 < pageSum (accepted ps regions) := by
  obtain ⟨info, hi⟩ := List.exists_mem_of_ne_nil _ hne
  exact (hv.pageCount_pos hps hi).trans_le
    (List.single_le_sum (by simp) _ (List.mem_map_of_mem hi))

/-! ### Usable arguments -/

/-- The arguments of `init` for which the table fits in the region it is put in, and does not begin
at the null address. -/
structure Fitting (regions : List Region) (ps : ℕ) : Prop where
  pageSize : ValidPageSize ps
  valid : ValidRegions regions
  entries : regions.length ≤ maxRegionsCount
  exists_page : accepted ps regions ≠ []
  table : pageSum (accepted ps regions) * sizeofPage ≤
    (descRegionOf (accepted ps regions) ps).alignedSize
  head_pos : 0 < (descRegionOf (accepted ps regions) ps).alignedStart

/-- The arguments of `init` for which the table ends inside of the address space and does not begin
at the null address; it need not fit in the region it is put in. -/
structure Addressable (regions : List Region) (ps : ℕ) : Prop where
  pageSize : ValidPageSize ps
  valid : ValidRegions regions
  entries : regions.length ≤ maxRegionsCount
  exists_page : accepted ps regions ≠ []
  head_pos : 0 < (descRegionOf (accepted ps regions) ps).alignedStart
  table_lt : (descRegionOf (accepted ps regions) ps).alignedStart +
    pageSum (accepted ps regions) * sizeofPage < 2 ^ width

/-- Fitting arguments with no region at the null address. -/
structure Usable (regions : List Region) (ps : ℕ) : Prop extends Fitting regions ps where
  nonZero : NonZero regions

/-- Number of the pages that hold the table of `count` descriptors. -/
def reservedPages (count ps : ℕ) : ℕ := (count * sizeofPage + ps - 1) / ps

omit [Platform] in
/-- Rounding up: `k` pages hold `x` bytes or they do not. -/
theorem roundUp_le_iff {x k : ℕ} (hps : 0 < ps) : (x + ps - 1) / ps ≤ k ↔ x ≤ k * ps := by
  rw [← Nat.lt_succ_iff, Nat.div_lt_iff_lt_mul hps, Nat.succ_mul]
  omega

/-- No page begins at the null address. -/
theorem Usable.alignedStart_pos {regions : List Region} (h : Usable regions ps) {info : RegionInfo}
    (hi : info ∈ accepted ps regions) : 0 < info.alignedStart := by
  obtain ⟨r, hr, hd⟩ := h.valid.describes h.pageSize hi
  exact (h.nonZero r hr).trans_le hd.le_alignedStart

/-- When no region begins at the null address, neither does the table. -/
theorem Usable.of_nonZero {regions : List Region} (hps : ValidPageSize ps)
    (hv : ValidRegions regions) (hnz : NonZero regions) (hlen : regions.length ≤ maxRegionsCount)
    (hne : accepted ps regions ≠ []) (htable : pageSum (accepted ps regions) * sizeofPage ≤
      (descRegionOf (accepted ps regions) ps).alignedSize) : Usable regions ps := by
  obtain ⟨r, hr, hd⟩ := hv.describes hps (descRegionOf_mem ps hne)
  exact ⟨⟨hps, hv, hlen, hne, htable, (hnz r hr).trans_le hd.le_alignedStart⟩, hnz⟩

namespace Fitting

variable {regions : List Region}

/-- Every accepted record describes one of the regions. -/
theorem describes (h : Fitting regions ps) {info : RegionInfo} (hi : info ∈ accepted ps regions) :
    ∃ r ∈ regions, info.Describes ps r ∧ r.address + r.size < 2 ^ width := by
  obtain ⟨r, hr, hd⟩ := h.valid.describes h.pageSize hi
  exact ⟨r, hr, hd, h.valid.add_lt r hr⟩

/-- Regions end inside of the address space. -/
theorem alignedEnd_lt (h : Fitting regions ps) {info : RegionInfo}
    (hi : info ∈ accepted ps regions) : info.alignedEnd < 2 ^ width :=
  h.valid.alignedEnd_lt h.pageSize hi

/-- A region ends behind its last page. -/
theorem alignedEnd_eq (h : Fitting regions ps) {info : RegionInfo}
    (hi : info ∈ accepted ps regions) :
    info.alignedEnd = info.alignedStart + info.pageCount * ps :=
  h.valid.alignedEnd_eq h.pageSize hi

/-- The aligned size is that of the pages. -/
theorem alignedSize_eq (h : Fitting regions ps) {info : RegionInfo}
    (hi : info ∈ accepted ps regions) : info.alignedSize = info.pageCount * ps := by
  obtain ⟨r, -, hd, -⟩ := h.describes hi
  exact hd.alignedSize_eq

/-- Every accepted region has a page. -/
theorem pageCount_pos (h : Fitting regions ps) {info : RegionInfo}
    (hi : info ∈ accepted ps regions) : 0 < info.pageCount :=
  h.valid.pageCount_pos h.pageSize hi

/-- Pages are aligned. -/
theorem dvd (h : Fitting regions ps) {info : RegionInfo} (hi : info ∈ accepted ps regions) :
    ps ∣ info.alignedStart :=
  h.valid.dvd h.pageSize hi

/-- The region with the table is an accepted one. -/
theorem desc_mem (h : Fitting regions ps) :
    descRegionOf (accepted ps regions) ps ∈ accepted ps regions :=
  descRegionOf_mem ps h.exists_page

/-- There is at least one page. -/
theorem pageSum_pos (h : Fitting regions ps) : 0 < pageSum (accepted ps regions) :=
  h.valid.pageSum_pos h.pageSize h.exists_page

/-- The table ends inside of its region. -/
theorem table_le (h : Fitting regions ps) :
    (descRegionOf (accepted ps regions) ps).alignedStart +
      pageSum (accepted ps regions) * sizeofPage ≤
        (descRegionOf (accepted ps regions) ps).alignedEnd := by
  rw [h.alignedEnd_eq h.desc_mem, ← h.alignedSize_eq h.desc_mem]
  exact Nat.add_le_add_left h.table _

/-- A table that fits is one that ends inside of the address space. -/
theorem addressable (h : Fitting regions ps) : Addressable regions ps :=
  ⟨h.pageSize, h.valid, h.entries, h.exists_page, h.head_pos,
    h.table_le.trans_lt (h.alignedEnd_lt h.desc_mem)⟩

end Fitting

/-- `countPages` counts the pages of all accepted regions. -/
theorem Addressable.countPages {regions : List Region} (h : Addressable regions ps) :
    (PageAllocator.configured (accepted ps regions) ps).pagesCount =
      pageSum (accepted ps regions) := by
  apply countPages_eq (p := { PageAllocator.cleared with regionsInfo := accepted ps regions })
  have h₁ := h.table_lt
  have h₂ : pageSum (accepted ps regions) * 1 ≤ pageSum (accepted ps regions) * sizeofPage :=
    Nat.mul_le_mul_left _ Layout.sizeofPage_pos
  simp only
  omega

/-- `countPages` counts the pages of all accepted regions. -/
theorem Fitting.countPages {regions : List Region} (h : Fitting regions ps) :
    (PageAllocator.configured (accepted ps regions) ps).pagesCount =
      pageSum (accepted ps regions) :=
  h.addressable.countPages

/-- The fields of the object after `init`, its free lists and its counter of free pages apart. -/
def finalConfig (infos : List RegionInfo) (ps : ℕ) : PageAllocator :=
  let object := PageAllocator.configured infos ps
  { object with
    regionsInfo := placeRegions object.pagesHead 0 infos
    descPagesCount := reservedPages object.pagesCount ps }

/-- The table is not empty. -/
theorem Addressable.pagesCount_pos {regions : List Region} (h : Addressable regions ps) :
    0 < (finalConfig (accepted ps regions) ps).pagesCount :=
  h.countPages ▸ h.valid.pageSum_pos h.pageSize h.exists_page

/-- There is room in front of the table, where `prevSibling` of the first descriptor points to. -/
theorem Addressable.head_gt {regions : List Region} (h : Addressable regions ps) :
    sizeofPage < (finalConfig (accepted ps regions) ps).pagesHead :=
  h.pageSize.sizeofPage_lt.trans_le
    (Nat.le_of_dvd h.head_pos (h.valid.dvd h.pageSize (descRegionOf_mem ps h.exists_page)))

/-- The table ends inside of the address space. -/
theorem Addressable.head_add_lt {regions : List Region} (h : Addressable regions ps) :
    (finalConfig (accepted ps regions) ps).pagesHead +
      (finalConfig (accepted ps regions) ps).pagesCount * sizeofPage < 2 ^ width := by
  have h₁ := h.table_lt
  have h₂ := h.countPages
  simp only [finalConfig]
  rwa [h₂]

/-- The last descriptor is the one in front of the end of the table. -/
theorem Addressable.tail_eq {regions : List Region} (h : Addressable regions ps) :
    (finalConfig (accepted ps regions) ps).pagesTail =
      (finalConfig (accepted ps regions) ps).pagesHead +
        ((finalConfig (accepted ps regions) ps).pagesCount - 1) * sizeofPage := by
  have h₁ := h.table_lt
  have h₃ := h.countPages
  have h₄ := h.valid.pageSum_pos h.pageSize h.exists_page
  have h₅ : pageSum (accepted ps regions) * sizeofPage =
      (pageSum (accepted ps regions) - 1) * sizeofPage + 1 * sizeofPage := by
    rw [← Nat.add_mul, Nat.sub_add_cancel h₄]
  have h₆ : (finalConfig (accepted ps regions) ps).pagesTail = Page.minus (Page.plus
    (descRegionOf (accepted ps regions) ps).alignedStart
      (PageAllocator.configured (accepted ps regions) ps).pagesCount) 1 := rfl
  have h₇ : (finalConfig (accepted ps regions) ps).pagesHead =
    (descRegionOf (accepted ps regions) ps).alignedStart := rfl
  have h₈ : (finalConfig (accepted ps regions) ps).pagesCount =
    pageSum (accepted ps regions) := h₃
  rw [h₆, h₇, h₈, h₃, Page.plus, Word.mul_eq (by omega), Word.add_eq (by omega), Page.minus,
    Word.mul_eq (by omega), Word.sub_eq (by omega) (by omega)]
  omega

/-- The table that `init` sets up, whether or not it fits. -/
def Addressable.layout {regions : List Region} {ps : ℕ} (h : Addressable regions ps) : Layout where
  config := finalConfig (accepted ps regions) ps
  pagesCount_pos := h.pagesCount_pos
  head_gt := h.head_gt
  head_add_lt := h.head_add_lt
  tail_eq := h.tail_eq

/-- The table that `init` sets up. -/
def layout {regions : List Region} {ps : ℕ} (h : Fitting regions ps) : Layout where
  config := finalConfig (accepted ps regions) ps
  pagesCount_pos := h.addressable.layout.pagesCount_pos
  head_gt := h.addressable.layout.head_gt
  head_add_lt := h.addressable.layout.head_add_lt
  tail_eq := h.addressable.layout.tail_eq

/-! ### Regions of pages -/

/-- The number of the region that the page `i` is a page of. -/
def regionOf : List RegionInfo → ℕ → ℕ
  | [], _ => 0
  | region :: regions, i =>
    if i < region.pageCount then 0 else regionOf regions (i - region.pageCount) + 1

/-- The pages `i` and `i + 1` are pages of one region. -/
def Layout.SameRegion (L : Layout) (i : ℕ) : Prop :=
  regionOf L.config.regionsInfo i = regionOf L.config.regionsInfo (i + 1)

omit [Platform] in
/-- The region of a page of the list. -/
theorem regionOf_append {pre post : List RegionInfo} {r : RegionInfo} {k : ℕ}
    (hk : k < r.pageCount) : regionOf (pre ++ r :: post) (pageSum pre + k) = pre.length := by
  induction pre with
  | nil => simp [regionOf, hk]
  | cons r' rs ih =>
    rw [List.cons_append, regionOf, pageSum_cons, if_neg (by omega), List.length_cons, ← ih]
    congr 2
    omega

omit [Platform] in
/-- Pages of one region have the same region. -/
theorem eq_of_regionOf {pre post pre' post' : List RegionInfo} {r r' : RegionInfo} {k l : ℕ}
    (hs : infos = pre ++ r :: post) (hs' : infos = pre' ++ r' :: post') (hk : k < r.pageCount)
    (hl : l < r'.pageCount)
    (he : regionOf infos (pageSum pre + k) = regionOf infos (pageSum pre' + l)) :
    pre = pre' ∧ r = r' := by
  have hpre : regionOf (pre ++ r :: post) (pageSum pre + k) = pre.length := regionOf_append hk
  have hlen : pre.length = pre'.length := by
    rw [← hpre, ← hs, he, hs', regionOf_append hl]
  obtain ⟨rfl, htail⟩ := List.append_inj (hs.symm.trans hs') hlen
  exact ⟨rfl, (List.cons.inj htail).1⟩

/-- The region of a page does not depend on the pointers in the records. -/
theorem regionOf_placeRegions {head c i : ℕ} :
    regionOf (placeRegions head c infos) i = regionOf infos i := by
  induction infos generalizing c i with
  | nil => rfl
  | cons r rs ih =>
    rw [placeRegions, regionOf, regionOf, ih]
    rfl

/-- Every record has its counterpart among the placed ones. -/
theorem exists_place {r : RegionInfo} (hr : r ∈ infos) (c head : ℕ) :
    ∃ r' ∈ placeRegions head c infos,
      r'.alignedStart = r.alignedStart ∧ r'.alignedEnd = r.alignedEnd := by
  induction infos generalizing c with
  | nil => exact absurd hr List.not_mem_nil
  | cons q qs ih =>
    rcases List.mem_cons.mp hr with rfl | hr
    · exact ⟨_, List.mem_cons_self, rfl, rfl⟩
    · obtain ⟨r', hr', h⟩ := ih hr (c + q.pageCount)
      exact ⟨r', List.mem_cons_of_mem _ hr', h⟩

/-- Every placed record has its counterpart. -/
theorem exists_of_mem_placeRegions {head c : ℕ} {r' : RegionInfo}
    (h : r' ∈ placeRegions head c infos) :
    ∃ pre r post, infos = pre ++ r :: post ∧ r' = r.place head (c + pageSum pre) := by
  induction infos generalizing c with
  | nil => exact absurd h List.not_mem_nil
  | cons q qs ih =>
    rcases List.mem_cons.mp h with rfl | h
    · exact ⟨[], q, qs, rfl, rfl⟩
    · obtain ⟨pre, r, post, rfl, rfl⟩ := ih h
      exact ⟨q :: pre, r, post, rfl, by rw [pageSum_cons, Nat.add_assoc]⟩

/-- A search by the aligned ends does not depend on the pointers in the records. -/
theorem findIdx?_placeRegions {h c : ℕ} {l : List RegionInfo} {p : ℕ → ℕ → Bool} :
    (placeRegions h c l).findIdx? (fun r => p r.alignedStart r.alignedEnd) =
      l.findIdx? fun r => p r.alignedStart r.alignedEnd := by
  induction l generalizing c with
  | nil => rfl
  | cons r rs ih =>
    rw [placeRegions, List.findIdx?_cons, List.findIdx?_cons, ih]
    rfl

omit [Platform] in
/-- The page behind a page of a region: it is in the same region, or it is the first one of the
next region. -/
theorem next_page {pre post : List RegionInfo} {r : RegionInfo} {k : ℕ} (hk : k < r.pageCount)
    (hlt : pageSum pre + k + 1 < pageSum (pre ++ r :: post))
    (hpos : ∀ r' ∈ post, 0 < r'.pageCount) :
    k + 1 < r.pageCount ∨ ∃ r' post', post = r' :: post' ∧ k + 1 = r.pageCount := by
  by_cases hk' : k + 1 < r.pageCount
  · exact Or.inl hk'
  · right
    cases post with
    | nil =>
      rw [pageSum_append, pageSum_cons, pageSum_nil] at hlt
      omega
    | cons r' post' => exact ⟨r', post', rfl, by omega⟩

namespace Addressable

variable {regions : List Region} (h : Addressable regions ps) {pre post : List RegionInfo}
  {r : RegionInfo} {k : ℕ}

include h

/-- The table has a descriptor for each page. -/
theorem layout_count : h.layout.count = pageSum (accepted ps regions) := h.countPages

/-- The addresses of the pages are those of the accepted regions. -/
theorem layout_addr (i : ℕ) : h.layout.addr i = pageAddr ps (accepted ps regions) i :=
  pageAddr_placeRegions

/-- The address of a page, given its region. -/
theorem addr_split (hs : accepted ps regions = pre ++ r :: post) (hk : k < r.pageCount) :
    h.layout.addr (pageSum pre + k) = r.alignedStart + k * ps := by
  rw [h.layout_addr, hs, pageAddr_append hk]

end Addressable

namespace Fitting

variable {regions : List Region} (h : Fitting regions ps) {pre post : List RegionInfo}
  {r : RegionInfo} {k : ℕ}

include h

/-- The table has a descriptor for each page. -/
theorem layout_count : (layout h).count = pageSum (accepted ps regions) := h.countPages

/-- The address of a page, given its region. -/
theorem addr_split (hs : accepted ps regions = pre ++ r :: post) (hk : k < r.pageCount) :
    (layout h).addr (pageSum pre + k) = r.alignedStart + k * ps :=
  h.addressable.addr_split hs hk

omit h in
/-- A region at a place of the list is a region of the list. -/
theorem region_mem (hs : accepted ps regions = pre ++ r :: post) : r ∈ accepted ps regions := by
  rw [hs]
  simp

/-- The pages of a region lie inside of its aligned part. -/
theorem page_le (hs : accepted ps regions = pre ++ r :: post) (hk : k < r.pageCount) :
    r.alignedStart + k * ps + ps ≤ r.alignedEnd := by
  rw [h.alignedEnd_eq (region_mem hs), Nat.add_assoc, ← Nat.succ_mul]
  exact Nat.add_le_add_left (Nat.mul_le_mul_right ps hk) _

/-- The aligned parts of the regions in front of another one are apart from it. -/
theorem disjoint_pre (hs : accepted ps regions = pre ++ r :: post) {q : RegionInfo}
    (hq : q ∈ pre) : q.alignedEnd ≤ r.alignedStart ∨ r.alignedEnd ≤ q.alignedStart := by
  have hpw := h.valid.pairwise h.pageSize
  rw [hs] at hpw
  exact (List.pairwise_append.mp hpw).2.2 q hq r List.mem_cons_self

/-- `getRegion` looks for the first region whose aligned part, including its end, contains the
address. -/
theorem getRegion_eq {x : ℕ} (hx : alignDown x ps = x) :
    (layout h).config.getRegion x = (accepted ps regions).findIdx? fun q =>
      q.alignedStart ≤ x && q.alignedEnd ≥ x := by
  have hps : (layout h).config.pageSize = ps := rfl
  rw [PageAllocator.getRegion, hps, hx]
  exact findIdx?_placeRegions (p := fun a b => a ≤ x && b ≥ x)

/-- `getRegion` finds the region of a page, or another one in front of it that ends where the region
and the page begin. -/
theorem getRegion_page (hs : accepted ps regions = pre ++ r :: post) (hk : k < r.pageCount) :
    (layout h).config.getRegion (r.alignedStart + k * ps) = some pre.length ∨
      k = 0 ∧ ∃ i q, (layout h).config.getRegion (r.alignedStart + k * ps) = some i ∧
        i < pre.length ∧ (accepted ps regions)[i]? = some q ∧ q.alignedEnd = r.alignedStart := by
  have hmem := region_mem hs
  have hle := h.page_le hs hk
  have hlt := h.alignedEnd_lt hmem
  have hps := h.pageSize.pos
  have hdvd : ps ∣ r.alignedStart + k * ps := Nat.dvd_add (h.dvd hmem) (Dvd.intro_left k rfl)
  have hget := h.getRegion_eq (alignDown_of_dvd h.pageSize (by omega) hdvd)
  rw [hs] at hget
  rw [hget, List.findIdx?_append]
  have hr : (decide (r.alignedStart ≤ r.alignedStart + k * ps) &&
      decide (r.alignedEnd ≥ r.alignedStart + k * ps)) = true := by
    rw [Bool.and_eq_true, decide_eq_true_iff, decide_eq_true_iff]
    omega
  cases hpre : pre.findIdx? fun q =>
      q.alignedStart ≤ r.alignedStart + k * ps && q.alignedEnd ≥ r.alignedStart + k * ps with
  | none =>
    left
    rw [Option.none_or, List.findIdx?_cons, if_pos hr]
    simp
  | some i =>
    right
    obtain ⟨hi, hq, -⟩ := List.findIdx?_eq_some_iff_getElem.mp hpre
    rw [Bool.and_eq_true, decide_eq_true_iff, decide_eq_true_iff] at hq
    have hd := h.disjoint_pre hs (List.getElem_mem hi)
    have hk0 : k * ps = 0 ∧ pre[i].alignedEnd = r.alignedStart := by omega
    refine ⟨(Nat.mul_eq_zero.mp hk0.1).resolve_right hps.ne', i, pre[i], by simp, hi, ?_, hk0.2⟩
    rw [hs, List.getElem?_append_left hi, List.getElem?_eq_getElem hi]

end Fitting

/-- The pages of a table do not overlap, and neighbours that `getRegion` takes for pages of one
region are adjacent in memory. -/
structure Layout.Sound (L : Layout) : Prop where
  pageSize : ValidPageSize L.pageSize
  addr_pos : ∀ i < L.count, 0 < L.addr i
  addr_dvd : ∀ i < L.count, L.pageSize ∣ L.addr i
  addr_add_lt : ∀ i < L.count, L.addr i + L.pageSize < 2 ^ width
  addr_apart : ∀ i < L.count, ∀ j < L.count, i ≠ j →
    L.addr i + L.pageSize ≤ L.addr j ∨ L.addr j + L.pageSize ≤ L.addr i
  glued_addr : ∀ i, i + 1 < L.count → L.Glued i → L.addr (i + 1) = L.addr i + L.pageSize

/-- Different pages have different addresses. -/
theorem Layout.Sound.addr_inj {L : Layout} (hL : L.Sound) {i j : ℕ} (hi : i < L.count)
    (hj : j < L.count) (h : L.addr i = L.addr j) : i = j := by
  have hps := hL.pageSize.pos
  by_contra hij
  rcases hL.addr_apart i hi j hj hij with hlt | hlt <;> omega

omit [Platform] in
/-- Two places of one list are the same, or one comes first. -/
theorem split_cases {α : Type} {l pre post pre' post' : List α} {r r' : α}
    (hs : l = pre ++ r :: post) (hs' : l = pre' ++ r' :: post') :
    pre = pre' ∧ r = r' ∨ r ∈ pre' ∨ r' ∈ pre := by
  rcases List.append_eq_append_iff.mp (hs.symm.trans hs') with ⟨mid, rfl, he⟩ | ⟨mid, rfl, he⟩
  · cases mid with
    | nil => exact Or.inl ⟨(List.append_nil pre).symm, (List.cons.inj he).1⟩
    | cons x mid =>
      rw [(List.cons.inj he).1]
      exact Or.inr (Or.inl (by simp))
  · cases mid with
    | nil => exact Or.inl ⟨List.append_nil pre', (List.cons.inj he).1.symm⟩
    | cons x mid =>
      rw [(List.cons.inj he).1]
      exact Or.inr (Or.inr (by simp))

/-- Different pages do not overlap. -/
private theorem Fitting.pages_apart {regions : List Region} (h : Fitting regions ps)
    {pre post pre' post' : List RegionInfo} {r r' : RegionInfo} {k k' : ℕ}
    (hs : accepted ps regions = pre ++ r :: post) (hk : k < r.pageCount)
    (hs' : accepted ps regions = pre' ++ r' :: post') (hk' : k' < r'.pageCount)
    (hne : pageSum pre + k ≠ pageSum pre' + k') :
    r.alignedStart + k * ps + ps ≤ r'.alignedStart + k' * ps ∨
      r'.alignedStart + k' * ps + ps ≤ r.alignedStart + k * ps := by
  have hle := h.page_le hs hk
  have hle' := h.page_le hs' hk'
  rcases split_cases hs hs' with ⟨rfl, rfl⟩ | hmem | hmem
  · have hkk : k ≠ k' := fun e => hne (by rw [e])
    rcases Nat.lt_or_gt_of_ne hkk with hlt | hlt
    · have := Nat.mul_le_mul_right ps (Nat.succ_le_of_lt hlt)
      rw [Nat.succ_mul] at this
      omega
    · have := Nat.mul_le_mul_right ps (Nat.succ_le_of_lt hlt)
      rw [Nat.succ_mul] at this
      omega
  · have := h.disjoint_pre hs' hmem
    omega
  · have := h.disjoint_pre hs hmem
    omega

/-- The pages of the first of two neighbouring regions end where the second one begins. -/
private theorem Fitting.next_region {regions : List Region} (h : Fitting regions ps)
    {pre post : List RegionInfo} {r r' : RegionInfo} {k : ℕ}
    (hs : accepted ps regions = pre ++ r :: r' :: post) (hk : k + 1 = r.pageCount)
    (hglue : (layout h).Glued (pageSum pre + k)) : r'.alignedStart = r.alignedEnd := by
  have hs' : accepted ps regions = (pre ++ [r]) ++ r' :: post := by
    rw [hs, List.append_assoc, List.singleton_append]
  have hmem' := region_mem hs'
  have hpos' := h.pageCount_pos hmem'
  have hidx : pageSum pre + k + 1 = pageSum (pre ++ [r]) + 0 := by
    rw [pageSum_append, pageSum_cons, pageSum_nil]
    omega
  have hd := h.disjoint_pre hs' (q := r) (by simp)
  have hend := h.alignedEnd_eq (region_mem hs)
  have hend' := h.alignedEnd_eq hmem'
  have hsize := Nat.mul_pos (h.pageCount_pos (region_mem hs)) h.pageSize.pos
  have hsize' := Nat.mul_pos hpos' h.pageSize.pos
  rw [Layout.Glued, hidx, h.addr_split hs (by omega), h.addr_split hs' hpos'] at hglue
  have h₁ := h.getRegion_page hs (k := k) (by omega)
  rcases h.getRegion_page hs' hpos' with h₂ | ⟨-, i, q, h₂, -, hq, hqe⟩
  · -- the region of the second page is not found for the first one
    rw [h₂] at hglue
    rcases h₁ with h₁ | ⟨-, i, q, h₁, hi, -⟩
    · rw [h₁, Option.some.injEq, List.length_append, List.length_singleton] at hglue
      omega
    · rw [h₁, Option.some.injEq, List.length_append, List.length_singleton] at hglue
      omega
  · rw [h₂] at hglue
    rcases h₁ with h₁ | ⟨-, j, q', h₁, hj, hq', hqe'⟩
    · rw [h₁, Option.some.injEq] at hglue
      subst hglue
      rw [hs, List.getElem?_append_right le_rfl, Nat.sub_self, List.getElem?_cons_zero,
        Option.some.injEq] at hq
      rw [← hqe, hq]
    · -- a region in front of both cannot end where both begin
      rw [h₁, Option.some.injEq] at hglue
      subst hglue
      rw [hq', Option.some.injEq] at hq
      subst hq
      omega

namespace Fitting

variable {regions : List Region} (h : Fitting regions ps)

include h

/-- Every page is a page of one of the regions. -/
theorem exists_split {i : ℕ} (hi : i < (layout h).count) : ∃ pre r post k,
    accepted ps regions = pre ++ r :: post ∧ i = pageSum pre + k ∧ k < r.pageCount :=
  exists_region (h.layout_count ▸ hi)

/-- Pages are aligned. -/
theorem addr_dvd {i : ℕ} (hi : i < (layout h).count) : ps ∣ (layout h).addr i := by
  obtain ⟨pre, r, post, k, hs, rfl, hk⟩ := h.exists_split hi
  rw [h.addr_split hs hk]
  exact Nat.dvd_add (h.dvd (region_mem hs)) (Dvd.intro_left k rfl)

/-- Pages end inside of the address space. -/
theorem addr_add_lt {i : ℕ} (hi : i < (layout h).count) : (layout h).addr i + ps < 2 ^ width := by
  obtain ⟨pre, r, post, k, hs, rfl, hk⟩ := h.exists_split hi
  rw [h.addr_split hs hk]
  exact (h.page_le hs hk).trans_lt (h.alignedEnd_lt (region_mem hs))

/-- Different pages do not overlap. -/
theorem addr_apart {i j : ℕ} (hi : i < (layout h).count) (hj : j < (layout h).count)
    (hij : i ≠ j) : (layout h).addr i + ps ≤ (layout h).addr j ∨
      (layout h).addr j + ps ≤ (layout h).addr i := by
  obtain ⟨pre, r, post, k, hs, rfl, hk⟩ := h.exists_split hi
  obtain ⟨pre', r', post', k', hs', rfl, hk'⟩ := h.exists_split hj
  rw [h.addr_split hs hk, h.addr_split hs' hk']
  exact h.pages_apart hs hk hs' hk' hij

/-- Different pages have different addresses. -/
theorem addr_inj {i j : ℕ} (hi : i < (layout h).count) (hj : j < (layout h).count)
    (he : (layout h).addr i = (layout h).addr j) : i = j := by
  have hps := h.pageSize.pos
  by_contra hij
  rcases h.addr_apart hi hj hij with hlt | hlt <;> omega

/-- The page behind a page belongs to the same region, or it is the first one of the next. -/
theorem exists_next {i : ℕ} (hi : i + 1 < (layout h).count) :
    ∃ pre r post k, accepted ps regions = pre ++ r :: post ∧ i = pageSum pre + k ∧
      k < r.pageCount ∧ (k + 1 < r.pageCount ∨ ∃ r' post', post = r' :: post' ∧
        k + 1 = r.pageCount ∧ 0 < r'.pageCount ∧
        accepted ps regions = (pre ++ [r]) ++ r' :: post' ∧
        pageSum pre + k + 1 = pageSum (pre ++ [r]) + 0) := by
  obtain ⟨pre, r, post, k, hs, rfl, hk⟩ := h.exists_split (Nat.lt_of_succ_lt hi)
  have hpos : ∀ r' ∈ post, 0 < r'.pageCount := fun r' hr' => h.pageCount_pos (by simp [hs, hr'])
  refine ⟨pre, r, post, k, hs, rfl, hk, ?_⟩
  rcases next_page hk (by rwa [← hs, ← h.layout_count]) hpos with hk' | ⟨r', post', rfl, hk'⟩
  · exact Or.inl hk'
  · refine Or.inr ⟨r', post', rfl, hk', hpos r' List.mem_cons_self, ?_, ?_⟩
    · rw [hs, List.append_assoc, List.singleton_append]
    · rw [pageSum_append, pageSum_cons, pageSum_nil]
      omega

/-- Neighbours that `getRegion` takes for pages of one region are adjacent in memory. -/
theorem glued_addr {i : ℕ} (hi : i + 1 < (layout h).count) (hglue : (layout h).Glued i) :
    (layout h).addr (i + 1) = (layout h).addr i + ps := by
  obtain ⟨pre, r, post, k, hs, rfl, hk, hk' | ⟨r', post', rfl, hk', hpos, hs', hidx⟩⟩ :=
    h.exists_next hi
  · rw [Nat.add_assoc, h.addr_split hs hk, h.addr_split hs hk', Nat.succ_mul, Nat.add_assoc]
  · have hnext := h.next_region hs hk' hglue
    rw [hidx, h.addr_split hs hk, h.addr_split hs' hpos, hnext,
      h.alignedEnd_eq (region_mem hs), ← hk', Nat.zero_mul, Nat.add_zero, Nat.succ_mul,
      Nat.add_assoc]

end Fitting

/-- The table that `init` sets up is sound. -/
theorem Usable.sound {regions : List Region} (h : Usable regions ps) :
    (layout h.toFitting).Sound := by
  refine ⟨h.pageSize, fun i hi => ?_, fun i hi => h.addr_dvd hi, fun i hi => h.addr_add_lt hi,
    fun i hi j hj hij => h.addr_apart hi hj hij, fun i hi hglue => h.glued_addr hi hglue⟩
  obtain ⟨pre, r, post, k, hs, rfl, hk⟩ := h.exists_split hi
  rw [h.addr_split hs hk]
  exact Nat.add_pos_left (h.alignedStart_pos (Fitting.region_mem hs)) _

end Liballocator
