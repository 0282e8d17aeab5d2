import Liballocator.Pages.Addressable
import Liballocator.Pages.Properties

/-!
# What `init` stores for regions of any size

The size of a group is stored in 21 bits, but `init` does not limit the number of pages of a
region.  This file follows `init` whether or not the table fits: it returns unless the truncated
size of the region with the table is less than the number of reserved pages
(`Addressable.init_stored`), and then the descriptors hold the truncated sizes.  So, when the table
fits, the sizes and the counter of free pages are right exactly when no region has `2 ^ 21` pages or
more.
-/

namespace Liballocator

open Program Tiling

section Stored

variable [Platform]

variable {L : Layout} {d n : ℕ} {done : List RegionInfo} {s s' s₀ s₁ : PageState}

/-- The descriptors of the regions `done`, with their sizes reduced modulo `2 ^ 21`. -/
structure StoredRegions (L : Layout) (d n : ℕ) (done : List RegionInfo) (s : PageState) : Prop where
  addr : ∀ j < pageSum done, addrAt L s.mem j = L.addr j
  tag : ∀ pre r post, done = pre ++ r :: post → ∀ j, pageSum pre ≤ j →
    j < pageSum pre + r.pageCount → tagAt L s.mem j =
      regionTags (pageSum pre) r.pageCount (reservedAt d n pre.length) j
  counter : s.self.freePagesCount + (if d < done.length then n else 0) =
    (done.map fun r => r.pageCount % 2 ^ 21).sum

theorem StoredRegions.nil (hfree : s.self.freePagesCount = 0) : StoredRegions L d n [] s := by
  refine ⟨fun j hj => absurd hj (Nat.not_lt_zero j), fun pre r post h => ?_, ?_⟩
  · exact absurd h (by simp)
  · rw [hfree]
    rfl

omit [Platform] in
/-- The sizes modulo `2 ^ 21` add up to no more than the number of pages. -/
theorem sum_mod_le (infos : List RegionInfo) :
    (infos.map fun r => r.pageCount % 2 ^ 21).sum ≤ pageSum infos :=
  List.sum_le_sum fun _ _ => Nat.mod_le _ _

/-- One more region. -/
theorem StoredRegions.step {r : RegionInfo} {f f' : ℕ → List Group}
    (h : StoredRegions L d n done s) (hle : pageSum done + r.pageCount ≤ L.count)
    (hres : reservedAt d n done.length ≤ r.pageCount % 2 ^ 21)
    (hst : RegionStep L (pageSum done) (pageSum done + r.pageCount) (reservedAt d n done.length)
      (r.pageCount % 2 ^ 21 - reservedAt d n done.length) f f'
      (regionTags (pageSum done) r.pageCount (reservedAt d n done.length)) s s') :
    StoredRegions L d n (done ++ [r]) s' := by
  refine ⟨fun j hj => ?_, fun pre q post hs j h₁ h₂ => ?_, ?_⟩
  · rw [pageSum_append, pageSum_cons, pageSum_nil, Nat.add_zero] at hj
    by_cases hold : j < pageSum done
    · exact (hst.oldAddr j hold).trans (h.addr j hold)
    · exact hst.addr j (Nat.le_of_not_lt hold) hj
  · rcases List.eq_nil_or_concat post with rfl | ⟨post', q', rfl⟩
    · obtain ⟨rfl, hq⟩ := List.append_inj' hs rfl
      obtain rfl := (List.cons.inj hq).1
      exact hst.tag j h₁ h₂
    · -- an earlier region
      have hdone : done = pre ++ q :: post' := by
        have h : done ++ [r] = (pre ++ q :: post') ++ [q'] := by simpa using hs
        exact (List.append_inj' h rfl).1
      have hlt : j < pageSum done := by
        rw [hdone, pageSum_append, pageSum_cons]
        omega
      exact (hst.oldTag j hlt).trans (h.tag pre q post' hdone j h₁ h₂)
  · have hcounter := h.counter
    have hsum := sum_mod_le done
    have hmod := Nat.mod_le r.pageCount (2 ^ 21)
    have hcount : L.count < 2 ^ width := Layout.count_lt_loopBound
    rw [hst.counter, Word.add_eq (by omega), List.map_append, List.sum_append, ← hcounter,
      List.length_append, List.length_singleton, List.map_singleton, List.sum_singleton]
    unfold reservedAt at hres ⊢
    split_ifs at hres ⊢ <;> omega

/-! ### `init` on regions of any size -/

namespace Addressable

variable {regions : List Region} {ps : ℕ} (h : Addressable regions ps)

include h

/-- `init` up to its loop over the regions. -/
theorem init_eq : PageAllocator.init regions ps s = (do
    PageAllocator.initRegions (accepted ps regions).length 0 (h.layout.pageAt 0)
    return true : PageM Bool)
      { s with self := PageAllocator.configured (accepted ps regions) ps } := by
  have hcount := h.countPages ▸ (h.valid.pageSum_pos h.pageSize h.exists_page).ne'
  rw [PageAllocator.init_enter h.pageSize h.valid.add_lt h.valid.size_pos h.entries hcount]
  have hhead : (PageAllocator.configured (accepted ps regions) ps).pagesHead =
      h.layout.pageAt 0 := Layout.head_eq (L := h.layout)
  rw [hhead]

/-- The state in which `init` enters its loop over the regions. -/
theorem started : Started h.layout 0 (fun _ => [])
    { s with self := PageAllocator.configured (accepted ps regions) ps } := by
  refine ⟨⟨fun i _ => LinkedList.isList_nil_iff.mpr rfl, fun i _ g hg => ?_, fun i _ j _ g hg => ?_⟩,
    fun i _ g hg => ?_, two_pow_width_pos⟩ <;>
  exact absurd hg List.not_mem_nil

/-- When `init` returns, the truncated size of the region with the table has room for the reserved
pages: otherwise `splitGroup` fails. -/
theorem reserved_le {b : Bool} (hinit : PageAllocator.init regions ps s = .ok (b, s')) :
    tablePages (accepted ps regions) ps ≤
      (descRegionOf (accepted ps regions) ps).pageCount % 2 ^ 21 := by
  rw [h.init_eq] at hinit
  obtain ⟨post, hs⟩ := desc_split ps h.exists_page
  have hlength := desc_length ps h.exists_page
  have hlen : (accepted ps regions).length ≤ maxRegionsCount :=
    (List.length_filterMap_le _ _).trans h.entries
  have hh := (h.holdsTable hs hlength).1
  have hat := h.regionsAt
  have hrun := initRegions_reserved (n := tablePages (accepted ps regions) ps) (s :=
      { s with self := PageAllocator.configured (accepted ps regions) ps }) [] (hs ▸ hat) hs.symm.symm
    hlen ⟨rfl, rfl, rfl⟩ rfl (by rw [List.length_nil, Nat.zero_add, hlength])
    (by rwa [Nat.zero_add]) h.started
  rw [← hs] at hrun
  have hall : wlp (do
      PageAllocator.initRegions (accepted ps regions).length 0 (h.layout.pageAt 0)
      return true : PageM Bool) (fun _ _ => tablePages (accepted ps regions) ps ≤
        (descRegionOf (accepted ps regions) ps).pageCount % 2 ^ 21) _ :=
    wlp_bind.mpr (hrun.mono fun _ _ hle => wlp_pure.mpr hle)
  exact hall _ _ hinit

/-- What `init` leaves when it returns. -/
theorem init_stored (hn : tablePages (accepted ps regions) ps ≤
    (descRegionOf (accepted ps regions) ps).pageCount % 2 ^ 21) :
    wp (PageAllocator.init regions ps) (fun r s' => r = true ∧
      s'.self = withLists
        { h.layout.config with descPagesCount := tablePages (accepted ps regions) ps } s'.self ∧
      StoredRegions h.layout (PageAllocator.configured (accepted ps regions) ps).descRegionIdx
        (tablePages (accepted ps regions) ps) (accepted ps regions) s' ∧
      ∀ x ∉ h.layout.table, s'.mem x = s.mem x) s := by
  refine wp.of_run (wp_bind.mpr ?_) h.init_eq
  refine (initRegions_spec [] (n := tablePages (accepted ps regions) ps) (f := fun _ => [])
    (I := fun rest i c f s => Started h.layout c f s ∧ ∃ done, accepted ps regions = done ++ rest ∧
      done.length = i ∧ pageSum done = c ∧ StoredRegions h.layout
        (PageAllocator.configured (accepted ps regions) ps).descRegionIdx
        (tablePages (accepted ps regions) ps) done s)
    (fun _ _ _ _ _ hI => hI.1) (fun r rest i c f s s' hI hpos hle hres hst => ?_) h.regionsAt rfl
    ((List.length_filterMap_le _ _).trans h.entries) ⟨rfl, rfl, rfl⟩ rfl (fun pre r post hs hd => ?_)
    ⟨h.started, [], rfl, rfl, rfl, .nil rfl⟩).mono ?_
  · obtain ⟨hstarted, done, hs, rfl, rfl, hstored⟩ := hI
    refine ⟨hstarted.step hpos hres hst, done ++ [r], by simp [hs], by simp, by simp,
      hstored.step hle hres hst⟩
  · have hd : pre.length = (PageAllocator.configured (accepted ps regions) ps).descRegionIdx := by
      simpa using hd
    have hh := h.holdsTable hs hd
    refine ⟨by simpa using hh.1, hh.2.1, ?_⟩
    rwa [← descRegionOf_eq hs hd]
  · rintro _ s' ⟨⟨f', -, done, hs, -, -, hstored⟩, hself, hfr⟩
    rw [List.append_nil] at hs
    refine wp_pure.mpr ⟨rfl, hself.trans ?_, hs ▸ hstored, hfr⟩
    have hd := descRegionIdx_lt ps h.exists_page
    rw [afterRegions, if_pos ⟨Nat.zero_le _, by rwa [List.length_nil, Nat.zero_add]⟩]
    rfl

end Addressable

namespace Fitting

variable {regions : List Region} {ps : ℕ} (h : Fitting regions ps)

include h

theorem reserved_le {b : Bool} (hinit : PageAllocator.init regions ps s = .ok (b, s')) :
    reservedPages (layout h).count ps ≤
      (descRegionOf (accepted ps regions) ps).pageCount % 2 ^ 21 :=
  h.tablePages_eq ▸ h.addressable.reserved_le hinit

/-- What `init` leaves when it returns and the table fits. -/
theorem init_stored (hn : reservedPages (layout h).count ps ≤
    (descRegionOf (accepted ps regions) ps).pageCount % 2 ^ 21) :
    wp (PageAllocator.init regions ps) (fun r s' => r = true ∧
      s'.self = withLists (layout h).config s'.self ∧
      StoredRegions (layout h) (PageAllocator.configured (accepted ps regions) ps).descRegionIdx
        (reservedPages (layout h).count ps) (accepted ps regions) s' ∧
      ∀ x ∉ (layout h).table, s'.mem x = s.mem x) s := by
  have hrun := h.addressable.init_stored (s := s) (h.tablePages_eq ▸ hn)
  rwa [h.tablePages_eq] at hrun

end Fitting

/-- What a successful `init` says about its arguments, when the table fits. -/
theorem PageAllocator.fitting_of_init {regions : List Region} {ps : ℕ} (hlt : ps < 2 ^ width)
    (hv : ValidRegions regions) (htable : pageSum (accepted ps regions) * sizeofPage ≤
      (descRegionOf (accepted ps regions) ps).alignedSize)
    (hinit : init regions ps s₀ = .ok (true, s₁)) : Fitting regions ps := by
  have h := addressable_of_init hlt hv hinit
  exact ⟨h.pageSize, hv, h.entries, h.exists_page, htable, h.head_pos⟩

/-! ### The sizes of the groups -/

/-- The groups of a region with `size` pages from `c` on: its first `n` pages, which are reserved,
and the rest of it; there is no group without pages. -/
def regionGroups (c size n : ℕ) : List Group :=
  ([⟨c, n⟩, ⟨c + n, size - n⟩] : List Group).filter (0 < ·.size)

/-- The descriptors hold the number of pages of every group of every region, and the pages that are
not reserved are counted as free. -/
structure PageAllocator.SizesStored (infos : List RegionInfo) (s : PageState) : Prop where
  groups : ∀ pre r post, infos = pre ++ r :: post →
    ∀ g ∈ regionGroups (pageSum pre) r.pageCount
      (reservedAt s.self.descRegionIdx s.self.descPagesCount pre.length),
      s.groupSize g.first = g.size ∧ s.groupSize (g.first + g.size - 1) = g.size
  counter : s.self.freePagesCount = s.self.pagesCount - s.self.descPagesCount

omit [Platform] in
/-- No size is changed modulo `2 ^ 21` when the sum is not. -/
theorem sum_mod_eq_iff {infos : List RegionInfo} :
    (infos.map fun r => r.pageCount % 2 ^ 21).sum = pageSum infos ↔
      ∀ r ∈ infos, r.pageCount < 2 ^ 21 := by
  induction infos with
  | nil => simp
  | cons r rs ih =>
    have hle := sum_mod_le rs
    have hmod := Nat.mod_le r.pageCount (2 ^ 21)
    have hlt : r.pageCount % 2 ^ 21 < 2 ^ 21 := Nat.mod_lt _ (Nat.two_pow_pos 21)
    rw [List.map_cons, List.sum_cons, pageSum_cons, List.forall_mem_cons, ← ih]
    constructor
    · intro h
      exact ⟨by omega, by omega⟩
    · rintro ⟨h₁, h₂⟩
      rw [Nat.mod_eq_of_lt h₁, h₂]

section Sizes

variable {regions : List Region} {ps : ℕ}

/-- After `init` the sizes are right when the 21 bits hold the number of pages of every region. -/
private theorem StoredRegions.sizesStored (h : Fitting regions ps)
    (hlt : ∀ r ∈ accepted ps regions, r.pageCount < 2 ^ 21)
    (hself : s.self = withLists (layout h).config s.self)
    (hs : StoredRegions (layout h) (PageAllocator.configured (accepted ps regions) ps).descRegionIdx
      (reservedPages (layout h).count ps) (accepted ps regions) s) :
    PageAllocator.SizesStored (accepted ps regions) s := by
  have hidx : s.self.descRegionIdx =
      (PageAllocator.configured (accepted ps regions) ps).descRegionIdx := by
    rw [hself]
    rfl
  have hdesc : s.self.descPagesCount = reservedPages (layout h).count ps := by
    rw [hself]
    rfl
  have hpages : s.self.pagesCount = pageSum (accepted ps regions) := by
    rw [hself]
    exact h.layout_count
  have htag : ∀ i, s.groupSize i = tagAt (layout h) s.mem i := by
    intro i
    rw [PageState.groupSize, PageState.descriptor, hself]
    rfl
  refine ⟨fun pre r post hsplit g hg => ?_, ?_⟩
  · have hr := hlt r (Fitting.region_mem hsplit)
    have hpos := h.pageCount_pos (Fitting.region_mem hsplit)
    have hn : reservedAt s.self.descRegionIdx s.self.descPagesCount pre.length ≤ r.pageCount := by
      unfold reservedAt
      split_ifs with hd
      · rw [hdesc]
        exact (h.holdsTable hsplit (hd.trans hidx)).2.2
      · exact Nat.zero_le _
    have htags := hs.tag pre r post hsplit
    rw [← hidx, ← hdesc] at htags
    generalize reservedAt s.self.descRegionIdx s.self.descPagesCount pre.length = n at hg hn htags
    obtain ⟨ht₁, ht₂⟩ := regionTags_tagged (c := pageSum pre) hpos hn hr
    have key : ∀ g : Group, 0 < g.size → pageSum pre ≤ g.first →
        g.first + g.size ≤ pageSum pre + r.pageCount →
        Tagged (regionTags (pageSum pre) r.pageCount n) g →
        s.groupSize g.first = g.size ∧ s.groupSize (g.first + g.size - 1) = g.size := by
      intro g hpos hge hle ht
      have hsmall : g.size < 2 ^ 21 := by omega
      rw [htag, htag, htags _ hge (by omega), htags _ (by omega) (by omega), ht.first, cut_eq hsmall]
      exact ⟨rfl, ht.last hsmall⟩
    obtain ⟨hmem, hsize⟩ := List.mem_filter.mp hg
    have hsize : 0 < g.size := of_decide_eq_true hsize
    rcases List.mem_cons.mp hmem with rfl | hmem
    · exact key _ hsize le_rfl (by simp only; omega) (ht₁ hsize.ne')
    · obtain rfl := List.mem_singleton.mp hmem
      refine key _ hsize (Nat.le_add_right _ _) (by simp only; omega) (ht₂ ?_)
      simp only at hsize
      omega
  · have hcounter := hs.counter
    rw [if_pos (descRegionIdx_lt ps h.exists_page), sum_mod_eq_iff.mpr hlt] at hcounter
    rw [hpages, hdesc]
    omega

/-- `init` succeeds and the sizes it stores are right exactly when every region has less than
`2 ^ 21` pages. -/
theorem PageAllocator.sizesStored_iff (h : Fitting regions ps) (s₀ : PageState) :
    (∃ s₁, init regions ps s₀ = .ok (true, s₁) ∧ SizesStored (accepted ps regions) s₁) ↔
      ∀ r ∈ accepted ps regions, r.pageCount < 2 ^ 21 := by
  have hd := descRegionIdx_lt ps h.exists_page
  constructor
  · rintro ⟨s₁, hinit, hsizes⟩
    obtain ⟨-, hself, hs, -⟩ := (h.init_stored (h.reserved_le hinit)).of_run_eq hinit
    have hcounter := hs.counter
    have hfree := hsizes.counter
    have hpages : s₁.self.pagesCount = pageSum (accepted ps regions) := by
      rw [hself]
      exact h.layout_count
    have hdesc : s₁.self.descPagesCount = reservedPages (layout h).count ps := by
      rw [hself]
      rfl
    have hle := sum_mod_le (accepted ps regions)
    rw [if_pos hd] at hcounter
    rw [← sum_mod_eq_iff]
    omega
  · intro hlt
    have hr := hlt _ h.desc_mem
    have hn := h.reserved.2.2
    obtain ⟨_, s₁, hinit, rfl, hself, hs, -⟩ := h.init_stored (s := s₀)
      (by rw [Nat.mod_eq_of_lt hr]; exact hn)
    exact ⟨s₁, hinit, hs.sizesStored h hlt hself⟩

end Sizes

end Stored

section Lp64

attribute [local instance] lp64

/-- With two pages in each of two regions the sizes are right. -/
theorem PageAllocator.sizesStored_touching : ∃ s₁,
    init touchingRegions 256 blankPages = .ok (true, s₁) ∧
      SizesStored (accepted 256 touchingRegions) s₁ :=
  (sizesStored_iff touchingRegions_fitting blankPages).mpr (by decide)

/-- A region with three times `2 ^ 20` pages. -/
def hugeRegions : List Region := [⟨4096, 402653184⟩]

theorem hugeRegions_fitting : Fitting hugeRegions 128 :=
  ⟨validPageSize_128, ⟨by decide, by decide, by decide⟩, by decide, by decide, by decide,
    by decide⟩

/-- The size of the region is stored without its highest bit: most of its pages are lost. -/
theorem exists_truncated : Fitting hugeRegions 128 ∧ ∃ s₁,
    PageAllocator.init hugeRegions 128 blankPages = .ok (true, s₁) ∧
      s₁.self.pagesCount = 3145728 ∧ s₁.self.descPagesCount = 786432 ∧
      s₁.self.freePagesCount = 262144 ∧ ¬PageAllocator.SizesStored (accepted 128 hugeRegions) s₁ := by
  obtain ⟨_, s₁, hinit, rfl, hself, hs, -⟩ := hugeRegions_fitting.init_stored (s := blankPages)
    (by decide)
  have hpages : s₁.self.pagesCount = 3145728 := by
    rw [hself]
    exact (show (layout hugeRegions_fitting).config.pagesCount = 3145728 by decide)
  have hdesc : s₁.self.descPagesCount = 786432 := by
    rw [hself]
    exact (show (layout hugeRegions_fitting).config.descPagesCount = 786432 by decide)
  have hfree : s₁.self.freePagesCount + 786432 = 1048576 := hs.counter
  refine ⟨hugeRegions_fitting, s₁, hinit, hpages, hdesc, by omega, fun h => ?_⟩
  have := h.counter
  omega

end Lp64

end Liballocator
