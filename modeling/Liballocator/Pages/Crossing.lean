import Liballocator.Pages.Exact
import Liballocator.Pages.Maximal

/-!
# Groups that cross regions

`PageRun.oneRegion_of_apart` is exact.  Unless the boundary between two regions is one that
`RegionsApart` speaks of, all free pages can be allocated one by one, and then the releases of the
two pages at the boundary join them (`PageRun.exists_crossed`).  In terms of addresses the boundary
is one where the first region ends at the beginning of the second one (`Fitting.regionsApart_iff`).
-/

namespace Liballocator

open Program LinkedList Tiling

section Crossing

variable [Platform]

/-! ### Runs on groups -/

namespace Pages

variable {L : Layout} {a₀ a : Pages} {live : List Group} {i : ℕ}

/-- Single pages can be allocated until no page is free. -/
theorem Reach.exists_drained (h : Reach L a₀ a live) (hi : a₀.Inv) (hc : a₀.count < 2 ^ 21)
    (hone : ∀ g ∈ live, g.size = 1) :
    ∃ b live', Reach L a₀ b live' ∧ b.freeGroups = [] ∧ ∀ g ∈ live', g.size = 1 := by
  induction hn : a.freeCount using Nat.strong_induction_on generalizing a live with
  | _ n ih =>
    obtain ⟨hia, hcount, -⟩ := h.inv hi
    have hca := hcount.trans_lt hc
    cases hal : (a.allocate 1).1 with
    | none =>
      refine ⟨a, live, h, List.eq_nil_iff_forall_not_mem.mpr fun g hg => ?_, hone⟩
      have hpos := hia.tiles.size_pos (mem_groups.mpr (Or.inr hg))
      obtain ⟨g', hal'⟩ := (hia.exists_allocate_iff hca).mpr ⟨Nat.one_pos, g, hg, hpos⟩
      rw [hal] at hal'
      cases hal'
    | some g =>
      have hless := hia.freeCount_allocate hal
      refine ih _ (by omega) (h.allocate 1) (fun k hk => ?_) rfl
      rw [hal] at hk
      rcases List.mem_cons.mp hk with rfl | hk
      · exact size_of_allocate hia hca hal
      · exact hone k hk

/-- When no page is free and all live groups are single pages, every page that has not been in use
from the start is one of them. -/
theorem Reach.mem_live (h : Reach L a₀ a live) (hi : a₀.Inv) (hnone : a.freeGroups = [])
    (hone : ∀ g ∈ live, g.size = 1) (hlt : i < a₀.count) (hres : ∀ g ∈ a₀.used, ¬g.Covers i) :
    (⟨i, 1⟩ : Group) ∈ live := by
  obtain ⟨hia, hcount, hused⟩ := h.inv hi
  obtain ⟨g, hg, hcov⟩ := hia.tiles.exists_covers (hcount ▸ hlt)
  rw [groups, hnone, List.append_nil, hused.mem_iff] at hg
  rcases List.mem_append.mp hg with hg | hg
  · have hsize := hone g hg
    obtain ⟨first, size⟩ := g
    obtain ⟨h₁, h₂⟩ := hcov
    simp only at hsize h₁ h₂
    obtain rfl : first = i := by omega
    rwa [← hsize]
  · exact absurd hcov (hres g hg)

/-- Two neighbours that `release` may join can be brought into one free group. -/
theorem Reach.exists_joined (hi : a₀.Inv) (hc : a₀.count < 2 ^ 21) (hlt : i + 1 < a₀.count)
    (hglue : L.Glued i) (hres : ∀ g ∈ a₀.used, ¬g.Covers i ∧ ¬g.Covers (i + 1)) :
    ∃ a live, Reach L a₀ a live ∧ ∃ h ∈ a.freeGroups, h.Covers i ∧ h.Covers (i + 1) := by
  obtain ⟨b, live, hb, hnone, hone⟩ :=
    Reach.start.exists_drained (L := L) hi hc fun g hg => absurd hg List.not_mem_nil
  have h₁ := hb.mem_live hi hnone hone (Nat.lt_of_succ_lt hlt) fun g hg => (hres g hg).1
  have h₂ := hb.mem_live hi hnone hone hlt fun g hg => (hres g hg).2
  have hne : (⟨i + 1, 1⟩ : Group) ≠ ⟨i, 1⟩ := by simp
  have huncut : ∀ j, Uncut L.Glued ⟨j, 1⟩ := by
    rintro j k ⟨hk, -⟩ ⟨-, hk'⟩
    simp only at hk hk'
    omega
  -- the two pages are released one after the other
  have hr₁ := hb.release h₁
  have hr₂ := hr₁.release ((List.mem_erase_of_ne hne).mpr h₂)
  obtain ⟨hib, hcb, -⟩ := hb.inv hi
  obtain ⟨hi₁, hc₁, -⟩ := hr₁.inv hi
  obtain ⟨hi₂, hc₂, -⟩ := hr₂.inv hi
  have hu₁ := hb.mem_used hi h₁
  have hu₂ := hr₁.mem_used hi ((List.mem_erase_of_ne hne).mpr h₂)
  have hco : b.Coalesced L := fun h hh => absurd (hnone ▸ hh) List.not_mem_nil
  have hco₂ := (hco.release hib (hcb.trans_lt hc) hu₁ (huncut i)).release hi₁ (hc₁.trans_lt hc) hu₂
    (huncut (i + 1))
  have hfree : ∀ j, j = i ∨ j = i + 1 → FreePage ((b.release L ⟨i, 1⟩).release L ⟨i + 1, 1⟩) j := by
    intro j hj
    refine hi₂.freePage_iff.mpr ⟨by omega, fun g hg hcov => ?_⟩
    have hg₁ := (hi₁.used_release hu₂).mem_iff.mp hg
    have hnd₁ : (b.release L ⟨i, 1⟩).used.Nodup := (List.nodup_append.mp hi₁.tiles.nodup).1
    have hnd : b.used.Nodup := (List.nodup_append.mp hib.tiles.nodup).1
    obtain ⟨hg₂, hg₁⟩ := hnd₁.mem_erase_iff.mp hg₁
    obtain ⟨hne₁, hgb⟩ := hnd.mem_erase_iff.mp ((hib.used_release hu₁).mem_iff.mp hg₁)
    have hgg := mem_groups.mpr (Or.inl hgb)
    rcases hj with rfl | rfl
    · exact hne₁ (hib.tiles.eq_of_covers hgg (mem_groups.mpr (Or.inl hu₁)) hcov ⟨le_rfl, by simp⟩)
    · refine hg₂ (hib.tiles.eq_of_covers hgg (mem_groups.mpr (Or.inl ?_)) hcov ⟨le_rfl, by simp⟩)
      exact hb.mem_used hi h₂
  obtain ⟨h, hh, hcov⟩ := hfree i (Or.inl rfl)
  refine ⟨_, _, hr₂, h, hh, hcov, ?_⟩
  by_contra hnot
  refine (hco₂ h hh).right i ?_ ⟨hfree (i + 1) (Or.inr rfl), hglue⟩
  simp only [Span.Covers] at hcov hnot
  omega

end Pages

/-- Every run on groups is a run of the code. -/
theorem Pages.Reach.exists_run {L : Layout} {a₀ a : Pages} {s₀ : PageState} {live : List Group}
    (h : Pages.Reach L a₀ a live) (hr : PageRep L a₀ s₀) (hc : L.count < 2 ^ 21) :
    ∃ s, PageRun s₀ s (live.map (blockOf L)) ∧ PageRep L a s := by
  induction h with
  | start => exact ⟨s₀, .start, hr⟩
  | @allocate a live n h ih =>
    obtain ⟨s, hrun, hra⟩ := ih
    have hca := hra.count.trans_lt hc
    cases hal : (a.allocate n).1 with
    | none =>
      obtain ⟨page, s', hcall, rfl, hr', -⟩ := hra.allocate (n := n)
      have hrun' := hrun.allocate hcall
      rw [hal, groupPtr, if_pos rfl] at hrun'
      exact ⟨s', hrun', hr'⟩
    | some g =>
      obtain ⟨s', hrun', hr'⟩ := hrun.exists_allocate hra hal
      refine ⟨s', ?_, hr'⟩
      have hgu : g ∈ (a.allocate n).2.used := by
        rw [Pages.used_allocate hra.inv, hal]
        exact List.mem_cons_self
      rwa [hr'.inv.cut_eq (hr'.count.trans_lt hc) (Pages.mem_groups.mpr (Or.inl hgu))] at hrun'
  | @release a live g h hg ih =>
    obtain ⟨s, hrun, hra⟩ := ih
    have hgu := h.mem_used hr.inv hg
    have hcut := hra.inv.cut_eq (hra.count.trans_lt hc) (Pages.mem_groups.mpr (Or.inl hgu))
    obtain ⟨s', hrun', hr'⟩ := hrun.exists_release hra hgu
      (hcut.symm ▸ List.mem_map_of_mem hg)
    rw [hcut, ← List.map_erase blockOf_injective] at hrun'
    exact ⟨s', hrun', hr'⟩

/-! ### Boundaries -/

omit [Platform] in
/-- The page behind the last one of a region is the first one of the next region. -/
theorem pageSum_next {pre : List RegionInfo} {r : RegionInfo} {k : ℕ} (hk : r.pageCount = k + 1) :
    pageSum pre + k + 1 = pageSum (pre ++ [r]) + 0 := by
  rw [pageSum_append, pageSum_cons, pageSum_nil]
  omega

namespace Fitting

variable {regions : List Region} {ps : ℕ} (h : Fitting regions ps) {pre post : List RegionInfo}
  {r r' : RegionInfo} {k : ℕ}

include h

/-- At most one region ends at an address. -/
theorem eq_of_alignedEnd (hs : accepted ps regions = pre ++ r :: post) {i : ℕ} {q : RegionInfo}
    (hi : i ≤ pre.length) (hq : (accepted ps regions)[i]? = some q)
    (he : q.alignedEnd = r.alignedEnd) : i = pre.length := by
  by_contra hne
  have hlt : i < pre.length := by omega
  rw [hs, List.getElem?_append_left hlt] at hq
  have hmem := List.mem_of_getElem? hq
  have hr := region_mem hs
  have hq' : q ∈ accepted ps regions := hs ▸ List.mem_append_left _ hmem
  have h₁ := Nat.mul_pos (h.pageCount_pos hr) h.pageSize.pos
  have h₂ := Nat.mul_pos (h.pageCount_pos hq') h.pageSize.pos
  have h₃ := h.alignedEnd_eq hr
  have h₄ := h.alignedEnd_eq hq'
  have h₅ := h.disjoint_pre hs hmem
  omega

/-- The first page of a region is found in an earlier region that ends where it begins. -/
theorem getRegion_first (hs : accepted ps regions = pre ++ r :: post) {q : RegionInfo}
    (hq : q ∈ pre) (he : q.alignedEnd = r.alignedStart) :
    ∃ i q', (layout h).config.getRegion r.alignedStart = some i ∧ i < pre.length ∧
      (accepted ps regions)[i]? = some q' ∧ q'.alignedEnd = r.alignedStart := by
  have hr := region_mem hs
  have hpage := h.getRegion_page hs (h.pageCount_pos hr)
  rw [Nat.zero_mul, Nat.add_zero] at hpage
  rcases hpage with hfound | ⟨-, hfound⟩
  · -- the search does not go past `q`
    exfalso
    have hlt : r.alignedStart < 2 ^ width := by
      have h₁ := h.alignedEnd_lt hr
      have h₂ := h.alignedEnd_eq hr
      omega
    rw [h.getRegion_eq (alignDown_of_dvd h.pageSize hlt (h.dvd hr)), hs] at hfound
    obtain ⟨_, -, hnot⟩ := List.findIdx?_eq_some_iff_getElem.mp hfound
    obtain ⟨j, hj, rfl⟩ := List.getElem_of_mem hq
    have hq' : pre[j] ∈ accepted ps regions := hs ▸ List.mem_append_left _ hq
    have hend := h.alignedEnd_eq hq'
    have hno := hnot j hj
    rw [List.getElem_append_left hj, Bool.and_eq_true, decide_eq_true_iff,
      decide_eq_true_iff] at hno
    omega
  · exact hfound

/-- The addresses of the two pages at the boundary of neighbours in the array. -/
theorem addr_boundary (hs : accepted ps regions = pre ++ r :: r' :: post)
    (hk : r.pageCount = k + 1) :
    pageSum pre + k + 1 < (layout h).count ∧
      (layout h).addr (pageSum pre + k) = r.alignedEnd - ps ∧
      (layout h).addr (pageSum pre + k + 1) = r'.alignedStart := by
  have hs' := hs.trans (List.append_cons pre r (r' :: post))
  have hpos' := h.pageCount_pos (region_mem hs')
  refine ⟨?_, ?_, ?_⟩
  · rw [h.layout_count, hs', pageSum_append, pageSum_cons, pageSum_next hk]
    omega
  · rw [h.addr_split hs (by omega), h.alignedEnd_eq (region_mem hs), hk, Nat.succ_mul]
    omega
  · rw [pageSum_next hk, h.addr_split hs' hpos', Nat.zero_mul, Nat.add_zero]

/-- What `release` asks `getRegion` at the boundary of neighbours in the array. -/
theorem glued_boundary_iff (hs : accepted ps regions = pre ++ r :: r' :: post)
    (hk : r.pageCount = k + 1) : (layout h).Glued (pageSum pre + k) ↔
      (PageAllocator.configured (accepted ps regions) ps).getRegion (r.alignedEnd - ps) =
        (PageAllocator.configured (accepted ps regions) ps).getRegion r'.alignedStart := by
  obtain ⟨-, hlast, hfirst⟩ := h.addr_boundary hs hk
  rw [Layout.Glued, hlast, hfirst, h.getRegion_configured, h.getRegion_configured]

/-- `release` takes the two pages at the boundary of neighbours in the array for pages of one region
exactly when the first region ends at the beginning of the second one, unless the first region is a
single page that is found in yet another region. -/
theorem getRegion_boundary_iff (hs : accepted ps regions = pre ++ r :: r' :: post) :
    (PageAllocator.configured (accepted ps regions) ps).getRegion (r.alignedEnd - ps) =
        (PageAllocator.configured (accepted ps regions) ps).getRegion r'.alignedStart ↔
      r.alignedEnd = r'.alignedStart ∧
        ¬(r.pageCount = 1 ∧ ∃ q ∈ pre, q.alignedEnd = r.alignedStart) := by
  have hs' := hs.trans (List.append_cons pre r (r' :: post))
  have hr := region_mem hs
  have hlen : (pre ++ [r]).length = pre.length + 1 := by simp
  obtain ⟨k, hk⟩ : ∃ k, r.pageCount = k + 1 := Nat.exists_eq_add_of_le' (h.pageCount_pos hr)
  obtain ⟨hcount, hlast, hfirst⟩ := h.addr_boundary hs hk
  have hsplit := h.addr_split hs (k := k) (by omega)
  have hpage := h.getRegion_page hs (k := k) (by omega)
  rw [← hsplit, hlast] at hpage
  -- a region that ends where `r'` begins is `r`, so that the first page of `r'` is found there
  have hnext : r.alignedEnd = r'.alignedStart →
      (layout h).config.getRegion r'.alignedStart = some pre.length := by
    intro hadj
    obtain ⟨j, q', hj, hlt, hq', he⟩ := h.getRegion_first hs' (q := r) (by simp) hadj
    rw [hj, h.eq_of_alignedEnd hs (by omega) hq' (he.trans hadj.symm)]
  constructor
  · intro hget
    have hadj : r.alignedEnd = r'.alignedStart := by
      have haddr := h.glued_addr hcount ((h.glued_boundary_iff hs hk).mpr hget)
      rw [hfirst, hsplit] at haddr
      rw [haddr, h.alignedEnd_eq hr, hk, Nat.succ_mul, Nat.add_assoc]
    refine ⟨hadj, ?_⟩
    rintro ⟨hone, q, hq, he⟩
    obtain rfl : k = 0 := by omega
    obtain ⟨i, -, hi, hlt, -⟩ := h.getRegion_first hs hq he
    rw [← h.getRegion_configured, ← h.getRegion_configured, hnext hadj, ← hlast, hsplit,
      Nat.zero_mul, Nat.add_zero, hi, Option.some.injEq] at hget
    omega
  · rintro ⟨hadj, hnot⟩
    rw [← h.getRegion_configured, ← h.getRegion_configured, hnext hadj]
    rcases hpage with hpage | ⟨rfl, i, q, -, hi, hq, he⟩
    · exact hpage
    · rw [hs, List.getElem?_append_left hi] at hq
      exact absurd ⟨hk, q, List.mem_of_getElem? hq, he⟩ hnot

/-- The regions are apart when no region of the array ends at the beginning of the next one, except
where one of the two pages at the boundary is reserved for the table, or where the first region is a
single page that begins at the end of an earlier one. -/
theorem regionsApart_iff : RegionsApart (accepted ps regions) ps ↔
    ∀ pre r r' post, accepted ps regions = pre ++ r :: r' :: post →
      r.alignedEnd = r'.alignedStart →
      (r.pageCount = 1 ∧ ∃ q ∈ pre, q.alignedEnd = r.alignedStart) ∨
      pre.length + 1 = (PageAllocator.configured (accepted ps regions) ps).descRegionIdx ∨
      pre.length = (PageAllocator.configured (accepted ps regions) ps).descRegionIdx ∧
        r.pageCount = reservedPages
          (PageAllocator.configured (accepted ps regions) ps).pagesCount ps := by
  constructor
  · intro hap pre r r' post hs hadj
    by_cases hone : r.pageCount = 1 ∧ ∃ q ∈ pre, q.alignedEnd = r.alignedStart
    · exact Or.inl hone
    · exact Or.inr (hap pre r r' post hs ((h.getRegion_boundary_iff hs).mpr ⟨hadj, hone⟩))
  · intro hall pre r r' post hs hget
    obtain ⟨hadj, hnot⟩ := (h.getRegion_boundary_iff hs).mp hget
    exact (hall pre r r' post hs hadj).resolve_left hnot

/-- A page at a boundary that is not guarded is not reserved for the table. -/
theorem not_reserved (hs : accepted ps regions = pre ++ r :: post) (hk : k < r.pageCount)
    (hres : pre.length = (PageAllocator.configured (accepted ps regions) ps).descRegionIdx →
      reservedPages (PageAllocator.configured (accepted ps regions) ps).pagesCount ps ≤ k) :
    ¬(reservedGroup (accepted ps regions) ps).Covers (pageSum pre + k) := by
  rintro ⟨hge, hlt⟩
  obtain ⟨post', hd⟩ := h.desc_split
  obtain ⟨-, -, hle⟩ := h.reserved
  obtain ⟨j, hj⟩ := Nat.exists_eq_add_of_le hge
  have hown := h.regionOf_split hs hk
  have hdesc := h.regionOf_split hd (k := j) (by omega)
  have hlen := desc_length ps h.exists_page
  have hfirst : (reservedGroup (accepted ps regions) ps).first =
      pageSum ((accepted ps regions).take
        (PageAllocator.configured (accepted ps regions) ps).descRegionIdx) := rfl
  rw [hfirst] at hj
  rw [hj, hdesc, hlen] at hown
  obtain ⟨hpre, -⟩ := List.append_inj (hd.symm.trans hs) (hlen.trans hown)
  have hsize : (reservedGroup (accepted ps regions) ps).size =
      reservedPages (PageAllocator.configured (accepted ps regions) ps).pagesCount ps := rfl
  have hle' := hres hown.symm
  rw [hfirst, hpre, hsize] at hlt
  omega

/-- A group with the pages at both sides of a boundary does not belong to one region. -/
theorem not_oneRegion {a : Pages} {s : PageState} (hr : PageRep (layout h) a s)
    (hs : accepted ps regions = pre ++ r :: r' :: post) (hk : k + 1 = r.pageCount) {g : Group}
    (hg : g ∈ a.groups) (hi : g.Covers (pageSum pre + k)) (hi' : g.Covers (pageSum pre + k + 1)) :
    ¬OneRegion s (blockOf (layout h) g) := by
  rintro ⟨q', hq', hpages⟩
  have hs' := hs.trans (List.append_cons pre r (r' :: post))
  have hinfos : s.self.regionsInfo =
      placeRegions (layout h).config.pagesHead 0 (accepted ps regions) := by
    rw [hr.config]
    rfl
  have hps : s.self.pageSize = ps := by
    rw [hr.config]
    rfl
  obtain ⟨pre₀, q, post₀, hs₀, rfl⟩ := exists_of_mem_placeRegions (hinfos ▸ hq')
  have hreg : ∀ j, g.Covers j → regionOf (layout h).config.regionsInfo j = pre₀.length := by
    intro j hj
    have hstop := hr.stop_le hg
    obtain ⟨n, rfl⟩ := Nat.exists_eq_add_of_le hj.1
    have hn : n < g.size := Nat.lt_of_add_lt_add_left hj.2
    have hpage := hpages n hn
    simp only [blockOf] at hpage
    rw [← Layout.pageAt_add, hr.addr (by omega), hps] at hpage
    exact h.regionOf_eq hs₀ (by omega) hpage.1 hpage.2
  have h₁ := hreg _ hi
  have h₂ := hreg _ hi'
  rw [h.regionOf_split hs (by omega)] at h₁
  rw [pageSum_next hk.symm, h.regionOf_split hs' (h.pageCount_pos (region_mem hs')),
    List.length_append, List.length_singleton] at h₂
  omega

end Fitting

/-! ### Every run -/

variable {regions : List Region} {ps : ℕ} {s₀ s₁ : PageState}

/-- When two regions are not apart, some run leads to a free group that crosses them. -/
theorem PageRun.exists_crossed (hg : GoodArguments regions ps)
    (hnot : ¬RegionsApart (accepted ps regions) ps)
    (hinit : PageAllocator.init regions ps s₀ = .ok (true, s₁)) :
    ∃ s live b, PageRun s₁ s live ∧ FreeGroup s b ∧ ¬OneRegion s b := by
  obtain ⟨-, -, -, hr₁, -, -⟩ := hg.simulation hinit .start
  have h := hg.fitting hinit
  have hc := hg.count_lt hinit
  simp only [RegionsApart, not_forall, not_or, not_and] at hnot
  obtain ⟨pre, r, r', post, hs, hget, hfirst, hlast⟩ := hnot
  have hs' := hs.trans (List.append_cons pre r (r' :: post))
  have hpos' := h.pageCount_pos (Fitting.region_mem hs')
  obtain ⟨k, hk⟩ : ∃ k, r.pageCount = k + 1 :=
    Nat.exists_eq_add_of_le' (h.pageCount_pos (Fitting.region_mem hs))
  obtain ⟨hlt, -, -⟩ := h.addr_boundary hs hk
  -- the two pages at the boundary are not reserved, and `release` may join them
  have hglue : (layout h).Glued (pageSum pre + k) := (h.glued_boundary_iff hs hk).mpr hget
  have hres : ∀ g ∈ (Pages.initial (accepted ps regions) ps).used,
      ¬g.Covers (pageSum pre + k) ∧ ¬g.Covers (pageSum pre + k + 1) := by
    intro g hgu
    rw [h.used_initial, List.mem_singleton] at hgu
    subst hgu
    constructor
    · refine h.not_reserved hs (by omega) fun hd => ?_
      obtain ⟨post', hdesc⟩ := h.desc_split
      have hlen := desc_length ps h.exists_page
      have htail := (List.append_inj (hdesc.symm.trans hs) (hlen.trans hd.symm)).2
      have hle : reservedPages (PageAllocator.configured (accepted ps regions) ps).pagesCount ps ≤
          (descRegionOf (accepted ps regions) ps).pageCount := h.reserved.2.2
      rw [(List.cons.inj htail).1] at hle
      have hne := hlast hd
      omega
    · rw [pageSum_next hk]
      exact h.not_reserved hs' hpos' fun hd => absurd (by simpa using hd) hfirst
  obtain ⟨a, live, hreach, g, hgf, hcov, hcov'⟩ := Pages.Reach.exists_joined (L := layout h)
    hr₁.inv (hr₁.count.trans_lt hc) (hr₁.count ▸ hlt) hglue hres
  obtain ⟨s, hrun, hra⟩ := hreach.exists_run hr₁ hc
  exact ⟨s, _, blockOf (layout h) g, hrun, (hra.freeGroup_iff hc).mpr ⟨g, hgf, rfl⟩,
    h.not_oneRegion hra hs hk.symm (Pages.mem_groups.mpr (Or.inr hgf)) hcov hcov'⟩

/-- The groups of all runs belong to one region each exactly when neighbouring regions are told
apart. -/
theorem PageRun.oneRegion_iff (hg : GoodArguments regions ps)
    (hinit : PageAllocator.init regions ps s₀ = .ok (true, s₁)) :
    (∀ s live b, PageRun s₁ s live → FreeGroup s b ∨ b ∈ live → OneRegion s b) ↔
      RegionsApart (accepted ps regions) ps := by
  constructor
  · intro h
    by_contra hnot
    obtain ⟨s, live, b, hrun, hb, hcross⟩ := PageRun.exists_crossed hg hnot hinit
    exact hcross (h s live b hrun (Or.inl hb))
  · intro hap s live b hrun hb
    exact PageRun.oneRegion_of_apart hg hap hinit hrun hb

end Crossing

section Touching

attribute [local instance] lp64

/-- The pages of the two regions are told apart. -/
private theorem turnedRegions_apart : RegionsApart (accepted 256 turnedRegions) 256 := by
  intro pre r r' post hs hget
  have hlen : pre.length = 0 := by
    have h : 2 = (pre ++ r :: r' :: post).length := congrArg List.length hs
    rw [List.length_append, List.length_cons, List.length_cons] at h
    omega
  rw [List.length_eq_zero_iff.mp hlen, List.nil_append] at hs
  have hr : r = (accepted 256 turnedRegions).getD 0 clearRegionInfo := by rw [hs]; rfl
  have hr' : r' = (accepted 256 turnedRegions).getD 1 clearRegionInfo := by rw [hs]; rfl
  rw [hr, hr'] at hget
  exact absurd hget (by decide)

/-- Two regions that touch are told apart when the array names the second one first. -/
theorem PageRun.oneRegion_turned : ∃ s₁,
    PageAllocator.init turnedRegions 256 blankPages = .ok (true, s₁) ∧
      ∀ s live b, PageRun s₁ s live → FreeGroup s b ∨ b ∈ live → OneRegion s b := by
  obtain ⟨s₁, hinit⟩ := turnedRegions_good.init_returns blankPages
    turnedRegions_fitting.pageSize turnedRegions_fitting.entries turnedRegions_fitting.exists_page
  exact ⟨s₁, hinit, (PageRun.oneRegion_iff turnedRegions_good hinit).mpr turnedRegions_apart⟩

end Touching

end Liballocator
