import Liballocator.Pages.Ready

/-!
# The groups after `init`

The only used group is the one of the reserved pages, and every group consists of pages of one
region.  When no regions touch, `getRegion` tells the regions of any two neighbouring pages apart
(`glued_iff`), and the free groups are coalesced from the beginning.
-/

namespace Liballocator

open Program LinkedList Tiling

variable [Platform]

/-! ### Adding regions -/

namespace Pages

variable {d n i : ℕ} {rest : List RegionInfo} {a : Pages}

/-- The reserved pages of every region are pages of it. -/
def Reservable (d n i : ℕ) (rest : List RegionInfo) : Prop :=
  ∀ pre r post, rest = pre ++ r :: post → i + pre.length = d → n ≤ r.pageCount

omit [Platform] in
theorem Reservable.head {r : RegionInfo} {rs : List RegionInfo}
    (h : Reservable d n i (r :: rs)) : reservedAt d n i ≤ r.pageCount := by
  unfold reservedAt
  split_ifs with hi
  · exact h [] r rs rfl hi
  · exact Nat.zero_le _

omit [Platform] in
theorem Reservable.tail {r : RegionInfo} {rs : List RegionInfo}
    (h : Reservable d n i (r :: rs)) : Reservable d n (i + 1) rs := by
  rintro pre r' post rfl hd
  exact h (r :: pre) r' post rfl (by rw [List.length_cons]; omega)

omit [Platform] in
/-- Only the region with the table contributes a used group. -/
theorem used_addRegions (hr : Reservable d n i rest) (hn : 0 < n) :
    (addRegions d n i rest a).used =
      if i ≤ d ∧ d < i + rest.length then ⟨a.count + pageSum (rest.take (d - i)), n⟩ :: a.used
      else a.used := by
  induction rest generalizing i a with
  | nil => rw [if_neg (by simp only [List.length_nil]; omega)]; rfl
  | cons r rs ih =>
    rw [addRegions, ih hr.tail, used_addRegion hr.head, count_addRegion, List.length_cons]
    by_cases hid : i = d
    · subst hid
      have hres : reservedAt i n i = n := if_pos rfl
      rw [hres, if_neg hn.ne', if_neg (show ¬(i + 1 ≤ i ∧ i < i + 1 + rs.length) by omega),
        if_pos (by omega), Nat.sub_self]
      simp
    · have hres : reservedAt d n i = 0 := if_neg hid
      rw [hres, if_pos rfl]
      by_cases hlt : i + 1 ≤ d ∧ d < i + 1 + rs.length
      · rw [if_pos hlt, if_pos (by omega), show d - i = d - (i + 1) + 1 by omega,
          List.take_succ_cons, pageSum_cons, Nat.add_assoc]
      · rw [if_neg hlt, if_neg (by omega)]

omit [Platform] in
/-- The free groups after a further region: a region without pages left contributes none. -/
theorem mem_freeGroups_addRegion {size : ℕ} (hpos : 0 < size) (hn : n ≤ size) {g : Group} :
    g ∈ (a.addRegion size n).freeGroups ↔
      g ∈ a.freeGroups ∨ n < size ∧ g = ⟨a.count + n, size - n⟩ := by
  rw [(freeGroups_addRegion (a := a) hn).mem_iff]
  split_ifs with he
  · exact ⟨Or.inl, fun h => h.resolve_right fun h => absurd h.1 (by omega)⟩
  · rw [List.mem_cons, or_comm, and_iff_right (show n < size by omega)]

omit [Platform] in
/-- The free groups of the result: those from before and the rests of the regions. -/
theorem mem_freeGroups_addRegions (hr : Reservable d n i rest)
    (hpos : ∀ r ∈ rest, 0 < r.pageCount) {g : Group} :
    g ∈ (addRegions d n i rest a).freeGroups ↔
      g ∈ a.freeGroups ∨ ∃ pre r post k, rest = pre ++ r :: post ∧
        k = reservedAt d n (i + pre.length) ∧ k < r.pageCount ∧
        g = ⟨a.count + pageSum pre + k, r.pageCount - k⟩ := by
  induction rest generalizing i a with
  | nil =>
    refine ⟨Or.inl, ?_⟩
    rintro (hg | ⟨pre, r, post, k, hs, -⟩)
    · exact hg
    · exact absurd hs (by simp)
  | cons r rs ih =>
    rw [addRegions, ih hr.tail fun r' hr' => hpos r' (List.mem_cons_of_mem _ hr'),
      mem_freeGroups_addRegion (hpos r List.mem_cons_self) hr.head, count_addRegion]
    constructor
    · rintro ((hg | ⟨hlt, rfl⟩) | ⟨pre, r', post, k, rfl, rfl, hk, rfl⟩)
      · exact Or.inl hg
      · exact Or.inr ⟨[], r, rs, _, rfl, rfl, hlt, rfl⟩
      · refine Or.inr ⟨r :: pre, r', post, _, rfl, ?_, hk, ?_⟩
        · rw [List.length_cons, Nat.add_right_comm, Nat.add_assoc]
        · rw [pageSum_cons, Nat.add_assoc a.count]
    · rintro (hg | ⟨pre, r', post, k, hs, rfl, hk, rfl⟩)
      · exact Or.inl (Or.inl hg)
      · cases pre with
        | nil =>
          obtain ⟨rfl, -⟩ := List.cons.inj hs
          exact Or.inl (Or.inr ⟨hk, rfl⟩)
        | cons r₀ pre =>
          obtain ⟨rfl, rfl⟩ := List.cons.inj hs
          have hidx : i + (r :: pre).length = i + 1 + pre.length := by
            rw [List.length_cons, Nat.add_right_comm, Nat.add_assoc]
          rw [hidx] at hk ⊢
          refine Or.inr ⟨pre, r', post, _, rfl, rfl, hk, ?_⟩
          rw [pageSum_cons, ← Nat.add_assoc a.count]

end Pages

/-! ### The initial groups -/

/-- The group of the pages that hold the table. -/
def reservedGroup (infos : List RegionInfo) (ps : ℕ) : Group :=
  let object := PageAllocator.configured infos ps
  ⟨pageSum (infos.take object.descRegionIdx), reservedPages object.pagesCount ps⟩

/-- No region ends where a region behind it in the list begins. -/
def Unmasked (infos : List RegionInfo) : Prop :=
  infos.Pairwise fun q r => q.alignedEnd ≠ r.alignedStart

namespace Fitting

variable {regions : List Region} {ps : ℕ} (h : Fitting regions ps)

include h

/-- The place of the region with the table. -/
theorem desc_split : ∃ post, accepted ps regions =
    (accepted ps regions).take (PageAllocator.configured (accepted ps regions) ps).descRegionIdx ++
      descRegionOf (accepted ps regions) ps :: post :=
  Liballocator.desc_split ps h.exists_page

/-- The reserved pages are the first ones of the region with the table. -/
theorem reserved : HoldsTable (layout h) (reservedGroup (accepted ps regions) ps).first
      ((reservedGroup (accepted ps regions) ps).first +
        (descRegionOf (accepted ps regions) ps).pageCount)
      (reservedGroup (accepted ps regions) ps).size ∧
    0 < (reservedGroup (accepted ps regions) ps).size ∧
    (reservedGroup (accepted ps regions) ps).size ≤
      (descRegionOf (accepted ps regions) ps).pageCount := by
  obtain ⟨post, hs⟩ := h.desc_split
  exact h.holdsTable hs (desc_length ps h.exists_page)

theorem reservable : Pages.Reservable
    (PageAllocator.configured (accepted ps regions) ps).descRegionIdx
    (reservedPages (layout h).count ps) 0 (accepted ps regions) :=
  fun _ _ _ hs hd => (h.holdsTable hs (by simpa using hd)).2.2

/-- The only used group after `init` is the one of the reserved pages. -/
theorem used_initial : (Pages.initial (accepted ps regions) ps).used =
    [reservedGroup (accepted ps regions) ps] := by
  have hlt := descRegionIdx_lt ps h.exists_page
  apply (Pages.used_addRegions h.reservable h.reserved.2.1).trans
  rw [if_pos ⟨Nat.zero_le _, by omega⟩, Pages.empty, Nat.sub_zero, Nat.zero_add]
  rfl

/-- The free groups after `init` are the rests of the regions. -/
theorem mem_freeGroups_initial {g : Group} :
    g ∈ (Pages.initial (accepted ps regions) ps).freeGroups ↔
      ∃ pre r post k, accepted ps regions = pre ++ r :: post ∧
        k = reservedAt (PageAllocator.configured (accepted ps regions) ps).descRegionIdx
          (reservedPages (layout h).count ps) pre.length ∧
        k < r.pageCount ∧ g = ⟨pageSum pre + k, r.pageCount - k⟩ := by
  have hempty : g ∉ Pages.empty.freeGroups := by simp [Pages.freeGroups, Pages.empty]
  refine (Pages.mem_freeGroups_addRegions h.reservable fun r hr => h.pageCount_pos hr).trans ?_
  rw [or_iff_right hempty]
  simp only [Pages.empty, Nat.zero_add]

/-- Every free group after `init` is the rest of a region. -/
theorem free_initial {g : Group}
    (hg : g ∈ (Pages.initial (accepted ps regions) ps).freeGroups) :
    ∃ pre r post k, accepted ps regions = pre ++ r :: post ∧ k ≤ r.pageCount ∧
      g = ⟨pageSum pre + k, r.pageCount - k⟩ := by
  obtain ⟨pre, r, post, k, hs, -, hk, rfl⟩ := h.mem_freeGroups_initial.mp hg
  exact ⟨pre, r, post, k, hs, hk.le, rfl⟩

/-! ### Regions that do not touch -/

omit h in
/-- Regions that do not touch are not masked. -/
theorem unmasked (h : Fitting regions ps) (hu : Untouching regions) :
    Unmasked (accepted ps regions) :=
  (h.valid.pairwise_untouching h.pageSize hu).imp And.left

/-- When no region is masked, `getRegion` finds the region of a page. -/
theorem getRegion_own (hu : Unmasked (accepted ps regions)) {pre post : List RegionInfo}
    {r : RegionInfo} {k : ℕ} (hs : accepted ps regions = pre ++ r :: post)
    (hk : k < r.pageCount) :
    (layout h).config.getRegion ((layout h).addr (pageSum pre + k)) = some pre.length := by
  rw [h.addr_split hs hk]
  rcases h.getRegion_page hs hk with he | ⟨-, i, q, -, hi, hq, hqe⟩
  · exact he
  · rw [Unmasked, hs] at hu
    rw [hs, List.getElem?_append_left hi] at hq
    have hmem := List.mem_of_getElem? hq
    exact absurd hqe ((List.pairwise_append.mp hu).2.2 q hmem r List.mem_cons_self)

/-- When no regions touch, `getRegion` takes exactly the pages of one region for such. -/
theorem glued_iff (hu : Untouching regions) {i : ℕ} (hi : i + 1 < (layout h).count) :
    (layout h).Glued i ↔ (layout h).SameRegion i := by
  have key : ∀ j < (layout h).count, (layout h).config.getRegion ((layout h).addr j) =
      some (regionOf (layout h).config.regionsInfo j) := by
    intro j hj
    rw [h.layout_count] at hj
    obtain ⟨pre, r, post, k, hs, rfl, hk⟩ := exists_region hj
    have hreg : regionOf (layout h).config.regionsInfo (pageSum pre + k) = pre.length := by
      apply regionOf_placeRegions.trans
      rw [hs, regionOf_append hk]
    rw [hreg, h.getRegion_own (h.unmasked hu) hs hk]
  rw [Layout.Glued, Layout.SameRegion, key i (by omega), key (i + 1) hi, Option.some.injEq]

/-- The region of a page. -/
theorem regionOf_split {pre post : List RegionInfo} {r : RegionInfo} {k : ℕ}
    (hs : accepted ps regions = pre ++ r :: post) (hk : k < r.pageCount) :
    regionOf (layout h).config.regionsInfo (pageSum pre + k) = pre.length := by
  apply regionOf_placeRegions.trans
  rw [hs, regionOf_append hk]

/-- The free groups after `init` consist of pages of one region. -/
theorem uncut_initial {g : Group}
    (hg : g ∈ (Pages.initial (accepted ps regions) ps).freeGroups) :
    Pages.Uncut (layout h).SameRegion g := by
  obtain ⟨pre, r, post, k, hs, hk, rfl⟩ := h.free_initial hg
  rintro i ⟨h₁, h₂⟩ ⟨h₃, h₄⟩
  simp only at h₁ h₂ h₃ h₄
  obtain ⟨j, rfl⟩ := Nat.exists_eq_add_of_le (show pageSum pre ≤ i by omega)
  rw [Layout.SameRegion, Nat.add_assoc, h.regionOf_split hs (by omega),
    h.regionOf_split hs (by omega)]

/-- When no regions touch, the free groups after `init` are coalesced. -/
theorem coalesced_initial (hu : Untouching regions)
    (hi : (Pages.initial (accepted ps regions) ps).Inv)
    (hc : (Pages.initial (accepted ps regions) ps).count = (layout h).count) :
    (Pages.initial (accepted ps regions) ps).Coalesced (layout h) := by
  have hstop : ∀ g ∈ (Pages.initial (accepted ps regions) ps).freeGroups,
      g.first + g.size ≤ (layout h).count :=
    fun g hg => hc ▸ hi.tiles.stop_le (Pages.mem_groups.mpr (Or.inr hg))
  refine hi.coalesced_iff.mpr ⟨fun g hg i h₁ h₂ => ?_, fun g hg g' hg' hadj hglue => ?_⟩
  · have hlt := hstop g hg
    have hcov := h₂.2
    exact (h.glued_iff hu (by omega)).mpr (h.uncut_initial hg i h₁ h₂)
  · -- the end of a group is the end of its region
    have hpos := hi.tiles.size_pos (Pages.mem_groups.mpr (Or.inr hg'))
    have hlt := hstop g' hg'
    obtain ⟨pre, r, post, k, hs, hk, rfl⟩ := h.free_initial hg
    obtain ⟨pre', r', post', k', hs', hk', rfl⟩ := h.free_initial hg'
    simp only at hadj hglue hpos hlt
    have hrpos := h.pageCount_pos (region_mem hs)
    have hsame := (h.glued_iff hu (by omega)).mp hglue
    have hlast : pageSum pre' + k' - 1 = pageSum pre + (r.pageCount - 1) := by omega
    have hnext : pageSum pre' + k' - 1 + 1 = pageSum pre' + k' := by omega
    rw [Layout.SameRegion, hnext, hlast] at hsame
    obtain ⟨rfl, rfl⟩ := eq_of_regionOf hs hs' (by omega) (by omega)
      (regionOf_placeRegions.symm.trans (hsame.trans regionOf_placeRegions))
    omega

end Fitting

end Liballocator
