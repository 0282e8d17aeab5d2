import Liballocator.Pages.Properties

/-!
# From addresses to pages

`getPage` looks for the page of an address among the pages of the region that `getRegion` finds.
`Layout.findPage` is the number of that page; when no region ends where a later one begins, it finds
every page by its address (`Fitting.findPage_addr`).
-/

namespace Liballocator

open Program LinkedList Tiling

variable [Platform]

/-- The number of the page that `getPage` finds for an address. -/
def Layout.findPage (L : Layout) (addr : ℕ) : Option ℕ :=
  match L.config.getRegion (alignDown addr L.pageSize) with
  | none => none
  | some idx =>
    let region := L.config.regionsInfo.getD idx clearRegionInfo
    (List.range L.count).find? fun i => region.firstPage ≤ L.pageAt i ∧
      L.pageAt i ≤ region.lastPage ∧ L.addr i = alignDown addr L.pageSize

/-- The records of the regions name pages of the table. -/
structure Layout.Placed (L : Layout) : Prop where
  length_le : L.config.regionsInfo.length ≤ maxRegionsCount
  pages : ∀ region ∈ L.config.regionsInfo, ∃ c e, c ≤ e ∧ e < L.count ∧
    region.firstPage = L.pageAt c ∧ region.lastPage = L.pageAt e

variable {L : Layout} {a : Pages} {s : PageState} {x i j e : ℕ}

/-- The page that is found has the address that is looked for. -/
theorem Layout.findPage_eq_some (h : L.findPage x = some i) :
    i < L.count ∧ L.addr i = alignDown x L.pageSize := by
  unfold Layout.findPage at h
  split at h
  · exact absurd h (by simp)
  · have hp := List.find?_some h
    simp only [decide_eq_true_iff] at hp
    exact ⟨List.mem_range.mp (List.mem_of_find?_eq_some h), hp.2.2⟩

/-- The loop of `getPage` reads the addresses of the pages up to the last one of a region. -/
theorem getPageFrom_spec {m : Mem} {fuel : ℕ} (haddr : ∀ i < L.count, addrAt L m i = L.addr i)
    (he : e < L.count) (hj : j ≤ e + 1) (hfuel : e + 1 - j < fuel) :
    wp (PageAllocator.getPageFrom (L.pageAt e) x fuel (L.pageAt j)) (fun p m' =>
      m' = m ∧ ((∃ i, j ≤ i ∧ i ≤ e ∧ L.addr i = x ∧ p = L.pageAt i) ∨
        p = 0 ∧ ∀ i, j ≤ i → i ≤ e → L.addr i ≠ x)) m := by
  induction fuel generalizing j with
  | zero => omega
  | succ fuel ih =>
    simp only [PageAllocator.getPageFrom, wp_ite, wp_pure, wp_bind, Page.wp_address]
    refine ⟨fun hgt => ⟨trivial, Or.inr ⟨trivial, fun i h₁ h₂ => ?_⟩⟩, fun hle => ?_⟩
    · have := Layout.pageAt_le_pageAt (L := L) (h₁.trans h₂)
      omega
    · have hje : j ≤ e := Layout.pageAt_le_iff.mp (Nat.le_of_not_lt hle)
      have hx : m (L.pageAt j + 2 * wordBytes) = L.addr j := haddr j (by omega)
      have hnext : Page.nextSibling (L.pageAt j) = L.pageAt (j + 1) :=
        Layout.plus_pageAt (by omega)
      rw [hx, hnext]
      refine ⟨Layout.pageAt_ne_zero j, fun heq => ?_, fun hne => ?_⟩
      · exact ⟨trivial, Or.inl ⟨j, le_rfl, hje, heq, rfl⟩⟩
      · apply (ih (j := j + 1) (by omega) (by omega)).mono
        rintro p m' ⟨rfl, ⟨i, h₁, h₂⟩ | ⟨rfl, hnone⟩⟩
        · exact ⟨rfl, Or.inl ⟨i, by omega, h₂⟩⟩
        · refine ⟨rfl, Or.inr ⟨rfl, fun i h₁ h₂ => ?_⟩⟩
          rcases Nat.eq_or_lt_of_le h₁ with rfl | hlt
          · exact hne
          · exact hnone i hlt h₂

/-- The object and the addresses in the table are those of `L`. -/
structure Layout.Holds (L : Layout) (s : PageState) : Prop where
  config : s.self = withLists L.config s.self
  addr : ∀ i < L.count, addrAt L s.mem i = L.addr i

/-- A represented state holds the addresses of the pages. -/
theorem PageRep.holds (hr : PageRep L a s) : L.Holds s :=
  ⟨hr.config, fun i hi => hr.table.addr i (hr.count ▸ hi)⟩

/-- `getPage` of the code finds the page `Layout.findPage`. -/
theorem Layout.Holds.getPage (hr : L.Holds s)
    (hinj : ∀ i < L.count, ∀ j < L.count, L.addr i = L.addr j → i = j) (hp : L.Placed) :
    wp (PageAllocator.getPage x) (fun p s' =>
      p = (match L.findPage x with | none => 0 | some i => L.pageAt i) ∧ s' = s) s := by
  have hself : s.self.pageSize = L.pageSize ∧ s.self.regionsInfo = L.config.regionsInfo := by
    rw [hr.config]
    exact ⟨rfl, rfl⟩
  have hget : ∀ y, s.self.getRegion y = L.config.getRegion y := by
    intro y
    rw [PageAllocator.getRegion, PageAllocator.getRegion, hself.1, hself.2]
  simp only [PageAllocator.getPage, wp_bind, wp_get, hself.1, hget, Layout.findPage]
  cases hreg : L.config.getRegion (alignDown x L.pageSize) with
  | none => exact ⟨0, s, rfl, rfl, rfl⟩
  | some idx =>
    obtain ⟨hidx, -⟩ := List.findIdx?_eq_some_iff_getElem.mp hreg
    have hmem : L.config.regionsInfo.getD idx clearRegionInfo ∈ L.config.regionsInfo := by
      rw [List.getD_eq_getElem _ _ hidx]
      exact List.getElem_mem hidx
    obtain ⟨c, e, hce, he, hfirst, hlast⟩ := hp.pages _ hmem
    simp only [wp_bind, PageAllocator.wp_regionAt, wp_liftMem, hself.2]
    refine ⟨hidx.trans_le hp.length_le, ?_⟩
    rw [hfirst, hlast]
    have hfuel : e + 1 - c < loopBound := by
      have := Layout.count_lt_loopBound (L := L)
      omega
    apply (getPageFrom_spec hr.addr he (by omega) hfuel).mono
    rintro p _ ⟨rfl, hres⟩
    refine ⟨?_, rfl⟩
    simp only [Layout.pageAt_le_iff]
    rcases hres with ⟨i, h₁, h₂, hx, rfl⟩ | ⟨rfl, hnone⟩
    · -- the addresses of pages are different
      cases hf : (List.range L.count).find? fun i =>
          c ≤ i ∧ i ≤ e ∧ L.addr i = alignDown x L.pageSize with
      | none =>
        have := List.find?_eq_none.mp hf i (List.mem_range.mpr (by omega))
        exact absurd (by simpa using ⟨h₁, h₂, hx⟩) this
      | some k =>
        have hk := List.find?_some hf
        simp only [decide_eq_true_iff] at hk
        have hkc := List.mem_range.mp (List.mem_of_find?_eq_some hf)
        have hki : k = i := hinj k hkc i (by omega) (hk.2.2.trans hx.symm)
        simp only [hki]
    · have hf : ((List.range L.count).find? fun i =>
          c ≤ i ∧ i ≤ e ∧ L.addr i = alignDown x L.pageSize) = none := by
        refine List.find?_eq_none.mpr fun k _ hk => ?_
        simp only [decide_eq_true_iff] at hk
        exact hnone k hk.1 hk.2.1 hk.2.2
      rw [hf]

/-- `getPage` finds the page that `findPage` does. -/
theorem PageRep.getPage (hr : PageRep L a s) (hL : L.Sound) (hp : L.Placed) :
    wp (PageAllocator.getPage x) (fun p s' =>
      p = (match L.findPage x with | none => 0 | some i => L.pageAt i) ∧ s' = s) s :=
  hr.holds.getPage (fun _ hi _ hj => hL.addr_inj hi hj) hp

/-! ### The pages of the regions -/

/-- The placed records, one after the other. -/
theorem placeRegions_append {head c : ℕ} {pre post : List RegionInfo} :
    placeRegions head c (pre ++ post) =
      placeRegions head c pre ++ placeRegions head (c + pageSum pre) post := by
  induction pre generalizing c with
  | nil => rfl
  | cons r pre ih =>
    rw [List.cons_append, placeRegions, placeRegions, ih, List.cons_append, pageSum_cons,
      Nat.add_assoc]

/-- No record is lost when the pointers are set. -/
theorem length_placeRegions {head c : ℕ} {infos : List RegionInfo} :
    (placeRegions head c infos).length = infos.length := by
  induction infos generalizing c with
  | nil => rfl
  | cons r rs ih => rw [placeRegions, List.length_cons, List.length_cons, ih]

namespace Fitting

variable {regions : List Region} {ps : ℕ} (h : Fitting regions ps)

include h

/-- The records point to the pages of their regions. -/
theorem placed : (layout h).Placed := by
  constructor
  · have hlen : (layout h).config.regionsInfo.length = (accepted ps regions).length :=
      length_placeRegions
    exact hlen ▸ (List.length_filterMap_le _ _).trans h.entries
  · intro r' hr'
    obtain ⟨pre, r, post, hs, rfl⟩ := exists_of_mem_placeRegions hr'
    have hpos := h.pageCount_pos (region_mem hs)
    have hcount : pageSum pre + (r.pageCount + pageSum post) = (layout h).count := by
      rw [h.layout_count, hs, pageSum_append, pageSum_cons]
    exact ⟨0 + pageSum pre, 0 + pageSum pre + r.pageCount - 1, by omega, by omega, rfl, rfl⟩

/-- The placed record of a region. -/
theorem getD_split {pre post : List RegionInfo} {r : RegionInfo}
    (hs : accepted ps regions = pre ++ r :: post) :
    (layout h).config.regionsInfo.getD pre.length clearRegionInfo =
      r.place (layout h).config.pagesHead (0 + pageSum pre) := by
  have hinfos : (layout h).config.regionsInfo = placeRegions (layout h).config.pagesHead 0
    (pre ++ r :: post) := by rw [← hs]; rfl
  rw [hinfos, placeRegions_append, List.getD_append_right _ _ _ _ length_placeRegions.le,
    length_placeRegions, Nat.sub_self]
  rfl

/-- `getPage` looks for the page of an address among the pages of the region that is found. -/
theorem findPage_iff {pre post : List RegionInfo} {r : RegionInfo}
    (hs : accepted ps regions = pre ++ r :: post)
    (hget : (layout h).config.getRegion (alignDown x ps) = some pre.length) :
    (layout h).findPage x = some i ↔ pageSum pre ≤ i ∧ i < pageSum pre + r.pageCount ∧
      (layout h).addr i = alignDown x ps := by
  have hpos := h.pageCount_pos (region_mem hs)
  have hcount : pageSum pre + r.pageCount ≤ (layout h).count := by
    rw [h.layout_count, hs, pageSum_append, pageSum_cons]
    omega
  have hfirst : (r.place (layout h).config.pagesHead (0 + pageSum pre)).firstPage =
      (layout h).pageAt (0 + pageSum pre) := rfl
  have hlast : (r.place (layout h).config.pagesHead (0 + pageSum pre)).lastPage =
      (layout h).pageAt (0 + pageSum pre + r.pageCount - 1) := rfl
  have hps : (layout h).pageSize = ps := rfl
  simp only [Layout.findPage, hps, hget, h.getD_split hs, hfirst, hlast, Layout.pageAt_le_iff]
  constructor
  · intro hf
    have hi := List.find?_some hf
    simp only [decide_eq_true_iff] at hi
    exact ⟨by omega, by omega, hi.2.2⟩
  · rintro ⟨h₁, h₂, haddr⟩
    have hi : i < (layout h).count := by omega
    cases hf : (List.range (layout h).count).find? _ with
    | none =>
      have hnot := List.find?_eq_none.mp hf i (List.mem_range.mpr hi)
      exact absurd (decide_eq_true ⟨by omega, by omega, haddr⟩) hnot
    | some j =>
      have hj := List.find?_some hf
      simp only [decide_eq_true_iff] at hj
      rw [h.addr_inj (List.mem_range.mp (List.mem_of_find?_eq_some hf)) hi
        (hj.2.2.trans haddr.symm)]

/-- The address of a page is rounded down to itself. -/
theorem alignDown_addr (hi : i < (layout h).count) :
    alignDown ((layout h).addr i) ps = (layout h).addr i := by
  refine alignDown_of_dvd h.pageSize ?_ (h.addr_dvd hi)
  have := h.addr_add_lt hi
  omega

/-- When no region is masked, every page is found by the addresses in it. -/
theorem findPage_unmasked (hu : Unmasked (accepted ps regions)) (hi : i < (layout h).count)
    (hx : alignDown x ps = (layout h).addr i) : (layout h).findPage x = some i := by
  obtain ⟨pre, r, post, k, hs, rfl, hk⟩ := h.exists_split hi
  exact (h.findPage_iff hs (hx ▸ h.getRegion_own hu hs hk)).mpr ⟨by omega, by omega, hx.symm⟩

/-- A page is found at its address when no region is masked. -/
theorem findPage_addr (hu : Unmasked (accepted ps regions)) (hi : i < (layout h).count) :
    (layout h).findPage ((layout h).addr i) = some i :=
  h.findPage_unmasked hu hi (h.alignDown_addr hi)

/-- The first page of a masked region is not found. -/
theorem findPage_masked {pre post : List RegionInfo} {q r : RegionInfo}
    (hs : accepted ps regions = pre ++ r :: post) (hq : q ∈ pre)
    (he : q.alignedEnd = r.alignedStart) : (layout h).findPage r.alignedStart = none := by
  have hpos := h.pageCount_pos (region_mem hs)
  have haddr := h.addr_split hs hpos
  rw [Nat.zero_mul, Nat.add_zero, Nat.add_zero] at haddr
  have hlt : pageSum pre < (layout h).count := by
    rw [h.layout_count, hs, pageSum_append, pageSum_cons]
    omega
  have halign := h.alignDown_addr hlt
  rw [haddr] at halign
  -- a region in front of it is found
  have hqr : (decide (q.alignedStart ≤ r.alignedStart) && decide (q.alignedEnd ≥ r.alignedStart)) =
      true := by
    have hmem : q ∈ accepted ps regions := by
      rw [hs]
      exact List.mem_append_left _ hq
    have := h.alignedEnd_eq hmem
    rw [Bool.and_eq_true, decide_eq_true_iff, decide_eq_true_iff]
    omega
  obtain ⟨i, hi⟩ : ∃ i, pre.findIdx? (fun q =>
      decide (q.alignedStart ≤ r.alignedStart) && decide (q.alignedEnd ≥ r.alignedStart)) = some i :=
    Option.isSome_iff_exists.mp (List.findIdx?_isSome.trans (List.any_eq_true.mpr ⟨q, hq, hqr⟩))
  have hget := h.getRegion_eq halign
  rw [hs, List.findIdx?_append, hi, Option.some_or] at hget
  obtain ⟨hlen, -, -⟩ := List.findIdx?_eq_some_iff_getElem.mp hi
  have hs' : accepted ps regions =
      pre.take i ++ pre[i] :: (pre.drop (i + 1) ++ r :: post) := by
    rw [hs, ← List.cons_append, ← List.append_assoc, ← List.drop_eq_getElem_cons hlen,
      List.take_append_drop]
  have hlen' : (pre.take i).length = i := List.length_take_of_le hlen.le
  rw [Option.eq_none_iff_forall_ne_some]
  intro j hj
  -- a page with the address would be the first one of `r`, which is none of the pages in front
  have hj := (h.findPage_iff hs' (by rw [halign, hget, hlen'])).mp hj
  have hpre : pageSum (pre.take i) + pre[i].pageCount ≤ pageSum pre := by
    have hsplit : pre = pre.take i ++ pre[i] :: pre.drop (i + 1) := by
      rw [← List.drop_eq_getElem_cons hlen, List.take_append_drop]
    have := congrArg pageSum hsplit
    rw [pageSum_append, pageSum_cons] at this
    omega
  have := h.addr_inj (by omega) hlt (hj.2.2.trans (halign.trans haddr.symm))
  omega

end Fitting

end Liballocator
