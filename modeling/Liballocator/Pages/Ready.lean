import Liballocator.Pages.Layout

/-!
# The initialised page allocator

`Pages.addRegion` is the contribution of one region to the groups, and `Pages.initial` the groups
after `init`: the reserved pages, and one free group for the rest of each region.  `Fitting`
collects what the arguments of `init` must satisfy; for such arguments `layout` is the table that
`init` sets up and `init_spec` shows that `init` succeeds in a state that represents
`Pages.initial`.
-/

namespace Liballocator

open Program LinkedList Tiling

variable [Platform]

/-! ### Adding a region to the groups -/

namespace Pages

/-- The groups with the `size` pages of a further region, the first `n` of them reserved. -/
def addRegion (a : Pages) (size n : ℕ) : Pages :=
  let a' : Pages := { a with count := a.count + size, used := ⟨a.count, size⟩ :: a.used }
  if n = 0 then a'.addGroup ⟨a.count, size⟩
  else if n = size then a'
  else (a'.splitGroup ⟨a.count, size⟩ n).addGroup ⟨a.count + n, size - n⟩

variable {a : Pages} {size n : ℕ}

omit [Platform] in
/-- The pages of the region are added. -/
@[simp] theorem count_addRegion : (a.addRegion size n).count = a.count + size := by
  unfold addRegion
  split_ifs <;> rfl

omit [Platform] in
/-- The pages for the table are in use, and no others. -/
theorem used_addRegion (hn : n ≤ size) :
    (a.addRegion size n).used = if n = 0 then a.used else ⟨a.count, n⟩ :: a.used := by
  unfold addRegion
  split_ifs with h0 he
  · simp [Pages.addGroup]
  · rw [he]
  · have hne : (⟨a.count, n⟩ : Group) ≠ ⟨a.count + n, size - n⟩ := by
      intro e
      injection e with e₁ e₂
      omega
    simp [Pages.addGroup, Pages.splitGroup, hne]

omit [Platform] in
/-- The lists with the group of the region. -/
theorem listedGroups_addRegion (hlt : size < 2 ^ 21) :
    (a.addRegion size n).listedGroups = regionLists a.listedGroups a.count size n := by
  have hcut : ∀ i k, k ≤ size → cut ⟨i, k⟩ = ⟨i, k⟩ := fun i k hk => cut_eq (by simp only; omega)
  rw [regionLists, Nat.mod_eq_of_lt hlt]
  unfold addRegion
  split_ifs with h0 hn he he he
  · omega
  · subst h0
    rw [listedGroups_addGroup, hcut _ _ le_rfl]
    rfl
  · rfl
  · omega
  · omega
  · rw [listedGroups_addGroup, hcut _ _ (Nat.sub_le _ _)]
    rfl

omit [Platform] in
/-- The tiling with the pages of a further region as one group. -/
private theorem Inv.append (hi : a.Inv) (hpos : 0 < size) :
    Pages.Inv { a with count := a.count + size, used := ⟨a.count, size⟩ :: a.used } :=
  ⟨hi.tiles.append hpos, hi.listed⟩

omit [Platform] in
/-- A further region keeps the invariant. -/
theorem Inv.addRegion (hi : a.Inv) (hpos : 0 < size) (hn : n ≤ size) :
    (a.addRegion size n).Inv := by
  have hi' := hi.append hpos
  unfold Pages.addRegion
  split_ifs with h0 he
  · exact hi'.addGroup List.mem_cons_self
  · exact hi'
  · exact (hi'.splitGroup List.mem_cons_self (by omega) (by simp only; omega)).addGroup
      (by simp [Pages.splitGroup])

omit [Platform] in
/-- The pages of the region behind the table are one free group. -/
theorem freeGroups_addRegion (hn : n ≤ size) :
    (a.addRegion size n).freeGroups.Perm
      (if n = size ∧ n ≠ 0 then a.freeGroups else ⟨a.count + n, size - n⟩ :: a.freeGroups) := by
  unfold addRegion
  split_ifs with h0 he h h h
  · omega
  · subst h0
    exact freeGroups_addGroup
  · exact List.Perm.refl _
  · omega
  · omega
  · exact freeGroups_addGroup

end Pages

section Representation

variable {L : Layout} {a : Pages} {s s' : PageState} {size n : ℕ}

omit [Platform] in
/-- The tags of a region with few enough pages are those of its groups. -/
theorem regionTags_tagged {c : ℕ} (hpos : 0 < size) (hn : n ≤ size) (hlt : size < 2 ^ 21) :
    (n ≠ 0 → Tagged (regionTags c size n) ⟨c, n⟩) ∧
      (n ≠ size → Tagged (regionTags c size n) ⟨c + n, size - n⟩) := by
  have hbase : Tagged (setTags (fun _ => 0) ⟨c, size⟩ size) ⟨c, size⟩ := by
    have hcut : cut ⟨c, size⟩ = ⟨c, size⟩ := cut_eq hlt
    refine ⟨?_, fun i h₁ h₂ => ?_, fun _ => ?_⟩
    · rw [hcut, setTags_apply, if_pos (Or.inr rfl)]
    · rw [hcut] at h₂
      simp only at h₁ h₂
      rw [setTags_apply, if_neg (by simp only; omega)]
    · rw [setTags_apply, if_pos (Or.inl rfl)]
  simp only [regionTags, Nat.mod_eq_of_lt hlt]
  by_cases h0 : n = 0
  · subst h0
    simpa using fun _ => hbase
  · by_cases he : n = size
    · subst he
      simpa using fun _ => hbase
    · have := hbase.split (Nat.pos_of_ne_zero h0) (show n < (cut ⟨c, size⟩).size by
        rw [cut_eq hlt]
        simp only
        omega)
      rw [cut_eq (g := ⟨c, size⟩) hlt] at this
      simp only [h0, he, or_self, if_false]
      exact ⟨fun _ => this.1, fun _ => this.2⟩

/-- A region step leads from a representation to one of the groups with that region. -/
theorem TableRep.addRegion (hr : TableRep L a s) (hi : a.Inv) (hpos : 0 < size) (hn : n ≤ size)
    (hsize : size < 2 ^ 21) (hle : a.count + size ≤ L.count)
    (hst : RegionStep L a.count (a.count + size) n (size - n) a.listedGroups
      (regionLists a.listedGroups a.count size n) (regionTags a.count size n) s s') :
    TableRep L (a.addRegion size n) s' := by
  have hperm := Pages.freeGroups_addRegion (a := a) hn
  have hlisted := Pages.listedGroups_addRegion (a := a) (n := n) hsize
  obtain ⟨htag₁, htag₂⟩ := regionTags_tagged (c := a.count) hpos hn hsize
  have hold : ∀ h ∈ a.groups, ∀ i, h.Covers i → i < a.count :=
    fun h hh i hcov => hi.tiles.lt_of_covers hh hcov
  -- the groups of the region
  have hnewUsed : ∀ h ∈ (a.addRegion size n).used, h ∈ a.used ∨ n ≠ 0 ∧ h = ⟨a.count, n⟩ := by
    intro h hh
    rw [Pages.used_addRegion hn] at hh
    split_ifs at hh with h0
    · exact Or.inl hh
    · exact (List.mem_cons.mp hh).symm.imp id fun e => ⟨h0, e⟩
  have hnewFree : ∀ h ∈ (a.addRegion size n).freeGroups,
      h ∈ a.freeGroups ∨ n ≠ size ∧ h = ⟨a.count + n, size - n⟩ := by
    intro h hh
    have hh := hperm.mem_iff.mp hh
    split_ifs at hh with he
    · exact Or.inl hh
    · exact (List.mem_cons.mp hh).symm.imp id fun e => ⟨by omega, e⟩
  refine ⟨?_, fun i hi' => ?_, fun i him => ?_, fun i hi' hf => ?_, fun h hh => ?_,
    fun h hh i hcov => ?_, fun h hh i hcov => ?_⟩
  · -- the counter
    have hfree := hi.freeCount_le
    have hcount := Layout.count_lt_loopBound (L := L)
    unfold loopBound at hcount
    have hcut : cut ⟨a.count + n, size - n⟩ = ⟨a.count + n, size - n⟩ :=
      cut_eq (by simp only; omega)
    have hsum : (a.addRegion size n).freeCount = a.freeCount + (size - n) := by
      rw [Pages.freeCount, (hperm.map _).sum_eq]
      split_ifs with he
      · rw [he.1, Nat.sub_self]
        rfl
      · rw [List.map_cons, List.sum_cons, hcut, Nat.add_comm]
        rfl
    rw [hst.counter, hr.freeCount, Word.add_eq (by omega), hsum]
  · rw [Pages.count_addRegion] at hi'
    by_cases hlo : i < a.count
    · exact (hst.oldAddr i hlo).trans (hr.addr i hlo)
    · exact hst.addr i (by omega) hi'
  · have hl := hst.listed.lists i him
    rw [← hlisted, nodes_listedGroups] at hl
    exact hl
  · rw [Pages.count_addRegion] at hi'
    have hfresh := Pages.fresh_iff.mpr hf
    rw [hlisted] at hfresh
    by_cases hlo : i < a.count
    · have hfold : ∀ h ∈ a.freeGroups, h.first ≠ i := by
        intro h hh
        refine hf h (hperm.mem_iff.mpr ?_)
        split_ifs
        · exact hh
        · exact List.mem_cons_of_mem _ hh
      have ho := hst.oldLinks i hlo (Pages.fresh_iff.mpr hfold)
      have hu := hr.unlinked i hlo hfold
      exact ⟨ho.1.trans hu.1, ho.2.trans hu.2⟩
    · exact hst.links i (by omega) hi' hfresh
  · have key : h ∈ a.groups ∨ n ≠ 0 ∧ h = ⟨a.count, n⟩ ∨
        n ≠ size ∧ h = ⟨a.count + n, size - n⟩ := by
      rcases Pages.mem_groups.mp hh with hh | hh
      · exact (hnewUsed h hh).imp (fun hu => Pages.mem_groups.mpr (Or.inl hu)) Or.inl
      · exact (hnewFree h hh).imp (fun hu => Pages.mem_groups.mpr (Or.inr hu)) Or.inr
    rcases key with hh | ⟨h0, rfl⟩ | ⟨he, rfl⟩
    · exact (hr.tags h hh).congr (hi.tiles.size_pos hh) fun i hcov =>
        hst.oldTag i (hold h hh i hcov)
    · refine (htag₁ h0).congr (Nat.pos_of_ne_zero h0) fun i hcov => hst.tag i hcov.1 ?_
      have h₂ := hcov.2
      simp only at h₂
      omega
    · apply (htag₂ he).congr (by simp only; omega)
      intro i hcov
      obtain ⟨h₁, h₂⟩ := hcov
      simp only at h₁ h₂
      exact hst.tag i (by omega) (by omega)
  · rcases hnewUsed h hh with hh | ⟨h0, rfl⟩
    · rw [hst.oldUsed i (hold h (Pages.mem_groups.mpr (Or.inl hh)) i hcov)]
      exact hr.used h hh i hcov
    · obtain ⟨h₁, h₂⟩ := hcov
      simp only at h₁ h₂
      rw [hst.used i h₁ (by omega), decide_eq_true h₂]
  · rcases hnewFree h hh with hh | ⟨he, rfl⟩
    · rw [hst.oldUsed i (hold h (Pages.mem_groups.mpr (Or.inr hh)) i hcov)]
      exact hr.free h hh i hcov
    · obtain ⟨h₁, h₂⟩ := hcov
      simp only at h₁ h₂
      rw [hst.used i (by omega) (by omega), decide_eq_false (by omega),
        cut_eq (by simp only; omega), decide_eq_false (by simp only; omega)]

end Representation

/-! ### The groups after `init` -/

namespace Pages

/-- The groups with the pages of further regions, from region number `i` on; the first `n` pages of
region number `d` are reserved. -/
def addRegions (d n : ℕ) : (i : ℕ) → List RegionInfo → Pages → Pages
  | _, [], a => a
  | i, region :: regions, a =>
    addRegions d n (i + 1) regions (a.addRegion region.pageCount (reservedAt d n i))

/-- No pages at all. -/
def empty : Pages := { count := 0, used := [], free := fun _ => [] }

/-- The groups after `init` with the records `infos`. -/
def initial (infos : List RegionInfo) (ps : ℕ) : Pages :=
  let object := PageAllocator.configured infos ps
  addRegions object.descRegionIdx (reservedPages object.pagesCount ps) 0 infos empty

end Pages

omit [Platform] in
/-- The invariant holds without any pages. -/
theorem Pages.inv_empty : Pages.empty.Inv := by
  refine ⟨?_, fun i g hg => absurd hg List.not_mem_nil⟩
  have hnil : Pages.empty.groups = [] := by simp [Pages.groups, Pages.freeGroups, Pages.empty]
  rw [hnil]
  exact tiles_nil

/-- An object with empty lists represents no pages at all. -/
theorem TableRep.empty {L : Layout} {s : PageState} (hl : s.self.freeGroupLists = fun _ => 0)
    (hc : s.self.freePagesCount = 0) : TableRep L Pages.empty s := by
  have hnone : Pages.empty.freeGroups = [] := by simp [Pages.freeGroups, Pages.empty]
  have hgroups : Pages.empty.groups = [] := by rw [Pages.groups, hnone]; rfl
  refine ⟨by rw [hc, Pages.freeCount, hnone]; rfl, fun i hi => absurd hi (Nat.not_lt_zero i),
    fun i _ => ?_, fun i hi => absurd hi (Nat.not_lt_zero i), fun h hh => ?_, fun h hh => ?_,
    fun h hh => ?_⟩
  · rw [hl]
    exact isList_nil_iff.mpr rfl
  · rw [hgroups] at hh
    exact absurd hh List.not_mem_nil
  · exact absurd hh List.not_mem_nil
  · rw [hnone] at hh
    exact absurd hh List.not_mem_nil

/-- The region with the table among the others. -/
theorem descRegionOf_eq {infos pre post : List RegionInfo} {r : RegionInfo} {ps : ℕ}
    (hs : infos = pre ++ r :: post)
    (hd : pre.length = (PageAllocator.configured infos ps).descRegionIdx) :
    descRegionOf infos ps = r := by
  rw [descRegionOf, ← hd, List.getD_eq_getElem?_getD]
  simp [hs]

/-- The place of the region with the table. -/
theorem desc_split {infos : List RegionInfo} (ps : ℕ) (hne : infos ≠ []) : ∃ post,
    infos = infos.take (PageAllocator.configured infos ps).descRegionIdx ++
      descRegionOf infos ps :: post := by
  have hlt := descRegionIdx_lt ps hne
  refine ⟨infos.drop ((PageAllocator.configured infos ps).descRegionIdx + 1), ?_⟩
  rw [descRegionOf, List.getD_eq_getElem _ _ hlt, ← List.drop_eq_getElem_cons hlt,
    List.take_append_drop]

/-- The regions in front of the one with the table. -/
theorem desc_length {infos : List RegionInfo} (ps : ℕ) (hne : infos ≠ []) :
    (infos.take (PageAllocator.configured infos ps).descRegionIdx).length =
      (PageAllocator.configured infos ps).descRegionIdx := by
  rw [List.length_take, Nat.min_eq_left (descRegionIdx_lt ps hne).le]

/-- Number of the pages of its region that the table covers. -/
def tablePages (infos : List RegionInfo) (ps : ℕ) : ℕ :=
  min (reservedPages (pageSum infos) ps) (descRegionOf infos ps).pageCount

namespace Addressable

variable {regions : List Region} {ps : ℕ}

/-- The region with the table in front of its first pages. -/
theorem holdsTable (h : Addressable regions ps) {pre post : List RegionInfo} {r : RegionInfo}
    (hs : accepted ps regions = pre ++ r :: post)
    (hd : pre.length = (PageAllocator.configured (accepted ps regions) ps).descRegionIdx) :
    HoldsTable h.layout (pageSum pre) (pageSum pre + r.pageCount)
        (tablePages (accepted ps regions) ps) ∧
      0 < tablePages (accepted ps regions) ps ∧
      tablePages (accepted ps regions) ps ≤ r.pageCount := by
  have hr := descRegionOf_eq hs hd
  have hmem : r ∈ accepted ps regions := hr ▸ descRegionOf_mem ps h.exists_page
  have hcount := h.layout_count
  have hps := h.pageSize.pos
  have hpos : 0 < h.layout.count * sizeofPage :=
    Nat.mul_pos h.layout.count_pos Layout.sizeofPage_pos
  have hend : h.layout.pageAt h.layout.count =
      r.alignedStart + h.layout.count * sizeofPage := by
    rw [← hr]
    rfl
  have hiff : ∀ k, reservedPages h.layout.count ps ≤ k ↔
      h.layout.count * sizeofPage ≤ k * ps := fun k => roundUp_le_iff hps
  have hregion := h.valid.pageCount_pos h.pageSize hmem
  have hreserved : 0 < reservedPages h.layout.count ps := by
    have := (not_congr (hiff 0)).mpr (by omega)
    omega
  have htable : tablePages (accepted ps regions) ps =
      min (reservedPages h.layout.count ps) r.pageCount := by
    rw [tablePages, hr, hcount]
  rw [htable]
  have hle := min_le_right (reservedPages h.layout.count ps) r.pageCount
  have hle' := min_le_left (reservedPages h.layout.count ps) r.pageCount
  refine ⟨⟨Nat.add_le_add_left hle _, fun i h₁ h₂ => ?_, fun hlt => ?_⟩,
    lt_min hreserved hregion, hle⟩
  · obtain ⟨k, rfl⟩ := Nat.exists_eq_add_of_le h₁
    rw [h.addr_split hs (by omega), hend]
    have := (not_congr (hiff k)).mp (by omega)
    omega
  · -- the region has pages behind the table
    have hmin : min (reservedPages h.layout.count ps) r.pageCount =
        reservedPages h.layout.count ps := min_eq_left (by omega)
    rw [h.addr_split hs (by omega), hend, hmin]
    have := (hiff _).mp (le_refl (reservedPages h.layout.count ps))
    omega

/-- The records of the regions in the table. -/
theorem regionsAt (h : Addressable regions ps) : RegionsAt h.layout 0 (accepted ps regions) := by
  refine ⟨?_, fun j _ => ?_, fun r hr => h.valid.pageCount_pos h.pageSize hr,
    fun r hr => h.valid.alignedEnd_eq h.pageSize hr,
    fun r hr => h.valid.alignedEnd_lt h.pageSize hr, h.pageSize.pos⟩
  · rw [Nat.zero_add, h.layout_count]
  · rw [Nat.zero_add, h.layout_addr]
    rfl

end Addressable

namespace Fitting

variable {regions : List Region} {ps : ℕ}

/-- A table that fits covers only pages of its region. -/
theorem tablePages_eq (h : Fitting regions ps) :
    tablePages (accepted ps regions) ps = reservedPages (layout h).count ps := by
  have hiff : reservedPages (pageSum (accepted ps regions)) ps ≤
      (descRegionOf (accepted ps regions) ps).pageCount ↔ _ := roundUp_le_iff h.pageSize.pos
  rw [tablePages, h.layout_count, min_eq_left]
  rw [hiff, ← h.alignedSize_eq h.desc_mem]
  exact h.table

/-- The table fits in the pages that are reserved for it. -/
theorem holdsTable (h : Fitting regions ps) {pre post : List RegionInfo} {r : RegionInfo}
    (hs : accepted ps regions = pre ++ r :: post)
    (hd : pre.length = (PageAllocator.configured (accepted ps regions) ps).descRegionIdx) :
    HoldsTable (layout h) (pageSum pre) (pageSum pre + r.pageCount)
        (reservedPages (layout h).count ps) ∧
      0 < reservedPages (layout h).count ps ∧
      reservedPages (layout h).count ps ≤ r.pageCount :=
  h.tablePages_eq ▸ h.addressable.holdsTable hs hd

/-- The pages of the regions lie one behind the other in the table. -/
theorem regionsAt (h : Fitting regions ps) : RegionsAt (layout h) 0 (accepted ps regions) :=
  h.addressable.regionsAt

end Fitting

/-! ### `init` -/

section Init

variable {regions : List Region} {ps : ℕ} {s : PageState}

/-- The fields once the usable regions among the entries `regions` have been collected. -/
def collected (regions : List Region) (ps : ℕ) : PageAllocator :=
  { PageAllocator.cleared with regionsInfo := accepted ps regions }

/-- The part of `init` behind its first loop. -/
private def initTable (pageSize : ℕ) (added : Bool) : PageM Bool := do
  if !added then return false
  modify fun s => { s with self := { s.self with pagesCount := PageAllocator.countPages s.self } }
  if (← get).self.pagesCount = 0 then return false
  modify fun s => { s with self := { s.self with pageSize := pageSize } }
  modify fun s => { s with self := { s.self with
    descRegionIdx := PageAllocator.chooseDescRegion s.self } }
  let descRegion ← PageAllocator.regionAt (← get).self.descRegionIdx
  modify fun s => { s with self := { s.self with
    pagesHead := descRegion.alignedStart
    pagesTail := Page.minus (Page.plus descRegion.alignedStart s.self.pagesCount) 1 } }
  let self := (← get).self
  PageAllocator.initRegions self.regionsInfo.length 0 self.pagesHead
  return true

/-- `init` up to the end of its first loop. -/
private theorem init_collect (hps : ValidPageSize ps)
    (hadd : ∀ r ∈ regions, r.address + r.size < 2 ^ width) (hpos : ∀ r ∈ regions, 0 < r.size) :
    PageAllocator.init regions ps s =
      initTable ps (decide (regions.length ≤ maxRegionsCount))
        { s with self := collected (regions.take maxRegionsCount) ps } := by
  have hvalid := (isValidPageSize_iff hps.lt).mpr hps
  obtain ⟨_, _, hrun, rfl, rfl⟩ := addRegions_spec (i := 0)
    (s := { s with self := PageAllocator.cleared }) hps hadd hpos (Nat.zero_le _)
  rw [Nat.zero_add, Nat.sub_zero] at hrun
  rw [PageAllocator.init, bind_of_run_eq (show PageAllocator.clear s = .ok (⟨⟩, _) from rfl)]
  simp only [hvalid, Bool.not_true, Bool.false_eq_true, if_false]
  rw [bind_of_run_eq hrun]
  rfl

/-- `init` with a page size that is not valid. -/
theorem PageAllocator.init_invalid (hps : isValidPageSize ps = false) :
    wp (init regions ps) (fun r s' => r = false ∧ s' = { s with self := cleared }) s := by
  simp [init, clear, hps]

/-- `init` with more entries than it has room for. -/
theorem PageAllocator.init_entries (hps : ValidPageSize ps)
    (hadd : ∀ r ∈ regions, r.address + r.size < 2 ^ width) (hpos : ∀ r ∈ regions, 0 < r.size)
    (hlen : maxRegionsCount < regions.length) :
    wp (init regions ps) (fun r s' => r = false ∧
      s' = { s with self := collected (regions.take maxRegionsCount) ps }) s := by
  refine wp.of_run ?_ (init_collect hps hadd hpos)
  simp [initTable, Nat.not_le_of_lt hlen]

/-- `init` without a whole page. -/
theorem PageAllocator.init_no_page (hps : ValidPageSize ps)
    (hadd : ∀ r ∈ regions, r.address + r.size < 2 ^ width) (hpos : ∀ r ∈ regions, 0 < r.size)
    (hlen : regions.length ≤ maxRegionsCount)
    (hcount : (configured (accepted ps regions) ps).pagesCount = 0) :
    wp (init regions ps) (fun r s' => r = false ∧
      s' = { s with self := { collected regions ps with pagesCount := 0 } }) s := by
  refine wp.of_run ?_ (init_collect hps hadd hpos)
  have hcount' : countPages (collected regions ps) = 0 := hcount
  simp [initTable, hlen, List.take_of_length_le hlen, hcount']

/-- `init` up to its loop over the regions. -/
theorem PageAllocator.init_enter (hps : ValidPageSize ps)
    (hadd : ∀ r ∈ regions, r.address + r.size < 2 ^ width) (hpos : ∀ r ∈ regions, 0 < r.size)
    (hlen : regions.length ≤ maxRegionsCount)
    (hcount : (configured (accepted ps regions) ps).pagesCount ≠ 0) :
    init regions ps s = (do
      initRegions (accepted ps regions).length 0 (configured (accepted ps regions) ps).pagesHead
      return true : PageM Bool) { s with self := configured (accepted ps regions) ps } := by
  have hidx : (configured (accepted ps regions) ps).descRegionIdx < maxRegionsCount := by
    rcases List.eq_nil_or_concat (accepted ps regions) with hnil | ⟨l, r, he⟩
    · rw [hnil]
      exact Nat.succ_pos _
    · refine (descRegionIdx_lt ps (by simp [he])).trans_le (le_trans ?_ hlen)
      exact List.length_filterMap_le _ _
  rw [init_collect hps hadd hpos, List.take_of_length_le hlen, initTable, if_neg (by simp [hlen])]
  simp only [modify_bind_run, get_bind_run]
  rw [if_neg (show countPages (collected regions ps) ≠ 0 from hcount)]
  simp only [modify_bind_run, get_bind_run]
  have hregion : ∀ s : PageState, regionAt (configured (accepted ps regions) ps).descRegionIdx s =
      .ok (s.self.regionsInfo.getD (configured (accepted ps regions) ps).descRegionIdx
        clearRegionInfo, s) := by
    intro s
    rw [regionAt, if_neg (Nat.not_le_of_lt hidx)]
    rfl
  exact bind_of_run_eq (hregion _)

/-- `init` refuses arguments with a page size that is not valid, with too many entries or without a
whole page. -/
theorem PageAllocator.init_refuses (hlt : ps < 2 ^ width) (hv : ValidRegions regions)
    (h : ¬(ValidPageSize ps ∧ regions.length ≤ maxRegionsCount ∧ accepted ps regions ≠ [])) :
    wp (init regions ps) (fun r _ => r = false) s := by
  by_cases hps : ValidPageSize ps
  · by_cases hlen : regions.length ≤ maxRegionsCount
    · have hnil : accepted ps regions = [] := by
        by_contra hne
        exact h ⟨hps, hlen, hne⟩
      exact (init_no_page hps hv.add_lt hv.size_pos hlen (by rw [hnil]; rfl)).mono fun _ _ h => h.1
    · exact (init_entries hps hv.add_lt hv.size_pos (by omega)).mono fun _ _ h => h.1
  · have hinv : isValidPageSize ps = false := by
      rw [← isValidPageSize_iff hlt] at hps
      simpa using hps
    exact (init_invalid hinv).mono fun _ _ h => h.1

/-- What a successful `init` says about its arguments. -/
theorem PageAllocator.init_true (hlt : ps < 2 ^ width) (hv : ValidRegions regions)
    {s' : PageState} (hi : init regions ps s = .ok (true, s')) :
    ValidPageSize ps ∧ regions.length ≤ maxRegionsCount ∧ accepted ps regions ≠ [] := by
  by_contra h
  exact absurd ((init_refuses hlt hv h).of_run_eq hi) (by simp)

/-- Between two regions: the state represents groups to which the remaining regions add up to
those after `init`. -/
private structure Underway (L : Layout) (d n : ℕ) (final : Pages) (rest : List RegionInfo)
    (i c : ℕ) (f : ℕ → List Group) (s : PageState) : Prop where
  rep : ∃ a : Pages, TableRep L a s ∧ a.Inv ∧ a.count = c ∧ a.listedGroups = f ∧
    Pages.addRegions d n i rest a = final
  count : c + pageSum rest = L.count
  small : ∀ r ∈ rest, r.pageCount < 2 ^ 21

variable {L : Layout} {d n : ℕ} {final : Pages}

/-- The state before a region is set up. -/
private theorem Underway.start {rest : List RegionInfo} {i c : ℕ} {f : ℕ → List Group}
    {s : PageState} (h : Underway L d n final rest i c f s) : Started L c f s := by
  obtain ⟨⟨a, ht, hi, rfl, rfl, -⟩, hc, -⟩ := h
  refine ⟨ht.listed hi (by omega), fun j hjm g hg => ?_, ?_⟩
  · obtain ⟨g, hg', rfl⟩ := Pages.mem_listedGroups.mp hg
    exact hi.tiles.first_lt (g := g)
      (Pages.mem_groups.mpr (Or.inr (Pages.mem_freeGroups.mpr ⟨j, hjm, hg'⟩)))
  · have h₁ := hi.freeCount_le
    have h₂ := Layout.count_lt_loopBound (L := L)
    unfold loopBound at h₂
    rw [ht.freeCount]
    omega

/-- One more region has been set up. -/
private theorem Underway.step {r : RegionInfo} {rest : List RegionInfo} {i c : ℕ}
    {f : ℕ → List Group} {s s' : PageState} (h : Underway L d n final (r :: rest) i c f s)
    (hpos : 0 < r.pageCount) (hle : reservedAt d n i ≤ r.pageCount % 2 ^ 21)
    (hst : RegionStep L c (c + r.pageCount) (reservedAt d n i)
      (r.pageCount % 2 ^ 21 - reservedAt d n i) f
      (regionLists f c r.pageCount (reservedAt d n i))
      (regionTags c r.pageCount (reservedAt d n i)) s s') :
    Underway L d n final rest (i + 1) (c + r.pageCount)
      (regionLists f c r.pageCount (reservedAt d n i)) s' := by
  obtain ⟨⟨a, ht, hi, rfl, rfl, hfinal⟩, hc, hsmall⟩ := h
  rw [pageSum_cons] at hc
  have hr := hsmall r List.mem_cons_self
  rw [Nat.mod_eq_of_lt hr] at hle hst
  refine ⟨⟨a.addRegion r.pageCount (reservedAt d n i), ?_, ?_, Pages.count_addRegion, ?_, hfinal⟩,
    by omega, fun r' hr' => hsmall r' (List.mem_cons_of_mem _ hr')⟩
  · exact ht.addRegion hi hpos hle hr (by omega) hst
  · exact hi.addRegion hpos hle
  · exact Pages.listedGroups_addRegion hr

/-- `init` succeeds on usable arguments, and the object it leaves represents the initial groups. -/
theorem PageAllocator.init_spec (h : Fitting regions ps)
    (hsmall : ∀ r ∈ accepted ps regions, r.pageCount < 2 ^ 21) :
    wp (init regions ps) (fun r s' => r = true ∧
      PageRep (layout h) (Pages.initial (accepted ps regions) ps) s' ∧
      ∀ x ∉ (layout h).table, s'.mem x = s.mem x) s := by
  have hcount := h.layout_count
  have hrun := init_enter (s := s) h.pageSize h.valid.add_lt h.valid.size_pos h.entries
    (h.countPages ▸ h.pageSum_pos.ne')
  refine wp.of_run (wp_bind.mpr ?_) hrun
  have hhead : (configured (accepted ps regions) ps).pagesHead = (layout h).pageAt 0 :=
    Layout.head_eq (L := layout h)
  rw [hhead]
  refine (initRegions_spec [] (n := reservedPages (layout h).count ps)
    (f := fun _ => [])
    (I := Underway (layout h) (configured (accepted ps regions) ps).descRegionIdx
      (reservedPages (layout h).count ps) (Pages.initial (accepted ps regions) ps))
    (fun _ _ _ _ _ hI => hI.start)
    (fun _ _ _ _ _ _ _ hI hpos _ hle hst => hI.step hpos hle hst)
    h.regionsAt rfl ((List.length_filterMap_le _ _).trans h.entries) ⟨rfl, rfl, rfl⟩ rfl ?_ ?_).mono
    ?_
  · intro pre r post hs hd
    have hh := h.holdsTable hs (by simpa using hd)
    refine ⟨by simpa using hh.1, hh.2.1, ?_⟩
    rw [Nat.mod_eq_of_lt (hsmall r (by simp [hs]))]
    exact hh.2.2
  · exact ⟨⟨Pages.empty, TableRep.empty rfl rfl, Pages.inv_empty, rfl, rfl, rfl⟩,
      by rw [Nat.zero_add, hcount], hsmall⟩
  · rintro _ s' ⟨⟨f', ⟨a, ht, hi, hc, -, rfl⟩, -, -⟩, hself, hfr⟩
    refine wp_pure.mpr ⟨rfl, ⟨ht, hi, hc, ?_⟩, hfr⟩
    apply hself.trans
    have hd := descRegionIdx_lt ps h.exists_page
    rw [afterRegions, if_pos ⟨Nat.zero_le _, by rwa [List.length_nil, Nat.zero_add]⟩]
    rfl

end Init

end Liballocator
