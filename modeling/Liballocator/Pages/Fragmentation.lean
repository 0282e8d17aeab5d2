import Liballocator.Pages.Maximal
import Liballocator.Pages.Exact
import Liballocator.Pages.Query

/-!
# Fragmentation

`allocate` splits a group from the lowest list that has a large enough one
(`PageRun.allocate_fit`).  When no two regions touch, every free group ends with its region or in
front of a live group, so there are not many of them (`PageRun.freeGroups_le`), and one of them is
large (`PageRun.allocate_of_free`).
-/

namespace Liballocator

open Program LinkedList Tiling

namespace Pages

variable {a : Pages} {g h : Group} {n : ℕ}

/-! ### The group that is found -/

/-- The search finds a group in the lowest list with a large enough one. -/
theorem Inv.search_fit (hi : a.Inv) (hs : a.search n = some g) (hh : h ∈ a.freeGroups)
    (hnh : n ≤ (cut h).size) : groupIdx (cut g).size ≤ groupIdx (cut h).size := by
  have hidx : groupIdx n ≤ groupIdx (cut h).size := groupIdx_mono hnh
  have hlt := idx_lt h
  -- the lists up to the one of `h`, and the others
  have hrange : List.range' (groupIdx n) (maxGroupIdx - groupIdx n) =
      List.range' (groupIdx n) (groupIdx (cut h).size + 1 - groupIdx n) ++
        List.range' (groupIdx (cut h).size + 1) (maxGroupIdx - (groupIdx (cut h).size + 1)) := by
    have hnext : groupIdx (cut h).size + 1 =
      groupIdx n + 1 * (groupIdx (cut h).size + 1 - groupIdx n) := by omega
    nth_rewrite 2 [hnext]
    rw [List.range'_append]
    congr 1
    omega
  have hmem : h ∈ (List.range' (groupIdx n) (groupIdx (cut h).size + 1 - groupIdx n)).flatMap
      a.free := by
    refine List.mem_flatMap.mpr ⟨_, ?_, hi.mem_free hh⟩
    rw [List.mem_range'_1]
    omega
  rw [search, hrange, List.flatMap_append, List.find?_append] at hs
  cases hlow : ((List.range' (groupIdx n) (groupIdx (cut h).size + 1 - groupIdx n)).flatMap
    a.free).find? fun g => n ≤ (cut g).size with
  | none => exact absurd (decide_eq_true hnh) (List.find?_eq_none.mp hlow h hmem)
  | some g' =>
    rw [hlow] at hs
    obtain rfl : g' = g := Option.some.inj hs
    obtain ⟨i, hir, hgi⟩ := List.mem_flatMap.mp (List.mem_of_find?_eq_some hlow)
    rw [List.mem_range'_1] at hir
    rw [hi.listed i g' hgi]
    omega

/-- Sizes of one list, or of a lower one, differ by a factor of two. -/
theorem le_of_groupIdx_le {m n : ℕ} (hn : 0 < n) (h : groupIdx m ≤ groupIdx n) :
    m ≤ 2 * n + 1 := by
  have hm := Nat.lt_pow_succ_log_self (b := 2) (by omega) m
  unfold groupIdx at h
  split_ifs at h with h₁ h₂ h₂
  · omega
  · omega
  · have hlog : Nat.log 2 m + 1 ≤ 2 := by omega
    have := Nat.pow_le_pow_right (n := 2) (by omega) hlog
    have := Nat.log_pos (b := 2) (by omega) (not_lt.mp h₁)
    omega
  · have hle := Nat.pow_log_le_self 2 hn.ne'
    have hlog : Nat.log 2 m + 1 ≤ Nat.log 2 n + 1 := by
      have := Nat.log_pos (b := 2) (by omega) (not_lt.mp h₂)
      omega
    have := Nat.pow_le_pow_right (n := 2) (by omega) hlog
    rw [Nat.pow_succ] at this
    omega

/-- Among few free groups there is a large one. -/
theorem exists_freeGroup_of_lt {k : ℕ} (hlt : n * k < a.freeCount)
    (hk : a.freeGroups.length ≤ k) : ∃ g ∈ a.freeGroups, n < (cut g).size := by
  by_contra hnot
  push Not at hnot
  have hsum : a.freeCount ≤ (a.freeGroups.map fun g => (cut g).size).length * n :=
    List.sum_le_card_nsmul _ _ fun x hx => by
      obtain ⟨g, hg, rfl⟩ := List.mem_map.mp hx
      exact hnot g hg
  rw [List.length_map, Nat.mul_comm] at hsum
  exact absurd (hsum.trans (Nat.mul_le_mul_left n hk)) (Nat.not_le_of_lt hlt)

/-- The number of groups of `n` pages for which there is room in the free groups. -/
def room (n : ℕ) (a : Pages) : ℕ := (a.freeGroups.map fun g => g.size / n).sum

/-- Every group of `n` pages takes the room of one, whichever free group it comes from. -/
theorem Inv.room_allocate (hi : a.Inv) (hc : a.count < 2 ^ 21) (hal : (a.allocate n).1 = some g) :
    a.room n = (a.allocate n).2.room n + 1 := by
  rcases a.allocate_cases n with he | ⟨h, hh, hn, hle, -, he⟩
  · rw [he] at hal
    cases hal
  · obtain ⟨rest, hbefore, hafter⟩ := freeGroups_carve (n := n) hi hh
    have hcut := hi.cut_eq hc (mem_groups.mpr (Or.inr hh))
    rw [hcut] at hle hafter
    rw [he, room, room, (hbefore.map _).sum_eq, (hafter.map _).sum_eq, List.map_cons, List.sum_cons]
    split_ifs with hexact
    · rw [← hexact, Nat.div_self hn, Nat.add_comm]
    · rw [List.map_cons, List.sum_cons, Nat.div_eq_sub_div hn hle, Nat.add_right_comm]

theorem room_eq_zero (hlt : ∀ g ∈ a.freeGroups, g.size < n) : a.room n = 0 := by
  refine List.sum_eq_zero fun k hk => ?_
  obtain ⟨g, hg, rfl⟩ := List.mem_map.mp hk
  exact Nat.div_eq_of_lt (hlt g hg)

end Pages

/-! ### The ends of the regions -/

/-- The numbers of the last pages of the regions. -/
def lastPages (infos : List RegionInfo) : List ℕ :=
  (List.range infos.length).map fun k => pageSum (infos.take (k + 1)) - 1

theorem mem_lastPages {infos pre post : List RegionInfo} {i : ℕ} (hs : infos = pre ++ post)
    (hi : i + 1 = pageSum pre) : i ∈ lastPages infos := by
  obtain ⟨k, hk⟩ : ∃ k, pre.length = k + 1 := by
    apply Nat.exists_eq_add_one.mpr
    apply List.length_pos_of_ne_nil
    rintro rfl
    simp at hi
  refine List.mem_map.mpr ⟨k, List.mem_range.mpr ?_, ?_⟩
  · rw [hs, List.length_append]
    omega
  · rw [← hk, hs, List.take_left, ← hi, Nat.add_sub_cancel]

section Runs

variable [Platform] {regions : List Region} {ps count page i : ℕ} {s₀ s₁ s s' : PageState}
  {live : List PageBlock}

/-- A page that is not the last one of its region is glued to the next one. -/
theorem Fitting.glued_of_notMem (h : Fitting regions ps) (hu : Untouching regions)
    (hi : i < (layout h).count) (hcut : i ∉ lastPages (accepted ps regions)) :
    i + 1 < (layout h).count ∧ (layout h).Glued i := by
  rw [h.layout_count] at hi
  obtain ⟨pre, r, post, k, hs, rfl, hk⟩ := exists_region hi
  have hk' : k + 1 < r.pageCount := by
    by_contra hle
    have hs' : accepted ps regions = pre ++ [r] ++ post := by
      rw [hs, List.append_assoc, List.singleton_append]
    apply hcut
    apply mem_lastPages hs'
    rw [pageSum_append, pageSum_cons, pageSum_nil]
    omega
  have hnext : pageSum pre + k + 1 < (layout h).count := by
    rw [h.layout_count, hs, pageSum_append, pageSum_cons]
    omega
  refine ⟨hnext, (h.glued_iff hu hnext).mpr ?_⟩
  rw [Layout.SameRegion, Nat.add_assoc, h.regionOf_split hs hk, h.regionOf_split hs hk']

/-- In a run on groups there are not many free groups. -/
theorem Fitting.length_freeGroups_le (h : Fitting regions ps) (hu : Untouching regions) {a : Pages}
    (hi : a.Inv) (hcount : a.count = (layout h).count) (hco : a.Coalesced (layout h))
    {gs : List Group} (hused : a.used.Perm (gs ++ [reservedGroup (accepted ps regions) ps])) :
    a.freeGroups.length ≤ gs.length + (accepted ps regions).length := by
  have hperm : a.groups.Perm
      ([reservedGroup (accepted ps regions) ps] ++ (gs ++ a.freeGroups)) := by
    rw [← List.append_assoc]
    exact (hused.trans List.perm_append_comm).append_right _
  have hcuts : ∀ i < a.count, i ∉ lastPages (accepted ps regions) →
      i + 1 < a.count ∧ (layout h).Glued i := by
    rw [hcount]
    exact fun i hlt => h.glued_of_notMem hu hlt
  have hlen := (hi.tiles.perm hperm).length_le_of_maximalRun hco hcuts fun g hg i hfirst => ?_
  · rwa [lastPages, List.length_map, List.length_range] at hlen
  · -- the reserved group begins with its region
    rw [List.mem_singleton.mp hg] at hfirst
    obtain ⟨post, hs⟩ := h.desc_split
    exact mem_lastPages hs hfirst

/-- The records of the object. -/
theorem PageRep.length_regionsInfo (h : Fitting regions ps) {a : Pages}
    (hr : PageRep (layout h) a s) :
    s.self.regionsInfo.length = (accepted ps regions).length := by
  rw [hr.config]
  exact length_placeRegions

/-! ### Every run -/

/-- An allocation that succeeds takes the pages of a group from the lowest list with a large enough
one; so the group has at most twice the pages of any other one that is large enough, and one page
more. -/
theorem PageRun.allocate_fit (hg : GoodArguments regions ps)
    (hinit : PageAllocator.init regions ps s₀ = .ok (true, s₁)) (hrun : PageRun s₁ s live)
    (hcall : PageAllocator.allocate count s = .ok (page, s')) (hpage : page ≠ 0) :
    ∃ b, FreeGroup s b ∧ b.page = page ∧ count ≤ b.count ∧
      ∀ c, FreeGroup s c → count ≤ c.count →
        groupIdx b.count ≤ groupIdx c.count ∧ b.count ≤ 2 * c.count + 1 := by
  obtain ⟨a, gs, hreach, hr₁, hr, hlive⟩ := hg.simulation hinit hrun
  have hc := hg.count_lt hinit
  have hi := hr.inv
  obtain ⟨rfl, -, -⟩ := (hr.allocate (n := count)).of_run_eq hcall
  have hcut : ∀ {g}, g ∈ a.freeGroups → cut g = g := fun hgf =>
    hi.cut_eq (hr.count.trans_lt hc) (Pages.mem_groups.mpr (Or.inr hgf))
  rcases a.allocate_cases count with he | ⟨g, hgf, hn, hng, hs, he⟩
  · rw [he] at hpage
    exact absurd rfl hpage
  · refine ⟨_, (hr.freeGroup_iff hc).mpr ⟨g, hgf, rfl⟩, ?_, ?_, fun c hc' hle => ?_⟩
    · rw [he, groupPtr, Pages.taken_first, blockOf]
    · rwa [hcut hgf] at hng
    · obtain ⟨g', hgf', rfl⟩ := (hr.freeGroup_iff hc).mp hc'
      have hfit := hi.search_fit hs hgf' (by rwa [hcut hgf'])
      rw [hcut hgf, hcut hgf'] at hfit
      exact ⟨hfit, Pages.le_of_groupIdx_le (hn.trans_le hle) hfit⟩

/-- When no two regions touch, there are at most as many free groups as live groups and regions. -/
theorem PageRun.freeGroups_le (hg : GoodArguments regions ps) (hu : Untouching regions)
    (hinit : PageAllocator.init regions ps s₀ = .ok (true, s₁)) (hrun : PageRun s₁ s live)
    {free : List PageBlock} (hnd : free.Nodup) (hfree : ∀ b ∈ free, FreeGroup s b) :
    free.length ≤ live.length + s.self.regionsInfo.length := by
  obtain ⟨a, gs, hreach, hr₁, hr, rfl⟩ := hg.simulation hinit hrun
  have h := hg.fitting hinit
  obtain ⟨hi, -, hused⟩ := hreach.inv hr₁.inv
  rw [h.used_initial] at hused
  have hlen := h.length_freeGroups_le hu hi hr.count (hg.coalesced hu hinit hr₁ hreach) hused
  have hsub : free ⊆ a.freeGroups.map (blockOf (layout h)) := by
    intro b hb
    obtain ⟨g, hgf, rfl⟩ := (hr.freeGroup_iff (hg.count_lt hinit)).mp (hfree b hb)
    exact List.mem_map_of_mem hgf
  have hle := (hnd.subperm hsub).length_le
  rw [List.length_map] at hle ⊢
  rw [hr.length_regionsInfo h]
  exact hle.trans hlen

/-- When no two regions touch, an allocation of `count` pages succeeds if more than `count - 1`
pages are free for every live group and every region. -/
theorem PageRun.allocate_of_free (hg : GoodArguments regions ps) (hu : Untouching regions)
    (hinit : PageAllocator.init regions ps s₀ = .ok (true, s₁)) (hrun : PageRun s₁ s live)
    (hpos : 0 < count)
    (hfree : (count - 1) * (live.length + s.self.regionsInfo.length) < s.self.freePagesCount) :
    ∃ page s', PageAllocator.allocate count s = .ok (page, s') ∧ page ≠ 0 := by
  obtain ⟨a, gs, hreach, hr₁, hr, rfl⟩ := hg.simulation hinit hrun
  have h := hg.fitting hinit
  obtain ⟨hi, -, hused⟩ := hreach.inv hr₁.inv
  rw [h.used_initial] at hused
  have hlen := h.length_freeGroups_le hu hi hr.count (hg.coalesced hu hinit hr₁ hreach) hused
  rw [hr.table.freeCount, hr.length_regionsInfo h, List.length_map] at hfree
  obtain ⟨g, hgf, hlt⟩ := Pages.exists_freeGroup_of_lt hfree hlen
  obtain ⟨g', hal⟩ := hi.exists_allocate_iff_cut.mpr ⟨hpos, g, hgf, by omega⟩
  obtain ⟨page, s', hcall, hpage, -⟩ := hr.allocate (n := count)
  rw [hal] at hpage
  exact ⟨page, s', hcall, hpage ▸ Layout.pageAt_ne_zero _⟩

end Runs

section Witness

attribute [local instance] lp64

/-- The state after `init` of two regions with a gap. -/
theorem exists_initial_separate : ∃ s₁,
    PageAllocator.init separateRegions 256 blankPages = .ok (true, s₁) ∧
      PageRep (layout separateRegions_fitting) (Pages.initial (accepted 256 separateRegions) 256)
        s₁ := by
  obtain ⟨s₁, hinit⟩ := separateRegions_good.init_returns blankPages
    separateRegions_usable.pageSize separateRegions_usable.entries
    separateRegions_usable.exists_page
  obtain ⟨-, -, -, hr₁, -, -⟩ := separateRegions_good.simulation hinit .start
  exact ⟨s₁, hinit, hr₁⟩

/-- One page is taken from one of the two groups of the lowest list. -/
theorem PageRun.allocate_fit_separate : ∃ s₁ page s' b,
    PageAllocator.init separateRegions 256 blankPages = .ok (true, s₁) ∧
      PageAllocator.allocate 1 s₁ = .ok (page, s') ∧ FreeGroup s₁ b ∧ b.page = page ∧
      ∀ c, FreeGroup s₁ c → 1 ≤ c.count → groupIdx b.count ≤ groupIdx c.count := by
  obtain ⟨s₁, hinit, hr₁⟩ := exists_initial_separate
  obtain ⟨page, s', hcall, hpage, -⟩ := hr₁.allocate (n := 1)
  have hne : page ≠ 0 := by
    rw [hpage, show (Pages.allocate _ 1).1 = some ⟨2, 1⟩ by decide]
    exact Layout.pageAt_ne_zero _
  obtain ⟨b, hb, hbp, -, hfit⟩ :=
    PageRun.allocate_fit separateRegions_good hinit .start hcall hne
  exact ⟨s₁, page, s', b, hinit, hcall, hb, hbp, fun c hc hle => (hfit c hc hle).1⟩

/-- Two groups are free after `init`, one in each region. -/
theorem PageRun.freeGroups_le_separate : ∃ (s₁ : PageState) (free : List PageBlock),
    PageAllocator.init separateRegions 256 blankPages = .ok (true, s₁) ∧ free.length = 2 ∧
      (∀ b ∈ free, FreeGroup s₁ b) ∧ free.length ≤ 0 + s₁.self.regionsInfo.length := by
  obtain ⟨s₁, hinit, hr₁⟩ := exists_initial_separate
  have hfree : ∀ b ∈ (Pages.initial (accepted 256 separateRegions) 256).freeGroups.map
      (blockOf (layout separateRegions_fitting)), FreeGroup s₁ b := by
    intro b hb
    obtain ⟨g, hg, rfl⟩ := List.mem_map.mp hb
    exact (hr₁.freeGroup_iff (by decide)).mpr ⟨g, hg, rfl⟩
  refine ⟨s₁, _, hinit, by decide, hfree, PageRun.freeGroups_le separateRegions_good
    separateRegions_untouching hinit .start (List.Nodup.map blockOf_injective ?_) hfree⟩
  decide

/-- With three free pages in two regions, two pages can be allocated. -/
theorem PageRun.allocate_of_free_separate : ∃ s₁ page s',
    PageAllocator.init separateRegions 256 blankPages = .ok (true, s₁) ∧
      PageAllocator.allocate 2 s₁ = .ok (page, s') ∧ page ≠ 0 := by
  obtain ⟨s₁, hinit, hr₁⟩ := exists_initial_separate
  have hfree : (2 - 1) * (([] : List PageBlock).length + s₁.self.regionsInfo.length) <
      s₁.self.freePagesCount := by
    rw [hr₁.length_regionsInfo separateRegions_fitting, hr₁.table.freeCount]
    decide
  obtain ⟨page, s', hcall, hne⟩ := PageRun.allocate_of_free separateRegions_good
    separateRegions_untouching hinit .start (by decide) hfree
  exact ⟨s₁, page, s', hinit, hcall, hne⟩

end Witness

end Liballocator
