import Liballocator.Pages.Properties

/-!
# Allocation of pages is complete and exact

`allocate` finds a group whenever one of the free groups is large enough
(`Pages.Inv.search_complete`), because every free group is in the list for its size and larger
groups are in the same list or in a later one.  It takes the first pages of that group, and nothing
else changes.
-/

namespace Liballocator

open Program LinkedList Tiling

/-! ### The search -/

/-- Larger groups are in the same list or in a later one. -/
theorem groupIdx_mono {m n : ℕ} (h : m ≤ n) : groupIdx m ≤ groupIdx n := by
  have hlog : Nat.log 2 m ≤ Nat.log 2 n := Nat.log_mono_right h
  unfold groupIdx
  split_ifs <;> omega

namespace Pages

variable {a : Pages} {g : Group} {n : ℕ}

/-- The search finds a group if one is large enough. -/
theorem Inv.search_complete (hi : a.Inv) (hg : g ∈ a.freeGroups) (hng : n ≤ (cut g).size) :
    ∃ h, a.search n = some h := by
  obtain ⟨i, him, hmem⟩ := mem_freeGroups.mp hg
  have hidx : groupIdx n ≤ i := hi.listed i g hmem ▸ groupIdx_mono hng
  have hrange : i ∈ List.range' (groupIdx n) (maxGroupIdx - groupIdx n) := by
    rw [List.mem_range'_1]
    omega
  cases hs : a.search n with
  | some h => exact ⟨h, rfl⟩
  | none =>
    have hnot := List.find?_eq_none.mp hs g (List.mem_flatMap.mpr ⟨i, hrange, hmem⟩)
    exact absurd (decide_eq_true hng) hnot

/-- An allocation succeeds exactly when the tags of some free group show enough pages. -/
theorem Inv.exists_allocate_iff_cut (hi : a.Inv) :
    (∃ g, (a.allocate n).1 = some g) ↔ 0 < n ∧ ∃ g ∈ a.freeGroups, n ≤ (cut g).size := by
  constructor
  · rintro ⟨g, hal⟩
    rcases a.allocate_cases n with he | ⟨h, hh, hn, hnh, -, -⟩
    · rw [he] at hal
      exact absurd hal (by simp)
    · exact ⟨hn, h, hh, hnh⟩
  · rintro ⟨hn, g, hg, hng⟩
    obtain ⟨h, hs⟩ := hi.search_complete hg hng
    have hle : (cut g).size ≤ a.freeCount :=
      List.single_le_sum (by simp) _ (List.mem_map_of_mem (f := fun g => (cut g).size) hg)
    refine ⟨taken h n, ?_⟩
    rw [Pages.allocate, if_neg (by omega), hs]

/-- In a small table an allocation succeeds exactly when some free group is large enough. -/
theorem Inv.exists_allocate_iff (hi : a.Inv) (hc : a.count < 2 ^ 21) :
    (∃ g, (a.allocate n).1 = some g) ↔ 0 < n ∧ ∃ g ∈ a.freeGroups, n ≤ g.size := by
  rw [hi.exists_allocate_iff_cut]
  refine and_congr_right fun _ => exists_congr fun g => and_congr_right fun hg => ?_
  rw [hi.cut_eq hc (mem_groups.mpr (Or.inr hg))]

/-- The counter of free pages after a successful allocation. -/
theorem Inv.freeCount_allocate (hi : a.Inv) (hal : (a.allocate n).1 = some g) :
    (a.allocate n).2.freeCount + n = a.freeCount := by
  rcases a.allocate_cases n with he | ⟨h, hh, hn, hnh, -, he⟩
  · rw [he] at hal
    exact absurd hal (by simp)
  · obtain ⟨rest, hbefore, hafter⟩ := freeGroups_carve (n := n) hi hh
    rw [he, freeCount, freeCount, (hbefore.map _).sum_eq, (hafter.map _).sum_eq]
    split_ifs with hexact
    · rw [List.map_cons, List.sum_cons, ← hexact, Nat.add_comm]
    · have hsize : (cut ⟨h.first + n, h.size - n⟩).size = (cut h).size - n := by rw [cut_sub hnh]
      rw [List.map_cons, List.sum_cons, List.map_cons, List.sum_cons, hsize]
      omega

/-- The lists of free groups after the first `count` pages of the group `g` have been taken. -/
def takeFrom (free : ℕ → List Group) (g : Group) (count : ℕ) : ℕ → List Group :=
  let rest := Function.update free (groupIdx g.size) ((free (groupIdx g.size)).erase g)
  if count = g.size then rest
  else Function.update rest (groupIdx (g.size - count))
    (⟨g.first + count, g.size - count⟩ :: rest (groupIdx (g.size - count)))

theorem free_carve (hg : g.size < 2 ^ 21) : (a.carve g n).free = takeFrom a.free g n := by
  have hrest : cut ⟨g.first + n, g.size - n⟩ = ⟨g.first + n, g.size - n⟩ :=
    cut_eq (by simp only; omega)
  unfold carve takeFrom addGroup splitGroup removeGroup
  rw [cut_eq hg, hrest]
  split_ifs <;> rfl

end Pages

/-! ### Every run -/

section Runs

variable [Platform] {L : Layout} {a : Pages} {regions : List Region} {ps n : ℕ}
  {s₀ s₁ s : PageState} {live : List PageBlock}

/-- A failed allocation does not change anything. -/
theorem PageRep.allocate_none (hr : PageRep L a s) (hc : L.count < 2 ^ 21)
    (hal : (a.allocate n).1 = none) :
    wp (PageAllocator.allocate n) (fun r s' => r = 0 ∧ s' = s) s := by
  simp only [PageAllocator.allocate, wp_bind, wp_get, hr.table.freeCount]
  by_cases h0 : a.freeCount < n ∨ n = 0
  · simp only [h0, if_true, wp_pure, and_self]
  · simp only [h0, if_false]
    have hfc := hr.inv.freeCount_le
    have hidx : groupIdx n < maxGroupIdx :=
      Pages.groupIdx_lt (by have := hr.count.trans_lt hc; omega)
    apply (allocateFrom_spec hr (by omega) (by omega)).mono
    intro r s' h
    simp only [Pages.allocate, h0, if_false, Pages.search] at hal
    split at h
    next => exact h
    next g hs =>
      rw [hs] at hal
      exact absurd hal (by simp)

/-- In every run an allocation succeeds exactly when a free group is large enough; it takes the
first pages of such a group, the rest of the group becomes a free group, and all other groups are as
before.  An allocation that fails changes nothing. -/
theorem PageRun.allocate_exact (hg : GoodArguments regions ps)
    (hinit : PageAllocator.init regions ps s₀ = .ok (true, s₁)) (hrun : PageRun s₁ s live)
    (count : ℕ) :
    ∃ reserved groups free page s', PageAllocator.WellFormed s reserved groups free ∧
      (live = groups.map fun g => ⟨s.descriptor g.first, g.size⟩) ∧
      PageAllocator.allocate count s = .ok (page, s') ∧
      (page ≠ 0 ↔ 0 < count ∧ ∃ g ∈ (List.range maxGroupIdx).flatMap free, count ≤ g.size) ∧
      (page = 0 → s' = s) ∧
      (page ≠ 0 → ∃ g ∈ (List.range maxGroupIdx).flatMap free, count ≤ g.size ∧
        page = s.descriptor g.first ∧
        PageAllocator.WellFormed s' reserved (⟨g.first, count⟩ :: groups)
          (Pages.takeFrom free g count) ∧
        s'.groupSize g.first = count ∧
        (∀ k < count, s'.isUsed (g.first + k) = true ∧
          s'.address (g.first + k) = s'.address g.first + k * s.self.pageSize) ∧
        (∀ i < s.self.pagesCount, s'.address i = s.address i) ∧
        s'.self.freePagesCount + count = s.self.freePagesCount) := by
  obtain ⟨a, gs, hreach, hr₁, hr, hlive⟩ := hg.simulation hinit hrun
  have h := hg.fitting hinit
  have hi := hr.inv
  have hc := hg.count_lt hinit
  have hwf := h.wellFormed hreach hr₁ hr hc
  have hdesc := PageState.descriptor_eq hr.config
  have hmap : live = gs.map fun g => ⟨s.descriptor g.first, g.size⟩ := by
    simp only [hlive, hdesc]
    rfl
  have hiff := hi.exists_allocate_iff (n := count) (hr.count.trans_lt hc)
  cases hal : (a.allocate count).1 with
  | none =>
    obtain ⟨_, _, hcall, rfl, rfl⟩ := hr.allocate_none hc hal
    refine ⟨_, gs, a.free, 0, _, hwf, hmap, hcall, ⟨fun h0 => absurd rfl h0, fun h0 => ?_⟩,
      fun _ => rfl, fun h0 => absurd rfl h0⟩
    obtain ⟨g, hg'⟩ := hiff.mpr h0
    rw [hal] at hg'
    exact absurd hg' (by simp)
  | some g' =>
    obtain ⟨page, s', hcall, hpage, hr', -⟩ := hr.allocate (n := count)
    rw [hal, groupPtr] at hpage
    have hne : page ≠ 0 := hpage ▸ Layout.pageAt_ne_zero _
    refine ⟨_, gs, a.free, page, s', hwf, hmap, hcall, ⟨fun _ => hiff.mp ⟨g', hal⟩, fun _ => hne⟩,
      fun h0 => absurd h0 hne, fun _ => ?_⟩
    rcases a.allocate_cases count with he | ⟨g, hgf, hn, hng, -, he⟩
    · rw [he] at hal
      exact absurd hal (by simp)
    have hcount := hi.freeCount_allocate hal
    have hsmall := hi.size_lt (hr.count.trans_lt hc) (Pages.mem_groups.mpr (Or.inr hgf))
    have htaken := Pages.taken_eq (n := count) hsmall
    have hreach' := hreach.allocate count
    rw [htaken] at he
    rw [he] at hal hr' hreach' hcount
    obtain rfl : ⟨g.first, count⟩ = g' := by simpa using hal
    have hused := hreach'.mem_used hr₁.inv List.mem_cons_self
    have hwf' := h.wellFormed hreach' hr₁ hr' hc
    rw [Pages.free_carve hsmall] at hwf'
    rw [cut_eq hsmall] at hng
    have hmem : (⟨g.first, count⟩ : Group) ∈ reservedGroup (accepted ps regions) ps ::
        (⟨g.first, count⟩ :: gs) ++ (List.range maxGroupIdx).flatMap (Pages.takeFrom a.free g count) :=
      by simp
    have hdesc' := PageState.descriptor_eq hr'.config
    have hself : s.self.pageSize = s'.self.pageSize ∧ s.self.pagesCount = (layout h).count := by
      rw [hr.config, hr'.config]
      exact ⟨rfl, rfl⟩
    refine ⟨g, hgf, hng, hpage.trans (hdesc _).symm, hwf', ?_, fun k hk => ⟨?_, ?_⟩, fun i hi => ?_,
      ?_⟩
    · exact (hwf'.sizes _ hmem g.first ⟨le_rfl, Nat.lt_add_of_pos_right hn⟩).trans
        (if_pos (Or.inl rfl))
    · rw [PageState.isUsed, hdesc']
      exact hr'.table.used ⟨g.first, count⟩ hused _
        ⟨Nat.le_add_right _ _, Nat.add_lt_add_left hk _⟩
    · rw [hself.1]
      exact hwf'.consecutive _ hmem k hk
    · rw [hself.2] at hi
      rw [PageState.address, PageState.address, hdesc, hdesc', hr.addr hi, hr'.addr hi]
    · rw [hr.table.freeCount, hr'.table.freeCount]
      exact hcount

end Runs

section Touching

attribute [local instance] lp64

/-- Two of the three free pages of two regions that touch are in the group that is found. -/
theorem PageRun.allocate_exact_touching : ∃ s₁ reserved groups free page s',
    PageAllocator.init touchingRegions 256 blankPages = .ok (true, s₁) ∧
      PageAllocator.WellFormed s₁ reserved groups free ∧
      PageAllocator.allocate 2 s₁ = .ok (page, s') ∧
      (page ≠ 0 ↔ 0 < 2 ∧ ∃ g ∈ (List.range maxGroupIdx).flatMap free, 2 ≤ g.size) := by
  obtain ⟨s₁, hinit⟩ := touchingRegions_good.init_returns blankPages
    touchingRegions_fitting.pageSize touchingRegions_fitting.entries
    touchingRegions_fitting.exists_page
  obtain ⟨reserved, groups, free, page, s', hwf, -, hcall, hiff, -⟩ :=
    PageRun.allocate_exact touchingRegions_good hinit .start 2
  exact ⟨s₁, reserved, groups, free, page, s', hinit, hwf, hcall, hiff⟩

end Touching

end Liballocator
