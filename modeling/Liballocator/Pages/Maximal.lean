import Liballocator.Pages.Properties

/-!
# Complete coalescing of the code

When no two regions touch, every free group is a maximal run of free pages of its region, in every
run.  Hence a release joins at most one group on each side, and the free groups depend neither on
the order of the calls nor on what the memory has held before `init`.
-/

namespace Liballocator

open Program LinkedList Tiling

section Coalescing

variable [Platform]

/-- The descriptor number `i` is the one of a free page. -/
def PageState.FreePage (s : PageState) (i : ℕ) : Prop :=
  i < s.self.pagesCount ∧ s.isUsed i = false

/-- The pages number `i` and `i + 1` are pages of one region. -/
def PageState.SameRegion (s : PageState) (i : ℕ) : Prop := OneRegion s ⟨s.descriptor i, 2⟩

/-- `PageAllocator::release` of one group after the other. -/
def PageAllocator.releaseAll : List PageBlock → PageM PUnit
  | [] => return
  | block :: blocks => do
    release block.page
    releaseAll blocks

variable {regions : List Region} {ps : ℕ} {s₀ s₀' s₁ s₁' s s' : PageState}
  {live live' : List PageBlock}

/-! ### Rounds of the loops -/

namespace PageAllocator

variable {n m p : ℕ}

/-- A run of the first loop that ends within some rounds is the same with more rounds. -/
theorem joinAbove_mono {Q : ℕ → PageState → Prop} (h : wp (joinAbove n p) Q s) (hnm : n ≤ m) :
    wp (joinAbove m p) Q s := by
  induction n generalizing m p s with
  | zero =>
    rw [joinAbove, wp_throw] at h
    exact h.elim
  | succ n ih =>
    obtain ⟨m, rfl⟩ := Nat.exists_eq_add_of_le' (Nat.one_le_of_lt hnm)
    simp only [joinAbove, wp_bind, wp_ite, wp_get] at h ⊢
    refine h.mono fun valid s₁ h => ⟨h.1, fun hv => ?_⟩
    refine (h.2 hv).mono fun addr s₂ h => h.mono fun addr' s₃ h => ⟨h.1, fun hr => ?_⟩
    refine (h.2 hr).mono fun used s₄ h => ⟨h.1, fun hu => ?_⟩
    refine (h.2 hu).mono fun size s₅ h => h.mono fun _ s₆ h => h.mono fun joined s₇ h => ?_
    exact ih h (by omega)

/-- A run of the second loop that ends within some rounds is the same with more rounds. -/
theorem joinBelow_mono {Q : ℕ → PageState → Prop} (h : wp (joinBelow n p) Q s) (hnm : n ≤ m) :
    wp (joinBelow m p) Q s := by
  induction n generalizing m p s with
  | zero =>
    rw [joinBelow, wp_throw] at h
    exact h.elim
  | succ n ih =>
    obtain ⟨m, rfl⟩ := Nat.exists_eq_add_of_le' (Nat.one_le_of_lt hnm)
    simp only [joinBelow, wp_bind, wp_ite, wp_get] at h ⊢
    refine h.mono fun size s₁ h => h.mono fun valid s₂ h => ⟨h.1, fun hv => ?_⟩
    refine (h.2 hv).mono fun addr s₃ h => h.mono fun addr' s₄ h => ⟨h.1, fun hr => ?_⟩
    refine (h.2 hr).mono fun used s₅ h => ⟨h.1, fun hu => ?_⟩
    refine (h.2 hu).mono fun _ s₆ h => h.mono fun joined s₇ h => ?_
    exact ih h (by omega)

/-- A release whose loops end within some rounds is the release. -/
theorem release_of_releaseWithin (h : releaseWithin n p s = .ok (⟨⟩, s')) (hn : n ≤ loopBound) :
    release p s = .ok (⟨⟩, s') := by
  have hwp : wp (releaseWithin n p) (fun _ t => t = s') s := wp_of_run_eq h rfl
  have hmore : wp (release p) (fun _ t => t = s') s := by
    simp only [release, releaseWithin, wp_bind, wp_ite] at hwp ⊢
    refine ⟨hwp.1, fun hp => joinAbove_mono ((hwp.2 hp).mono fun joined s₁ h => ?_) hn⟩
    exact joinBelow_mono h hn
  obtain ⟨_, _, hrun, rfl⟩ := hmore
  exact hrun

end PageAllocator

/-! ### Fields and groups -/

/-- A page is free in the memory when it is in the abstract state. -/
theorem PageRep.freePage_iff {L : Layout} {a : Pages} (hr : PageRep L a s) (hc : L.count < 2 ^ 21)
    (i : ℕ) : a.FreePage i ↔ s.FreePage i := by
  have hdesc := PageState.descriptor_eq hr.config i
  have hcount : s.self.pagesCount = L.count := by
    rw [hr.config]
  rw [PageState.FreePage, PageState.isUsed, hdesc, hcount]
  constructor
  · rintro ⟨g, hg, hcov⟩
    have hgg := Pages.mem_groups.mpr (Or.inr hg)
    refine ⟨hr.count ▸ hr.inv.tiles.lt_of_covers hgg hcov, (hr.table.free g hg i hcov).trans ?_⟩
    rw [hr.inv.cut_eq (hr.count.trans_lt hc) hgg]
    exact decide_eq_false (Nat.not_le_of_lt hcov.2)
  · rintro ⟨hi, hfree⟩
    obtain ⟨g, hg, hcov, -⟩ := hr.exists_free hi hfree
    exact ⟨g, hg, hcov⟩

/-- A page that lies in a record is a page of the region of the record. -/
theorem Fitting.regionOf_eq (h : Fitting regions ps) {pre post : List RegionInfo} {q : RegionInfo}
    (hs : accepted ps regions = pre ++ q :: post) {i : ℕ} (hi : i < (layout h).count)
    (hle : q.alignedStart ≤ (layout h).addr i) (hge : (layout h).addr i + ps ≤ q.alignedEnd) :
    regionOf (layout h).config.regionsInfo i = pre.length := by
  have hps := h.pageSize.pos
  obtain ⟨pre', r, post', k, hs', rfl, hk⟩ := exists_region (h.layout_count ▸ hi)
  rw [h.addr_split hs' hk] at hle hge
  have hpage := h.page_le hs' hk
  rcases split_cases hs hs' with ⟨rfl, -⟩ | hmem | hmem
  · exact h.regionOf_split hs' hk
  · have := h.disjoint_pre hs' hmem
    omega
  · have := h.disjoint_pre hs hmem
    omega

/-- Pages belong to one region in the memory when they do in the layout. -/
theorem PageRep.sameRegion_iff (h : Fitting regions ps) {a : Pages} (hr : PageRep (layout h) a s)
    {i : ℕ} (hi : i + 1 < (layout h).count) : (layout h).SameRegion i ↔ s.SameRegion i := by
  have hdesc := PageState.descriptor_eq hr.config i
  rw [PageState.SameRegion, hdesc]
  constructor
  · intro hsame
    apply h.oneRegion hr (g := ⟨i, 2⟩) Nat.zero_lt_two hi
    intro j hj hj'
    have : j = i := by
      obtain ⟨h₁, -⟩ := hj
      obtain ⟨-, h₂⟩ := hj'
      simp only at h₁ h₂
      omega
    exact this ▸ hsame
  · rintro ⟨r', hr', hpages⟩
    have hps : s.self.pageSize = ps := by
      rw [hr.config]
      rfl
    have hinfos : s.self.regionsInfo =
        placeRegions (layout h).config.pagesHead 0 (accepted ps regions) := by
      rw [hr.config]
      rfl
    obtain ⟨pre, q, post, hs, rfl⟩ := exists_of_mem_placeRegions (hinfos ▸ hr')
    have hreg : ∀ k < 2, regionOf (layout h).config.regionsInfo (i + k) = pre.length := by
      intro k hk
      have hpage := hpages k hk
      rw [← Layout.pageAt_add, hr.addr (by omega), hps] at hpage
      exact h.regionOf_eq hs (by omega) hpage.1 hpage.2
    exact (hreg 0 Nat.zero_lt_two).trans (hreg 1 Nat.one_lt_two).symm

/-- When no two regions touch, the groups are coalesced in every run. -/
theorem GoodArguments.coalesced (hg : GoodArguments regions ps) (hu : Untouching regions)
    (hinit : PageAllocator.init regions ps s₀ = .ok (true, s₁)) {a : Pages} {gs : List Group}
    (hr₁ : PageRep (layout (hg.fitting hinit)) (Pages.initial (accepted ps regions) ps) s₁)
    (hreach : Pages.Reach (layout (hg.fitting hinit)) (Pages.initial (accepted ps regions) ps)
      a gs) : a.Coalesced (layout (hg.fitting hinit)) :=
  hreach.coalesced hr₁.inv (hr₁.count.trans_lt (hg.count_lt hinit))
    ((hg.fitting hinit).coalesced_initial hu hr₁.inv hr₁.count)

/-- A coalesced group in terms of the fields. -/
theorem PageRep.maximalRun (h : Fitting regions ps) (hu : Untouching regions) {a : Pages}
    (hr : PageRep (layout h) a s) (hc : (layout h).count < 2 ^ 21) {g : Group}
    (hg : MaximalRun a.FreePage (layout h).Glued g) : MaximalRun s.FreePage s.SameRegion g := by
  apply hg.congr (hr.freePage_iff hc)
  intro i _ hnext
  have hi : i + 1 < (layout h).count := hr.count ▸ (hr.inv.freePage_iff.mp hnext).1
  rw [h.glued_iff hu hi]
  exact PageRep.sameRegion_iff h hr hi

/-! ### Runs -/

/-- The free groups after the calls of two runs are the same when the live groups are, whatever the
order of the calls and the memory before `init`. -/
theorem GoodArguments.freeGroup_congr (hg : GoodArguments regions ps) (hu : Untouching regions)
    (hinit : PageAllocator.init regions ps s₀ = .ok (true, s₁)) (hrun : PageRun s₁ s live)
    (hinit' : PageAllocator.init regions ps s₀' = .ok (true, s₁')) (hrun' : PageRun s₁' s' live')
    (hlive : live.Perm live') (b : PageBlock) : FreeGroup s b ↔ FreeGroup s' b := by
  obtain ⟨a, gs, hreach, hr₁, hr, rfl⟩ := hg.simulation hinit hrun
  obtain ⟨a', gs', hreach', -, hr', rfl⟩ := hg.simulation hinit' hrun'
  have hgs : gs.Perm gs' := (List.map_perm_map_iff blockOf_injective).mp hlive
  have hmem : ∀ g, g ∈ a.freeGroups ↔ g ∈ a'.freeGroups := fun g =>
    hreach.mem_freeGroups hreach' hr₁.inv (hr₁.count.trans_lt (hg.count_lt hinit))
      ((hg.fitting hinit).coalesced_initial hu hr₁.inv hr₁.count) hgs
  rw [hr.freeGroup_iff (hg.count_lt hinit), hr'.freeGroup_iff (hg.count_lt hinit)]
  simp only [hmem]

/-- The release of live groups, one after the other. -/
theorem PageRun.releaseAll {L : Layout} {a₀ : Pages} (h : PageRun s₀ s live)
    (hr : PageRep L a₀ s₀) {blocks : List PageBlock} (hnd : blocks.Nodup)
    (hsub : ∀ b ∈ blocks, b ∈ live) :
    wp (PageAllocator.releaseAll blocks) (fun _ s' => PageRun s₀ s' (live.diff blocks)) s := by
  induction blocks generalizing s live with
  | nil =>
    rw [PageAllocator.releaseAll, wp_pure]
    exact h
  | cons b bs ih =>
    obtain ⟨hnot, hnd⟩ := List.nodup_cons.mp hnd
    have hb := hsub b List.mem_cons_self
    obtain ⟨s', hcall⟩ := h.release_returns hr hb
    rw [PageAllocator.releaseAll, wp_bind]
    apply wp_of_run_eq hcall
    rw [List.diff_cons]
    apply ih (h.release hb hcall) hnd
    intro c hc
    have hne : c ≠ b := fun e => hnot (e ▸ hc)
    exact (List.mem_erase_of_ne hne).mpr (hsub c (List.mem_cons_of_mem _ hc))

/-- When no two regions touch, every free group is a maximal run of free pages of its region, and
each loop of a release joins at most once.  Hence the free groups are determined by the free pages,
a release undoes the allocation before it, and live groups may be released in any order. -/
theorem PageRun.coalesced_of_untouching (hg : GoodArguments regions ps) (hu : Untouching regions)
    (hinit : PageAllocator.init regions ps s₀ = .ok (true, s₁)) (hrun : PageRun s₁ s live) :
    (∀ b, FreeGroup s b → ∃ i, b.page = s.descriptor i ∧
      MaximalRun s.FreePage s.SameRegion ⟨i, b.count⟩) ∧
    (∀ b ∈ live, ∃ s', PageAllocator.release b.page s = .ok (⟨⟩, s') ∧
      PageAllocator.releaseWithin 2 b.page s = .ok (⟨⟩, s')) ∧
    (∀ s₀' s₁' s' live', PageAllocator.init regions ps s₀' = .ok (true, s₁') →
      PageRun s₁' s' live' → (∀ i, s.FreePage i ↔ s'.FreePage i) →
      ∀ b, FreeGroup s b ↔ FreeGroup s' b) ∧
    (∀ count page s', PageAllocator.allocate count s = .ok (page, s') → page ≠ 0 →
      ∃ s'', PageAllocator.release page s' = .ok (⟨⟩, s'') ∧
        ∀ b, FreeGroup s'' b ↔ FreeGroup s b) ∧
    ∀ blocks blocks' : List PageBlock, blocks.Nodup → (∀ b ∈ blocks, b ∈ live) →
      blocks.Perm blocks' → ∃ s' s'', PageAllocator.releaseAll blocks s = .ok (⟨⟩, s') ∧
        PageAllocator.releaseAll blocks' s = .ok (⟨⟩, s'') ∧
        ∀ b, FreeGroup s' b ↔ FreeGroup s'' b := by
  obtain ⟨a, gs, hreach, hr₁, hr, hlive⟩ := hg.simulation hinit hrun
  have h := hg.fitting hinit
  have hc := hg.count_lt hinit
  have hco := hg.coalesced hu hinit hr₁ hreach
  refine ⟨fun b hb => ?_, fun b hb => ?_, fun s₀' s₁' s' live' hinit' hrun' hfree b => ?_,
    fun count page s' hcall hpage => ?_, fun blocks blocks' hnd hsub hperm => ?_⟩
  · obtain ⟨g, hgf, rfl⟩ := (hr.freeGroup_iff hc).mp hb
    refine ⟨g.first, ?_, PageRep.maximalRun h hu hr hc (hco g hgf)⟩
    rw [blockOf, PageState.descriptor_eq hr.config]
  · rw [hlive] at hb
    obtain ⟨g, hgs, rfl⟩ := List.mem_map.mp hb
    have hgu := hreach.mem_used hr₁.inv hgs
    have hone := hco.settled_one hr.inv hgu
    obtain ⟨⟨⟩, s', hcall, -⟩ := hr.releaseWithin hgu hone (Nat.lt_succ_self 1)
    have hbound : 2 ≤ loopBound := le_trans (by norm_num) two_pow_32_le
    exact ⟨s', PageAllocator.release_of_releaseWithin hcall hbound, hcall⟩
  · obtain ⟨a', gs', hreach', -, hr', -⟩ := hg.simulation hinit' hrun'
    have hmem : ∀ g, g ∈ a.freeGroups ↔ g ∈ a'.freeGroups := fun g =>
      hco.mem_freeGroups (hg.coalesced hu hinit hr₁ hreach') fun i => by
        rw [hr.freePage_iff hc, hr'.freePage_iff hc, hfree]
    rw [hr.freeGroup_iff hc, hr'.freeGroup_iff hc]
    simp only [hmem]
  · have hrun' := hrun.allocate hcall
    rw [if_neg hpage] at hrun'
    obtain ⟨s'', hrel⟩ := hrun'.release_returns hr₁ List.mem_cons_self
    refine ⟨s'', hrel, hg.freeGroup_congr hu hinit (hrun'.release List.mem_cons_self hrel) hinit
      hrun ?_⟩
    rw [List.erase_cons_head]
  · obtain ⟨⟨⟩, s', hcall, hrun'⟩ := hrun.releaseAll hr₁ hnd hsub
    obtain ⟨⟨⟩, s'', hcall', hrun''⟩ := hrun.releaseAll hr₁ (hperm.nodup_iff.mp hnd)
      fun b hb => hsub b (hperm.mem_iff.mpr hb)
    refine ⟨s', s'', hcall, hcall', hg.freeGroup_congr hu hinit hrun' hinit hrun'' ?_⟩
    rw [hperm.diff_left]

end Coalescing

section Witness

attribute [local instance] lp64

/-- Two regions of two pages of 256 bytes each, with a gap between them. -/
def separateRegions : List Region := [⟨4096, 512⟩, ⟨8192, 512⟩]

/-- `init` may be called with the two regions. -/
theorem separateRegions_fitting : Fitting separateRegions 256 :=
  ⟨⟨8, by decide, by decide, rfl⟩, ⟨by decide, by decide, by decide⟩, by decide, by decide,
    by decide, by decide⟩

/-- The regions and the page size are usable. -/
theorem separateRegions_usable : Usable separateRegions 256 :=
  ⟨separateRegions_fitting, show ∀ r ∈ separateRegions, 0 < r.address by decide⟩

/-- The regions are good arguments. -/
theorem separateRegions_good : GoodArguments separateRegions 256 :=
  ⟨by decide, separateRegions_usable.valid, separateRegions_usable.nonZero, by decide,
    separateRegions_usable.table⟩

/-- The regions do not touch. -/
theorem separateRegions_untouching : Untouching separateRegions := by
  unfold Untouching
  decide

/-- The free groups after the allocation of two pages from two regions with a gap. -/
theorem PageRun.coalesced_separate : ∃ s₁ s b,
    PageAllocator.init separateRegions 256 blankPages = .ok (true, s₁) ∧ PageRun s₁ s [b] ∧
      (∀ c, FreeGroup s c → ∃ i, c.page = s.descriptor i ∧
        MaximalRun s.FreePage s.SameRegion ⟨i, c.count⟩) ∧
      ∃ s', PageAllocator.release b.page s = .ok (⟨⟩, s') ∧
        PageAllocator.releaseWithin 2 b.page s = .ok (⟨⟩, s') := by
  obtain ⟨s₁, hinit⟩ := separateRegions_good.init_returns blankPages
    separateRegions_usable.pageSize separateRegions_usable.entries
    separateRegions_usable.exists_page
  obtain ⟨-, -, -, hr₁, -, -⟩ := separateRegions_good.simulation hinit .start
  obtain ⟨s, hrun, -⟩ := PageRun.start.exists_allocate hr₁ (n := 2) (g := ⟨2, 2⟩) (by decide)
  obtain ⟨hmax, hrounds, -⟩ := PageRun.coalesced_of_untouching separateRegions_good
    separateRegions_untouching hinit hrun
  exact ⟨s₁, s, _, hinit, hrun, hmax, hrounds _ List.mem_cons_self⟩

end Witness

end Liballocator
