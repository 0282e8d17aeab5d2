import Liballocator.Library.RunPool
import Liballocator.Library.Simulation
import Liballocator.Pages.Fragmentation

/-!
# The page allocator as a pool of runs

When no two regions touch, the users of the page allocator see a pool of runs: an allocation takes
free pages of one region that follow each other, a release gives them back, and an allocation fails
only if there is no such run of free pages (`PageSession.refines_pool`).  Lists, tags and the order
of the groups do not show.
-/

namespace Liballocator

open Program Tiling Simulation RunPool

namespace Pages

variable {a : Pages} {g : Group} {n i : ℕ}

/-! ### Free pages -/

/-- The pages of the allocated group are no longer free. -/
theorem Inv.freePage_allocate (hi : a.Inv) (hal : (a.allocate n).1 = some g) :
    (a.allocate n).2.FreePage i ↔ a.FreePage i ∧ ¬g.Covers i := by
  rw [hi.allocate.freePage_iff, hi.freePage_iff, count_allocate, used_allocate hi, hal]
  simp only [Option.toList_some, List.singleton_append, List.forall_mem_cons]
  tauto

/-- The pages of the released group are free. -/
theorem Inv.freePage_release [Platform] {L : Layout} (hi : a.Inv) (hg : g ∈ a.used) :
    (a.release L g).FreePage i ↔ a.FreePage i ∨ g.Covers i := by
  have hgg := mem_groups.mpr (Or.inl hg)
  have hnd : a.used.Nodup := (List.nodup_append.mp hi.tiles.nodup).1
  rw [(hi.release hg).freePage_iff, hi.freePage_iff, hi.count_release hg]
  simp only [(hi.used_release hg).mem_iff, hnd.mem_erase_iff]
  constructor
  · rintro ⟨hlt, hused⟩
    by_cases hcov : g.Covers i
    · exact Or.inr hcov
    · left
      refine ⟨hlt, fun h hh hhi => ?_⟩
      by_cases hne : h = g
      · exact hcov (hne ▸ hhi)
      · exact hused h ⟨hne, hh⟩ hhi
  · rintro (⟨hlt, hused⟩ | hcov)
    · exact ⟨hlt, fun h hh => hused h hh.2⟩
    · refine ⟨hi.tiles.lt_of_covers hgg hcov, fun h hh hhi => hh.1 ?_⟩
      exact hi.tiles.eq_of_covers (mem_groups.mpr (Or.inl hh.2)) hgg hhi hcov

/-! ### Runs of free pages -/

variable {J : ℕ → Prop}

/-- What is allocated is a run of free pages, when the free groups are. -/
theorem Inv.isRun_allocate (hi : a.Inv) (hsmall : a.count < 2 ^ 21)
    (hmax : ∀ h ∈ a.freeGroups, MaximalRun a.FreePage J h) (hal : (a.allocate n).1 = some g) :
    0 < n ∧ g = ⟨g.first, n⟩ ∧ IsRun a.FreePage J g := by
  rcases a.allocate_cases n with he | ⟨h, hh, hn, hle, -, he⟩
  · rw [he] at hal
    cases hal
  · have hs := hi.size_lt hsmall (mem_groups.mpr (Or.inr hh))
    rw [Liballocator.cut_eq hs] at hle
    rw [he, taken_eq hs] at hal
    cases hal
    exact ⟨hn, rfl, .of_maximalRun (hmax h hh) hle⟩

/-- When nothing is allocated, there is no run that is long enough, and nothing changes. -/
theorem Inv.not_isRun_allocate (hi : a.Inv) (hsmall : a.count < 2 ^ 21)
    (hmax : ∀ h ∈ a.freeGroups, MaximalRun a.FreePage J h) (hal : (a.allocate n).1 = none) :
    (a.allocate n).2 = a ∧ (0 < n → ∀ first, ¬IsRun a.FreePage J ⟨first, n⟩) := by
  constructor
  · rcases a.allocate_cases n with he | ⟨g, -, -, -, -, he⟩
    · rw [he]
    · rw [he] at hal
      cases hal
  · intro hpos first hrun
    obtain ⟨g, hg, hle⟩ := hrun.exists_maximalRun hpos hmax fun i hfree => hfree
    obtain ⟨g', hal'⟩ := (hi.exists_allocate_iff hsmall).mpr ⟨hpos, g, hg, hle⟩
    cases hal.symm.trans hal'

end Pages

section Contiguous

variable [Platform]

/-- Calls of the users of the page allocator, each after writes to memory outside of the table.  The
pages are given by the numbers of their descriptors. -/
inductive PageSession : PageState × List PageBlock → Event → PageState × List PageBlock → Prop
  | allocate {s s' : PageState} {live : List PageBlock} {m : Mem} {count i : ℕ} :
    (∀ x ∈ s.self.tableWords, m x = s.mem x) →
    PageAllocator.allocate count { s with mem := m } = .ok (s.descriptor i, s') →
    s.descriptor i ≠ 0 →
    PageSession (s, live) (.take count (some i)) (s', ⟨s.descriptor i, count⟩ :: live)
  | refuse {s s' : PageState} {live : List PageBlock} {m : Mem} {count : ℕ} :
    (∀ x ∈ s.self.tableWords, m x = s.mem x) →
    PageAllocator.allocate count { s with mem := m } = .ok (0, s') →
    PageSession (s, live) (.take count none) (s', live)
  | release {s s' : PageState} {live : List PageBlock} {m : Mem} {g : Group} :
    (∀ x ∈ s.self.tableWords, m x = s.mem x) → ⟨s.descriptor g.first, g.size⟩ ∈ live →
    PageAllocator.release (s.descriptor g.first) { s with mem := m } = .ok (⟨⟩, s') →
    PageSession (s, live) (.give g) (s', live.erase ⟨s.descriptor g.first, g.size⟩)

variable {regions : List Region} {ps : ℕ} {s₀ s₁ s : PageState} {live : List PageBlock}
  {events : List Event} {a : Pages}

/-- The state and the live groups of a run, and the free pages. -/
def Pooling (L : Layout) (a₀ : Pages) (session : PageState × List PageBlock) (F : ℕ → Prop) :
    Prop :=
  ∃ a gs, Pages.Reach L a₀ a gs ∧ PageRep L a session.1 ∧ session.2 = gs.map (blockOf L) ∧
    F = a.FreePage

/-- When no two regions touch, the free groups are maximal runs of free pages of a region; the
regions of the pages are those after `init`. -/
theorem Fitting.maximalRun_initial (h : Fitting regions ps) (hu : Untouching regions) {a₀ : Pages}
    (hr₁ : PageRep (layout h) a₀ s₁) (hi : a.Inv) (hcount : a.count = (layout h).count)
    (hco : a.Coalesced (layout h)) {g : Group} (hg : g ∈ a.freeGroups) :
    MaximalRun a.FreePage s₁.SameRegion g := by
  refine (hco g hg).congr (fun _ => Iff.rfl) fun i _ hnext => ?_
  have hlt : i + 1 < (layout h).count := hcount ▸ (hi.freePage_iff.mp hnext).1
  rw [h.glued_iff hu hlt]
  exact PageRep.sameRegion_iff h hr₁ hlt

/-- The page allocator works as a pool of runs. -/
theorem PageSession.simulates (h : Fitting regions ps) (hu : Untouching regions)
    (hc : (layout h).count < 2 ^ 21)
    (hr₁ : PageRep (layout h) (Pages.initial (accepted ps regions) ps) s₁) :
    Simulates PageSession (Step s₁.SameRegion)
      (Pooling (layout h) (Pages.initial (accepted ps regions) ps)) := by
  rintro ⟨s, live⟩ session' e _ ⟨a, gs, hreach, hr, hlive, rfl⟩ hstep
  simp only at hr hlive
  subst hlive
  have hi := hr.inv
  have hsmall : a.count < 2 ^ 21 := hr.count.trans_lt hc
  have hdesc := PageState.descriptor_eq hr.config
  have hmax : ∀ g ∈ a.freeGroups, MaximalRun a.FreePage s₁.SameRegion g := fun g hg =>
    h.maximalRun_initial hu hr₁ hi hr.count (hreach.coalesced hr₁.inv (hr₁.count.trans_lt hc)
      (h.coalesced_initial hu hr₁.inv hr₁.count)) hg
  have hwrite : ∀ {m : Mem}, (∀ x ∈ s.self.tableWords, m x = s.mem x) →
      PageRep (layout h) a { s with mem := m } := by
    intro m hm
    rw [hr.tableWords] at hm
    exact hr.congr_mem hm
  cases hstep with
  | @allocate s s' live m count i hm hcall hne =>
    obtain ⟨hpage, hr', -⟩ := ((hwrite hm).allocate (n := count)).of_run_eq hcall
    cases hal : (a.allocate count).1 with
    | none =>
      rw [hal] at hpage
      exact absurd hpage hne
    | some g =>
      obtain ⟨hn, hg, hrun⟩ := hi.isRun_allocate hsmall hmax hal
      rw [hal, groupPtr, hdesc, Layout.pageAt_inj] at hpage
      rw [hg, ← hpage] at hal hrun
      refine ⟨_, .take hn hrun, _, _, hreach.allocate count, hr', ?_, ?_⟩
      · rw [hal, hdesc]
        rfl
      · funext j
        exact propext (hi.freePage_allocate hal).symm
  | @refuse s s' live m count hm hcall =>
    obtain ⟨hpage, hr', -⟩ := ((hwrite hm).allocate (n := count)).of_run_eq hcall
    cases hal : (a.allocate count).1 with
    | some g =>
      rw [hal] at hpage
      exact absurd hpage.symm (Layout.pageAt_ne_zero _)
    | none =>
      obtain ⟨hsame, hnone⟩ := hi.not_isRun_allocate hsmall hmax hal
      refine ⟨_, .refuse hnone, _, _, hreach.allocate count, hr', ?_, ?_⟩
      · rw [hal]
        rfl
      · rw [hsame]
  | @release s s' live m g hm hmem hcall =>
    have hg : g ∈ gs := by
      obtain ⟨g', hg', he⟩ := List.mem_map.mp hmem
      rw [hdesc] at he
      rwa [← blockOf_injective (he : blockOf _ g' = blockOf _ g)]
    have hgu := hreach.mem_used hr₁.inv hg
    rw [hdesc] at hcall
    have hcut : cut g = g := hi.cut_eq hsmall (Pages.mem_groups.mpr (Or.inl hgu))
    obtain ⟨hr', -⟩ := ((hwrite hm).release hgu).of_run_eq hcall
    refine ⟨_, .give fun i hcov hfree => ?_, _, _, hreach.release hg, hr', ?_, ?_⟩
    · exact (hi.freePage_iff.mp hfree).2 g hgu hcov
    · rw [hdesc]
      exact (List.map_erase blockOf_injective _).symm
    · funext j
      exact propext (hi.freePage_release hgu).symm

/-- When no two regions touch, every trace of calls of the page allocator is one of a pool of runs,
whose free numbers are those of the free pages: what is taken is a run of free pages of one region,
and a call fails only if there is no such run. -/
theorem PageSession.refines_pool (hg : GoodArguments regions ps) (hu : Untouching regions)
    (hinit : PageAllocator.init regions ps s₀ = .ok (true, s₁))
    (htrace : Trace PageSession (s₁, []) events (s, live)) :
    Trace (Step s₁.SameRegion) s₁.FreePage events s.FreePage := by
  obtain ⟨-, -, -, hr₁, -, -⟩ := hg.simulation hinit .start
  have hc := hg.count_lt hinit
  obtain ⟨F, htrace', a, gs, hreach, hr, -, rfl⟩ := htrace.simulate
    (PageSession.simulates (hg.fitting hinit) hu hc hr₁) ⟨_, [], .start, hr₁, rfl, rfl⟩
  have hfree : ∀ {a : Pages} {s : PageState}, PageRep (layout (hg.fitting hinit)) a s →
      a.FreePage = s.FreePage := fun hr => funext fun i => propext (hr.freePage_iff hc i)
  rwa [hfree hr₁, hfree hr] at htrace'

end Contiguous

section Witness

attribute [local instance] lp64

/-- Two pages are taken from the second of two regions. -/
theorem PageSession.refines_pool_separate : ∃ s₁ s live,
    PageAllocator.init separateRegions 256 blankPages = .ok (true, s₁) ∧
      Trace PageSession (s₁, []) [.take 2 (some 2)] (s, live) ∧
      Trace (Step s₁.SameRegion) s₁.FreePage [.take 2 (some 2)] s.FreePage := by
  obtain ⟨s₁, hinit, hr₁⟩ := exists_initial_separate
  obtain ⟨page, s, hcall, hpage, -⟩ := hr₁.allocate (n := 2)
  have hdesc : page = s₁.descriptor 2 := by
    rw [hpage, show (Pages.allocate _ 2).1 = some ⟨2, 2⟩ by decide,
      PageState.descriptor_eq hr₁.config]
    rfl
  have hne : s₁.descriptor 2 ≠ 0 := by
    rw [PageState.descriptor_eq hr₁.config]
    exact Layout.pageAt_ne_zero _
  have hstep : PageSession (s₁, []) (.take 2 (some 2)) _ :=
    .allocate (m := s₁.mem) (fun _ _ => rfl) (hdesc ▸ hcall) hne
  have htrace := Trace.nil.snoc hstep
  exact ⟨s₁, s, _, hinit, htrace, PageSession.refines_pool separateRegions_good
    separateRegions_untouching hinit htrace⟩

end Witness

end Liballocator
