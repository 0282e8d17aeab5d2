import Liballocator.Zones.Alike
import Liballocator.Zones.Statistics
import Liballocator.Zones.Safety

/-!
# Nothing is lost

When no regions touch, the groups are coalesced and every block is found again by its
address.  Hence the allocator is as after `init` once all blocks have been released, and an
allocation that fails leaves everything as it was.

That no zone remains is seen on the list of the zones for descriptors: the zone in front of it owns
none of the others, so its chunks that are not free would have to be blocks of the users.
-/

namespace Liballocator

open Program LinkedList Tiling Ownership

section Leaks

variable [Platform]

variable {L : Layout} {r : Group} {a₀ a b : Pages} {H : Heap} {live : List ℕ} {held : List Group}
  {blocks : List Block} {s s' s₀ s₁ : State} {z size : ℕ}

/-! ### Heaps without blocks -/

namespace Heap

/-- Without blocks every zone but the initial one is a zone for descriptors, because its chunks that
are not free hold descriptors. -/
theorem Wf.exists_desc (h : H.Wf L r [] held) (hL : L.Sound) (ht : H.Tight L) (hz : z ∈ H.descs)
    (hne : z ≠ initialZone) : z ∈ H.lists descIdx ∧
      ∃ c ∈ H.descs, c ≠ initialZone ∧ H.Owns L z c := by
  obtain ⟨c, hc⟩ := List.exists_mem_of_ne_nil _ (ht z hz hne)
  have hown : H.Owns L z c := (ZoneData.mem_taken.mp hc).1
  have hcne := h.chunk_ne_initial hL hz hown
  have hcd : c ∈ H.descs := by
    have := h.taken.mem_iff.mp (mem_taken.mpr ⟨z, hz, hc⟩)
    rw [List.append_nil] at this
    exact List.mem_of_mem_erase this
  obtain ⟨y, hy, hyc⟩ := h.owned c hcd hcne
  have hyz := h.eq_of_owns hL (mem_descs_of_list hy) hz hyc hown
  exact ⟨hyz ▸ hy, c, hcd, hcne, hown⟩

/-- Without blocks there is one zone only. -/
theorem Wf.descs_eq (h : H.Wf L r [] held) (hL : L.Sound) (ht : H.Tight L) :
    H.descs = [initialZone] := by
  have hlist : H.lists descIdx = [initialZone] := by
    have hg := h.grounded
    have hnd := h.nodup_list descIdx_lt
    cases hl : H.lists descIdx with
    | nil =>
      rw [hl] at hg
      exact hg.elim
    | cons x l =>
      have hmem : ∀ {y}, y ∈ x :: l → y ∈ H.descs := fun hy => mem_descs_of_list (hl ▸ hy)
      rw [hl] at hg hnd
      by_cases hx : x = initialZone
      · subst hx
        rcases hg with ⟨-, rfl⟩ | ⟨⟨y, hy, hown⟩, -⟩
        · rfl
        · exact absurd rfl (h.chunk_ne_initial hL (hmem (List.mem_cons_of_mem _ hy)) hown)
      · -- the zone in front owns a descriptor that is in the list, too
        obtain ⟨-, c, hc, hcne, hown⟩ := h.exists_desc hL ht (hmem List.mem_cons_self) hx
        have hcl := (h.exists_desc hL ht hc hcne).1
        rw [hl] at hcl
        exact absurd hown (hg.head_not_owner hnd
          (fun y hy z hz w _ h₁ h₂ => h.eq_of_owns hL (hmem hy) (hmem hz) h₁ h₂)
          (fun y hy hyr => h.chunk_ne_initial hL (hmem hy) hyr rfl) c hcl)
  have hperm : H.descs.Perm [initialZone] := by
    apply (List.perm_ext_iff_of_nodup h.nodup (List.nodup_singleton _)).mpr
    intro y
    rw [List.mem_singleton]
    constructor
    · intro hy
      by_contra hne
      have := (h.exists_desc hL ht hy hne).1
      rw [hlist, List.mem_singleton] at this
      exact hne this
    · rintro rfl
      exact h.initial_mem
  exact List.perm_singleton.mp hperm

end Heap

/-! ### Coalesced groups -/

/-- The used groups determine the free ones when both are coalesced. -/
theorem Pages.Coalesced.freeGroups_congr (hca : a.Coalesced L) (hcb : b.Coalesced L) (hia : a.Inv)
    (hib : b.Inv) (hc : a.count < 2 ^ 21) (hcount : a.count = b.count) (hused : a.used.Perm b.used) :
    (∀ g, g ∈ a.freeGroups ↔ g ∈ b.freeGroups) ∧ a.freeCount = b.freeCount := by
  refine ⟨fun g => hca.mem_freeGroups hcb fun i => freePage_congr hia hib hcount fun g =>
    hused.mem_iff, ?_⟩
  have h₁ := hia.freeCount_add hc
  have h₂ := hib.freeCount_add (hcount ▸ hc)
  have h₃ := (hused.map Span.size).sum_eq
  omega

/-- The groups stay coalesced. -/
theorem Serves.coalesced {leaked : List Group} (hv : Serves L r a₀ H blocks leaked)
    (S : Site L r a₀) (hco : a₀.Coalesced L) : H.pages.Coalesced L := by
  refine hv.steps.coalesced S.inv (S.count ▸ S.small) (fun g hg hne => ?_) hco
  rw [S.used, List.mem_singleton] at hg
  exact absurd hg hne

/-- Without blocks the used groups are the reserved one and the page of the initial zone, and that
zone is entirely free. -/
theorem Serves.released (hv : Serves L r a₀ H [] []) (S : Site L r a₀) :
    H.descs = [initialZone] ∧ (H.zone initialZone).taken L = [] ∧
      H.pages.used.Perm [r, ⟨a₀.rootPage, 1⟩] := by
  have hw := hv.wf
  have hdescs := hw.descs_eq S.sound hv.tight
  refine ⟨hdescs, ?_, ?_⟩
  · have htaken := hw.taken
    rw [Heap.taken, hdescs, List.flatMap_singleton, List.erase_cons_head] at htaken
    exact htaken.eq_nil
  · have hused := hw.used
    rw [hdescs, List.map_singleton, Heap.pageGroup, hv.root] at hused
    exact hused

/-- The free groups of two states with the same free groups in the representation. -/
theorem PageRep.freeGroup_congr {p p' : PageState} (hr : PageRep L a p) (hr' : PageRep L b p')
    (hc : L.count < 2 ^ 21) (h : ∀ g, g ∈ a.freeGroups ↔ g ∈ b.freeGroups) (c : PageBlock) :
    FreeGroup p c ↔ FreeGroup p' c := by
  rw [hr.freeGroup_iff hc, hr'.freeGroup_iff hc]
  simp only [h]

/-! ### Every run -/

variable {regions : List Region} {ps : ℕ}

/-- In a run on regions that do not touch nothing is leaked, and the groups are coalesced. -/
theorem GoodArguments.running_untouching (hg : GoodArguments regions ps) (hps : ps ≤ 4096)
    (hu : Untouching regions) (hinit : init regions ps s₀ = .ok (true, s₁))
    (hrun : Run s₁ s blocks) :
    ∃ H, HeapRep (layout (hg.fitting_of_init hinit)) H s ∧
      Serves (layout (hg.fitting_of_init hinit)) (reservedGroup (accepted ps regions) ps)
        (Pages.initial (accepted ps regions) ps) H blocks [] ∧
      H.pages.Coalesced (layout (hg.fitting_of_init hinit)) := by
  have h := hg.usable_of_init hinit
  have S := h.site hg.few hps
  obtain ⟨H, leaked, hr, hv, hleak⟩ := hg.running hps hinit hrun
  obtain rfl := hleak fun i hi => h.findPage_addr (h.unmasked hu) hi
  exact ⟨H, hr, hv, hv.coalesced S (h.coalesced_initial hu S.inv S.count)⟩

/-- In every run on regions that do not touch only the initial zone may be entirely free, and when
all blocks have been released the allocator is as after `init`. -/
theorem Run.noLeak_of_init (hg : GoodArguments regions ps) (hps : ps ≤ 4096)
    (hu : Untouching regions) (hinit : init regions ps s₀ = .ok (true, s₁))
    (hrun : Run s₁ s blocks) :
    (∀ z, s.IsZone z → z ≠ initialZone → ∃ c, s.ChunkOf z c ∧ ¬s.FreeChunk z c) ∧
    (blocks = [] →
      (∀ z, s.IsZone z ↔ z = initialZone) ∧
      (∀ c, s.ChunkOf initialZone c → s.FreeChunk initialZone c) ∧
      (∀ b, FreeGroup s.pages b ↔ FreeGroup s₁.pages b) ∧
      s.pages.self.freePagesCount = s₁.pages.self.freePagesCount) := by
  have S := (hg.usable_of_init hinit).site hg.few hps
  obtain ⟨H, hr, hv, hco⟩ := hg.running_untouching hps hu hinit hrun
  have hw := hv.wf
  refine ⟨fun z hz hne => ?_, ?_⟩
  · have hzd := hr.isZone_iff.mp hz
    obtain ⟨c, hc⟩ := List.exists_mem_of_ne_nil _ (hv.tight z hzd hne)
    obtain ⟨hown, hfree⟩ := ZoneData.mem_taken.mp hc
    exact ⟨c, (hr.chunkOf_iff hzd (hw.fits z hzd)).mpr hown,
      fun h => hfree ((hr.freeChunk_iff hzd).mp h)⟩
  · rintro rfl
    obtain ⟨hdescs, htaken, hused⟩ := hv.released S
    obtain ⟨H₁, hr₁, hv₁, hco₁⟩ := hg.running_untouching hps hu hinit .start
    obtain ⟨-, -, hused₁⟩ := hv₁.released S
    have hinitial := hw.initial_mem
    obtain ⟨hgroups, hcount⟩ := hco.freeGroups_congr hco₁ hw.inv hv₁.wf.inv hw.pages_count_lt
      (hw.count.trans hv₁.wf.count.symm) (hused.trans hused₁.symm)
    refine ⟨fun z => ?_, fun c hc => ?_, hr.pages.freeGroup_congr hr₁.pages S.small hgroups, ?_⟩
    · rw [hr.isZone_iff, hdescs, List.mem_singleton]
    · have hown := (hr.chunkOf_iff hinitial (hw.fits _ hinitial)).mp hc
      rw [hr.freeChunk_iff hinitial]
      by_contra hfree
      have hmem : c ∈ (H.zone initialZone).taken (layout (hg.fitting_of_init hinit)) :=
        ZoneData.mem_taken.mpr ⟨hown, hfree⟩
      rw [htaken] at hmem
      exact absurd hmem List.not_mem_nil
    · rw [hr.pages.table.freeCount, hr₁.pages.table.freeCount, hcount]

/-! ### Failed allocations -/

/-- The two states show the same zones with the same free chunks, the same free groups and the same
statistics. -/
structure Same (s s' : State) : Prop where
  isZone : ∀ z, s'.IsZone z ↔ s.IsZone z
  zone : ∀ z, s.IsZone z → s'.zonePage z = s.zonePage z ∧ s'.chunkSize z = s.chunkSize z
  freeChunk : ∀ z, s.IsZone z → ∀ c, s'.FreeChunk z c ↔ s.FreeChunk z c
  counts : ∀ i < maxZoneIdx,
    (s'.self.zones i).freeChunksCount = (s.self.zones i).freeChunksCount
  freeGroup : ∀ b, FreeGroup s'.pages b ↔ FreeGroup s.pages b
  freePagesCount : s'.pages.self.freePagesCount = s.pages.self.freePagesCount
  stats : ∃ st, getStats s = .ok (st, s) ∧ getStats s' = .ok (st, s')

omit [Platform] in
theorem Heap.Unchanged.map_pageGroup {H' : Heap} (h : H.Unchanged H') :
    H'.descs.map H'.pageGroup = H.descs.map H.pageGroup := by
  rw [h.descs]
  exact List.map_congr_left fun z hz => by rw [Heap.pageGroup, Heap.pageGroup, h.zone z hz]

/-- The statistics depend on the zones and on the number of free pages. -/
theorem Heap.Alike.zoneStats {H' : Heap} (h : H.Alike H') : H'.zoneStats L = H.zoneStats L := by
  have hfree : H'.freeMemory = H.freeMemory := by
    refine congrArg List.sum (List.map_congr_left fun i hi => ?_)
    rw [h.freeCount (List.mem_range.mp hi)]
  rw [Heap.zoneStats, Heap.zoneStats, h.descs.length_eq, hfree]

/-- Heaps that are alike and have the same free groups look the same. -/
theorem HeapRep.same_of_alike {H' : Heap} {live' : List ℕ} {held' : List Group}
    (hr : HeapRep L H s) (hr' : HeapRep L H' s') (hw : H.Wf L r live held)
    (hw' : H'.Wf L r live' held') (A : Arena L r) (hu : H.Alike H')
    (hgroups : ∀ g, g ∈ H'.pages.freeGroups ↔ g ∈ H.pages.freeGroups)
    (hcount : H'.pages.freeCount = H.pages.freeCount) : Same s s' := by
  have hmem : ∀ {z}, s.IsZone z → z ∈ H.descs ∧ z ∈ H'.descs := fun hz =>
    ⟨hr.isZone_iff.mp hz, hu.descs.mem_iff.mp (hr.isZone_iff.mp hz)⟩
  refine ⟨fun z => ?_, fun z hz => ?_, fun z hz c => ?_, fun i hi => ?_,
    hr'.pages.freeGroup_congr hr.pages hw.small hgroups, ?_, ?_⟩
  · rw [hr.isZone_iff, hr'.isZone_iff, hu.descs.mem_iff]
  · obtain ⟨hzd, hzd'⟩ := hmem hz
    have h := hr.zones z hzd
    have h' := hr'.zones z hzd'
    refine ⟨(h'.page.trans ?_).trans h.page.symm, (h'.chunkSize.trans ?_).trans h.chunkSize.symm⟩
    · rw [hu.page z hzd]
    · rw [hu.idx z hzd]
  · obtain ⟨hzd, hzd'⟩ := hmem hz
    rw [hr'.freeChunk_iff hzd', hr.freeChunk_iff hzd, (hu.free z hzd).mem_iff]
  · rw [hr'.counts i hi, hr.counts i hi, hu.freeCount hi]
  · rw [hr'.pages.table.freeCount, hr.pages.table.freeCount, hcount]
  · obtain ⟨_, _, hst, rfl, rfl⟩ := hr.getStats hw A
    obtain ⟨_, _, hst', rfl, rfl⟩ := hr'.getStats hw' A
    refine ⟨_, hst, ?_⟩
    rw [hst', Heap.stats, Heap.stats, Heap.pageStats, Heap.pageStats, hu.zoneStats, hcount]

/-- Heaps with the same zones and the same free groups look the same. -/
theorem HeapRep.same {H' : Heap} (hr : HeapRep L H s) (hr' : HeapRep L H' s')
    (hw : H.Wf L r live held) (hw' : H'.Wf L r live held) (A : Arena L r) (hu : H.Unchanged H')
    (hgroups : ∀ g, g ∈ H'.pages.freeGroups ↔ g ∈ H.pages.freeGroups)
    (hcount : H'.pages.freeCount = H.pages.freeCount) : Same s s' :=
  hr.same_of_alike hr' hw hw' A hu.alike hgroups hcount

/-- In every run on regions that do not touch an allocation that fails leaves everything as it was.
-/
theorem Run.same_of_failed (hg : GoodArguments regions ps) (hps : ps ≤ 4096)
    (hu : Untouching regions) (hinit : init regions ps s₀ = .ok (true, s₁))
    (hrun : Run s₁ s blocks) (hcall : Liballocator.allocate size s = .ok (0, s')) : Same s s' := by
  have S := (hg.usable_of_init hinit).site hg.few hps
  have hco₀ := (hg.usable_of_init hinit).coalesced_initial hu S.inv S.count
  obtain ⟨H, hr, hv, hco⟩ := hg.running_untouching hps hu hinit hrun
  obtain ⟨hptr, hr', -⟩ := (hr.allocate hv S.toArena size).of_run_eq hcall
  rcases hv.allocate S.toArena size with ⟨-, hv', hsame⟩ | ⟨hne, -⟩
  · have hused := hv'.wf.used
    rw [hsame.map_pageGroup] at hused
    obtain ⟨hgroups, hcount⟩ := (hv'.coalesced S hco₀).freeGroups_congr hco hv'.wf.inv hv.wf.inv
      hv'.wf.pages_count_lt (hv'.wf.count.trans hv.wf.count.symm) (hused.trans hv.wf.used.symm)
    exact hr.same hr' hv.wf hv'.wf S.toArena hsame hgroups hcount
  · exact absurd hptr.symm hne

end Leaks

section Separate

attribute [local instance] lp64

/-- A block of eight bytes is allocated and released. -/
theorem Run.noLeak_separate : ∃ s₁ s₂ s ptr,
    init separateRegions 256 blankState = .ok (true, s₁) ∧ ptr ≠ 0 ∧
    Liballocator.allocate 8 s₁ = .ok (ptr, s₂) ∧ Liballocator.release ptr s₂ = .ok (⟨⟩, s) ∧
    Run s₁ s [] ∧
    (∀ z, s.IsZone z ↔ z = initialZone) ∧
    (∀ c, s.ChunkOf initialZone c → s.FreeChunk initialZone c) ∧
    (∀ b, FreeGroup s.pages b ↔ FreeGroup s₁.pages b) ∧
    s.pages.self.freePagesCount = s₁.pages.self.freePagesCount := by
  obtain ⟨s₁, s₂, ptr, hinit, hcall, hne⟩ := exists_calls_separate blankState
  have hrun := Run.start.allocate hcall
  rw [if_neg hne] at hrun
  obtain ⟨s, hcall'⟩ := hrun.release_returns (separateRegions_usable.site (by decide) (by decide))
    (separateRegions_good.running (by decide) hinit .start) List.mem_cons_self
  have hrun' := hrun.release List.mem_cons_self hcall'
  rw [List.erase_cons_head] at hrun'
  exact ⟨s₁, s₂, s, ptr, hinit, hne, hcall, hcall', hrun', (Run.noLeak_of_init
    separateRegions_good (by decide) separateRegions_untouching hinit hrun').2 rfl⟩

/-- Three blocks of 64 bytes use up the chunks for descriptors but one, and a block of one page
leaves one free page: a block of eight bytes needs two new zones, and there is a page for the first
one only. -/
theorem exists_failed_separate : ∃ s₁ s s' blocks,
    init separateRegions 256 blankState = .ok (true, s₁) ∧ Run s₁ s blocks ∧
      Liballocator.allocate 8 s = .ok (0, s') := by
  obtain ⟨s₁, hinit, hr⟩ := separateRegions_usable.exists_init (by decide) (by decide)
    (show _ = some ⟨2, 1⟩ by decide) blankState
  have S := separateRegions_usable.site (by decide) (by decide)
  have A := S.toArena
  have hv := S.serves_initial (g := ⟨2, 1⟩) (Prod.ext (by decide) rfl)
  have hr : HeapRep (layout separateRegions_fitting) separateHeap s₁ := hr
  obtain ⟨s₂, h₂, hr₂, hv₂⟩ := Run.start.exists_allocate hr hv A
    (show (separateHeap.allocate _ 64).1 ≠ 0 by decide)
  obtain ⟨s₃, h₃, hr₃, hv₃⟩ := h₂.exists_allocate hr₂ hv₂ A
    (show (Heap.allocate _ _ 64).1 ≠ 0 by decide)
  obtain ⟨s₄, h₄, hr₄, hv₄⟩ := h₃.exists_allocate hr₃ hv₃ A
    (show (Heap.allocate _ _ 64).1 ≠ 0 by decide)
  obtain ⟨s₅, h₅, hr₅, hv₅⟩ := h₄.exists_allocate hr₄ hv₄ A
    (show (Heap.allocate _ _ 256).1 ≠ 0 by decide)
  obtain ⟨ptr, s₆, hcall, hptr, -⟩ := hr₅.allocate hv₅ A 8
  rw [show (Heap.allocate _ _ 8).1 = 0 by decide] at hptr
  exact ⟨s₁, s₅, s₆, _, hinit, h₅, hptr ▸ hcall⟩

/-- The failed allocation after a zone for descriptors has been made. -/
theorem Run.same_separate : ∃ s₁ s s' blocks,
    init separateRegions 256 blankState = .ok (true, s₁) ∧ Run s₁ s blocks ∧
      Liballocator.allocate 8 s = .ok (0, s') ∧ Same s s' := by
  obtain ⟨s₁, s, s', blocks, hinit, hrun, hcall⟩ := exists_failed_separate
  exact ⟨s₁, s, s', blocks, hinit, hrun, hcall, Run.same_of_failed separateRegions_good (by decide)
    separateRegions_untouching hinit hrun hcall⟩

end Separate

end Liballocator
