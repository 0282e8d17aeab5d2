import Liballocator.Zones.Restore
import Liballocator.Zones.Invalid
import Liballocator.Pages.Contiguous

/-!
# Large blocks

A large block is a run of free pages of one region.  When no two regions touch, an allocation of a
large block fails only if there is no such run (`Run.canAllocate_iff_run`), and there is one if many
pages are free, compared to the numbers of the zones, of the large blocks and of the regions
(`Run.canAllocate_of_free`).  It is released by any address of its first page
(`Run.release_firstPage`).
-/

namespace Liballocator

open Program Tiling RunPool

section Large

variable [Platform]

variable {regions : List Region} {ps size : ℕ} {s₀ s₁ s : State} {blocks : List Block}

/-- In every run on regions that do not touch a large block can be allocated exactly when there are
enough free pages of one region in a row. -/
theorem Run.canAllocate_iff_run (hg : GoodArguments regions ps) (hps : ps ≤ 4096)
    (hu : Untouching regions) (hinit : init regions ps s₀ = .ok (true, s₁))
    (hrun : Run s₁ s blocks) (hpos : 0 < size) (hs : ¬Small ps size) :
    s.CanAllocate size ↔
      ∃ first, IsRun s.pages.FreePage s.pages.SameRegion ⟨first, (size + ps - 1) / ps⟩ := by
  have h := hg.usable_of_init hinit
  have S := h.site hg.few hps
  obtain ⟨H, hr, hv, hco⟩ := hg.running_untouching hps hu hinit hrun
  have hmax : ∀ g ∈ H.pages.freeGroups, MaximalRun s.pages.FreePage s.pages.SameRegion g :=
    fun g hgf => PageRep.maximalRun h.toFitting hu hr.pages S.small (hco g hgf)
  have hpages : 0 < (size + ps - 1) / ps := by
    have hps0 : 0 < ps := h.pageSize.pos
    exact Nat.div_pos (by omega) hps0
  have hL : (layout h.toFitting).pageSize = ps := rfl
  rw [hr.canAllocate_iff hv S.toArena, hv.exists_block_iff S.toArena hpos, hL, if_neg hs]
  constructor
  · rintro ⟨g, hgf, hle⟩
    exact ⟨g.first, .of_maximalRun (hmax g hgf) hle⟩
  · rintro ⟨first, hr'⟩
    exact hr'.exists_maximalRun hpages hmax fun i hi => (hr.pages.freePage_iff S.small i).mpr hi

/-- In every run on regions that do not touch a large block of `n` pages can be allocated if there
are more than `n - 1` free pages for every zone, for every large block and for every region. -/
theorem Run.canAllocate_of_free (hg : GoodArguments regions ps) (hps : ps ≤ 4096)
    (hu : Untouching regions) (hinit : init regions ps s₀ = .ok (true, s₁))
    (hrun : Run s₁ s blocks) (hpos : 0 < size) (hs : ¬Small ps size) {zones : List ℕ}
    (hzones : ∀ z, s.IsZone z → z ∈ zones)
    (hfree : ((size + ps - 1) / ps - 1) *
      (zones.length + (blocks.filter fun b => ¬Small ps b.size).length +
        s.pages.self.regionsInfo.length) < s.pages.self.freePagesCount) : s.CanAllocate size := by
  have h := hg.usable_of_init hinit
  have S := h.site hg.few hps
  obtain ⟨H, hr, hv, hco⟩ := hg.running_untouching hps hu hinit hrun
  have hw := hv.wf
  -- the groups in use are the reserved one, the pages of the zones and the large blocks
  have hlen := h.toFitting.length_freeGroups_le hu hw.inv hw.count hco
    (hw.used.trans (List.perm_append_singleton _ _).symm)
  have hdescs : H.descs.length ≤ zones.length :=
    (hw.nodup.subperm fun d hd => hzones d (hr.isZone_iff.mpr hd)).length_le
  rw [List.append_nil, List.length_append, List.length_map, blockGroups, List.length_map] at hlen
  rw [hr.pages.table.freeCount, hr.pages.length_regionsInfo h.toFitting] at hfree
  have hle : H.pages.freeGroups.length ≤ zones.length +
      (blocks.filter fun b => ¬Small ps b.size).length + (accepted ps regions).length :=
    hlen.trans (Nat.add_le_add_right (Nat.add_le_add_right hdescs _) _)
  obtain ⟨g, hgf, hlt⟩ := Pages.exists_freeGroup_of_lt hfree hle
  have hL : (layout h.toFitting).pageSize = ps := rfl
  rw [hr.canAllocate_iff hv S.toArena, hv.exists_block_iff S.toArena hpos, hL, if_neg hs]
  exact ⟨g, hgf, Nat.le_of_pred_lt (hlt.trans_le (cut_size_le g))⟩

/-! ### Addresses in the first page -/

/-- `getPage` looks at the page of the address only. -/
theorem PageAllocator.getPage_congr {p : PageState} {x y : ℕ}
    (h : alignDown x p.self.pageSize = alignDown y p.self.pageSize) :
    getPage x p = getPage y p := by
  simp only [getPage, get_bind_run, h]

omit [Platform] in
theorem ZoneAllocator.callPageAllocator_congr {α : Type} {x y : PageM α}
    (h : x s.pages = y s.pages) : callPageAllocator x s = callPageAllocator y s := by
  unfold callPageAllocator
  simp only [get_bind_run]
  split
  · rfl
  · change within _ _ x s = within _ _ y s
    unfold within
    rw [h]

/-- Two addresses of one page that are not chunks are released alike. -/
theorem HeapRep.release_congr {L : Layout} {r : Group} {a₀ : Pages} {H : Heap}
    {leaked : List Group} {x y : ℕ} (h : HeapRep L H s) (hv : Serves L r a₀ H blocks leaked)
    (hL : L.Sound) (hx : x ≠ 0) (hy : y ≠ 0) (hfx : H.findZone L x = none)
    (hfy : H.findZone L y = none) (hpage : alignDown x L.pageSize = alignDown y L.pageSize) :
    ZoneAllocator.release x s = ZoneAllocator.release y s := by
  have hnot : ∀ c, c ≠ 0 → H.findZone L c = none →
      ZoneAllocator.deallocateChunk c s = .ok (false, s) := by
    intro c hc hfind
    obtain ⟨_, _, hcall, rfl, hs⟩ := h.deallocate_none hv.wf hL hc hfind
    exact hs ▸ hcall
  have hps : s.pages.self.pageSize = L.pageSize := by
    rw [h.pages.config]
  rw [← hps] at hpage
  simp only [ZoneAllocator.release, if_neg hx, if_neg hy, bind_of_run_eq (hnot x hx hfx),
    bind_of_run_eq (hnot y hy hfy)]
  exact bind_congr_run
    (ZoneAllocator.callPageAllocator_congr (PageAllocator.getPage_congr hpage))

/-- In every run the release of an address in the first page of a large block is the release of the
block. -/
theorem Run.release_firstPage {b : Block} {ptr : ℕ} (hg : GoodArguments regions ps)
    (hps : ps ≤ 4096) (hinit : init regions ps s₀ = .ok (true, s₁)) (hrun : Run s₁ s blocks)
    (hb : b ∈ blocks) (hs : ¬Small ps b.size) (hge : b.ptr ≤ ptr) (hlt : ptr < b.ptr + ps) :
    ∃ s', Liballocator.release b.ptr s = .ok (⟨⟩, s') ∧
      Liballocator.release ptr s = .ok (⟨⟩, s') := by
  have h := hg.usable_of_init hinit
  have S := h.site hg.few hps
  obtain ⟨H, leaked, hr, hv, -⟩ := hg.running hps hinit hrun
  have hw := hv.wf
  obtain ⟨hi, hpage⟩ := hv.page_large hb hs
  have haddr := hv.addr b hb hs
  have hpos := hv.ptr_ne_zero S.toArena hb
  have hfits := h.toFitting.addr_add_lt hi
  rw [haddr] at hfits
  -- both addresses lie in the first page of the block
  have halign : ∀ x, b.ptr ≤ x → x < b.ptr + ps → alignDown x ps = b.ptr := by
    intro x hxge hxlt
    have hdvd := h.toFitting.addr_dvd hi
    rw [haddr] at hdvd
    exact (alignDown_eq_iff h.pageSize (hxlt.trans hfits) hdvd).mpr ⟨hxge, by omega⟩
  have hfind : H.findZone (layout h.toFitting) ptr = none := by
    refine hw.findZone_none S.sound fun d hd hdge hdlt => ?_
    have hap := S.sound.addr_apart _ (hw.fits d hd).page_lt _ hi (hpage d hd)
    rw [haddr] at hap
    have hL : (layout h.toFitting).pageSize = ps := rfl
    omega
  obtain ⟨⟨⟩, s', hcall, -⟩ := hr.release hv S.toArena S.placed hb
  refine ⟨s', hcall, (hr.release_congr hv S.sound ?_ hpos hfind
    (hv.findZone_none S.toArena hb hs) ?_).trans hcall⟩
  · omega
  · exact (halign ptr hge hlt).trans (halign b.ptr le_rfl (by omega)).symm

end Large

section Separate

attribute [local instance] lp64

/-- After `init` a block of 300 bytes needs two free pages of one region. -/
theorem Run.canAllocate_iff_run_separate : ∃ s₁,
    init separateRegions 256 blankState = .ok (true, s₁) ∧ (s₁.CanAllocate 300 ↔
      ∃ first, IsRun s₁.pages.FreePage s₁.pages.SameRegion ⟨first, (300 + 256 - 1) / 256⟩) := by
  obtain ⟨s₁, hinit, -⟩ := separateRegions_usable.exists_init (by decide) (by decide)
    (show _ = some ⟨2, 1⟩ by decide) blankState
  exact ⟨s₁, hinit, Run.canAllocate_iff_run separateRegions_good (by decide)
    separateRegions_untouching hinit .start (by decide) (by decide)⟩

/-- After `init` there is a free page for a block of 200 bytes. -/
theorem Run.canAllocate_of_free_separate : ∃ s₁,
    init separateRegions 256 blankState = .ok (true, s₁) ∧ s₁.CanAllocate 200 := by
  obtain ⟨s₁, hinit, hr⟩ := separateRegions_usable.exists_init (by decide) (by decide)
    (show _ = some ⟨2, 1⟩ by decide) blankState
  have hr : HeapRep (layout separateRegions_fitting) separateHeap s₁ := hr
  have hz : ∀ z, s₁.IsZone z → z ∈ [initialZone] := fun z hz => hr.isZone_iff.mp hz
  refine ⟨s₁, hinit, Run.canAllocate_of_free separateRegions_good (by decide)
    separateRegions_untouching hinit .start (by decide) (by decide) hz ?_⟩
  rw [hr.pages.table.freeCount, hr.pages.length_regionsInfo separateRegions_fitting]
  decide

/-- A block of one page is released by its last address. -/
theorem Run.release_firstPage_separate : ∃ s₁ s b s',
    init separateRegions 256 blankState = .ok (true, s₁) ∧ Run s₁ s [b] ∧ b.size = 256 ∧
      Liballocator.release b.ptr s = .ok (⟨⟩, s') ∧
      Liballocator.release (b.ptr + 255) s = .ok (⟨⟩, s') := by
  obtain ⟨s₁, hinit, hr⟩ := separateRegions_usable.exists_init (by decide) (by decide)
    (show _ = some ⟨2, 1⟩ by decide) blankState
  have S := separateRegions_usable.site (by decide) (by decide)
  have hv := S.serves_initial (g := ⟨2, 1⟩) (Prod.ext (by decide) rfl)
  have hr : HeapRep (layout separateRegions_fitting) separateHeap s₁ := hr
  obtain ⟨ptr, s, hcall, hptr, -⟩ := hr.allocate hv S.toArena 256
  have hne : ptr ≠ 0 := hptr ▸ show (separateHeap.allocate _ 256).1 ≠ 0 by decide
  have hrun : Run s₁ s [⟨ptr, 256⟩] := by
    have hstep := Run.start.allocate hcall
    rwa [if_neg hne] at hstep
  obtain ⟨s', h₁, h₂⟩ := Run.release_firstPage separateRegions_good (by decide) hinit hrun
    List.mem_cons_self (show ¬Small 256 256 by decide) (Nat.le_add_right ptr 255)
    (Nat.lt_succ_self _)
  exact ⟨s₁, s, _, s', hinit, hrun, rfl, h₁, h₂⟩

end Separate

end Liballocator
