import Liballocator.Zones.Leaks
import Liballocator.Zones.Outcome

/-!
# Temporary blocks

`Work` is what users do from some state on while they keep some of their blocks: further
allocations, releases of other blocks, and writes.  When in the end they hold the blocks they have
kept and no others, then the state does not depend on what they have done (`Work.same_of_kept`):
the zones and their free chunks, the free groups and the statistics are determined by the state at
the beginning and by the blocks that were kept.

The reason is that a zone stays as long as it carries a block that is kept, and that it is given up
as soon as it carries nothing.  The heap that is left when everything but the kept blocks is
released at once is within every heap on the way.
-/

namespace Liballocator

open Program LinkedList Tiling Ownership

section Restore

variable [Platform]

/-- An allocation of the size succeeds. -/
def State.CanAllocate (s : State) (size : ℕ) : Prop :=
  ∃ ptr s', Liballocator.allocate size s = .ok (ptr, s') ∧ ptr ≠ 0

/-- The states that calls lead to from the state `s₀` with the blocks `blocks₀`, while the blocks
`kept` are not released; between the calls the users write to their blocks. -/
inductive Work (kept : List Block) (s₀ : State) (blocks₀ : List Block) : State → List Block → Prop
  | start : Work kept s₀ blocks₀ s₀ blocks₀
  | allocate {s s' : State} {blocks : List Block} {size ptr : ℕ} :
    Work kept s₀ blocks₀ s blocks → Liballocator.allocate size s = .ok (ptr, s') →
    Work kept s₀ blocks₀ s' (if ptr = 0 then blocks else ⟨ptr, size⟩ :: blocks)
  | release {s s' : State} {blocks : List Block} {b : Block} :
    Work kept s₀ blocks₀ s blocks → b ∈ blocks → b ∉ kept →
    Liballocator.release b.ptr s = .ok (⟨⟩, s') → Work kept s₀ blocks₀ s' (blocks.erase b)
  | write {s : State} {blocks : List Block} {m : Mem} :
    Work kept s₀ blocks₀ s blocks →
    (∀ x, (∀ b ∈ blocks, x ∉ b.bytes s.self.pageSize) → m x = s.mem x) →
    Work kept s₀ blocks₀ { s with pages := { s.pages with mem := m } } blocks

variable {L : Layout} {r : Group} {a₀ : Pages} {H H₀ H' R : Heap} {kept blocks blocks₀ : List Block}
  {leaked : List Group} {s s' s₀ : State} {ptr size : ℕ}

/-! ### Zones during the work -/

/-- A release adds no zone. -/
theorem Heap.release_within : (H.release L ptr).Within H := by
  have hw := Heap.deallocateWithin_within (H := H) (L := L) (c := ptr) H.descs.length
  unfold Heap.release
  split_ifs with h0
  · exact .refl
  · split
    next H₁ he =>
      rw [Heap.deallocate] at he
      rwa [he] at hw
    next H₁ he =>
      rw [Heap.deallocate] at he
      rw [he] at hw
      split
      next => exact hw
      next i _ =>
        unfold Heap.releasePage
        split
        next => exact hw
        next g _ => exact Heap.withPages_within.trans hw

/-- An allocation keeps the zones. -/
theorem Serves.within_allocate (hv : Serves L r a₀ H blocks leaked) (A : Arena L r) (size : ℕ) :
    H.Within (H.allocate L size).2 := by
  unfold Heap.allocate
  by_cases h0 : size = 0
  · rw [if_pos h0]
    exact .refl
  rw [if_neg h0]
  by_cases hs : Small L.pageSize size
  · rw [if_pos hs]
    obtain ⟨hclass, -⟩ := hs.classSize_eq A.pageSize_le
    have hlt : classSize (zoneIdx (chunkSize size)) < L.pageSize := hclass ▸ hs.2
    rcases hv.wf.allocateChunk A.sound hv.tight hv.reserve (A.idx_lt hlt) hlt A.descSize_lt with
      ⟨c, H', he, hm⟩ | ⟨H', he, hu⟩
    · rw [he]
      exact hm.within
    · have hal := hu.unchanged.alike
      rw [he]
      exact ⟨fun d hd => hal.descs.mem_iff.mp hd, hal.page, hal.idx⟩
  · rw [if_neg hs]
    rcases H.pages.allocate (ceilDiv size L.pageSize) with ⟨_ | g, a⟩
    · exact .refl
    · exact Heap.within_withPages

/-- Everything but some of the blocks is released. -/
theorem Serves.exists_released (hv : Serves L r a₀ H blocks []) (A : Arena L r)
    (hall : ∀ i < L.count, L.findPage (L.addr i) = some i) (hkept : kept.Subperm blocks) :
    ∃ R, Serves L r a₀ R kept [] ∧ R.Within H := by
  obtain ⟨l, hl, hsub⟩ := hkept
  obtain ⟨rest, hrest⟩ := hsub.exists_perm_append
  have hperm : blocks.Perm (rest ++ kept) :=
    hrest.trans (List.perm_append_comm.trans (hl.append_left rest))
  clear hrest hsub
  induction rest generalizing H blocks with
  | nil => exact ⟨H, hv.perm hperm, .refl⟩
  | cons b rest ih =>
    obtain ⟨leaked', hv', hleak⟩ := (hv.perm hperm).release A List.mem_cons_self
    rw [hleak hall, List.cons_append, List.erase_cons_head] at hv'
    obtain ⟨R, hR, hw⟩ := ih hv' (List.Perm.refl _)
    exact ⟨R, hR, hw.trans Heap.release_within⟩

/-- During the work the zones that carry the kept blocks stay. -/
theorem Work.simulation (h : Work kept s₀ blocks₀ s blocks) (S : Site L r a₀)
    (hall : ∀ i < L.count, L.findPage (L.addr i) = some i) (hr₀ : HeapRep L H₀ s₀)
    (hv₀ : Serves L r a₀ H₀ blocks₀ []) (hR : Serves L r a₀ R kept []) (hw₀ : R.Within H₀)
    (hkept : kept ⊆ blocks₀) :
    ∃ H, HeapRep L H s ∧ Serves L r a₀ H blocks [] ∧ R.Within H ∧ kept ⊆ blocks := by
  induction h with
  | start => exact ⟨H₀, hr₀, hv₀, hw₀, hkept⟩
  | @allocate s s' blocks size ptr _ hcall ih =>
    obtain ⟨H, hr, hv, hw, hsub⟩ := ih
    obtain ⟨rfl, hr', -⟩ := (hr.allocate hv S.toArena size).of_run_eq hcall
    have hw' := hw.trans (hv.within_allocate S.toArena size)
    rcases hv.allocate S.toArena size with ⟨h0, hv', -⟩ | ⟨hne, hv'⟩
    · rw [if_pos h0]
      exact ⟨_, hr', hv', hw', hsub⟩
    · rw [if_neg hne]
      exact ⟨_, hr', hv', hw', fun b hb => List.mem_cons_of_mem _ (hsub hb)⟩
  | @release s s' blocks b _ hb hnot hcall ih =>
    obtain ⟨H, hr, hv, hw, hsub⟩ := ih
    obtain ⟨hr', -⟩ := (hr.release hv S.toArena S.placed hb).of_run_eq hcall
    obtain ⟨leaked', hv', hleak⟩ := hv.release S.toArena hb
    obtain rfl := hleak hall
    have hsub' : kept ⊆ blocks.erase b := by
      intro c hc
      have hne : c ≠ b := by
        rintro rfl
        exact hnot hc
      exact (List.mem_erase_of_ne hne).mpr (hsub hc)
    have hlive : blockChunks L kept ⊆ blockChunks L (blocks.erase b) := by
      intro c hc
      obtain ⟨b', hb', hs, hptr⟩ := mem_blockChunks.mp hc
      exact mem_blockChunks.mpr ⟨b', hsub' hb', hs, hptr⟩
    -- the zones that carry the kept blocks are not given up
    refine ⟨_, hr', hv', ?_, hsub'⟩
    exact Heap.Within.within hv.wf S.sound hR.wf hR.tight hw hv'.wf hv'.tight Heap.release_within
      hlive
  | @write s blocks m _ hm ih =>
    obtain ⟨H, hr, hv, hw, hsub⟩ := ih
    exact ⟨H, hr.write hv S hm, hv, hw, hsub⟩

/-- When only the kept blocks are left, the heap is the one that carries them. -/
theorem Serves.alike (hv : Serves L r a₀ H blocks []) (hR : Serves L r a₀ R kept [])
    (hL : L.Sound) (hw : R.Within H) (hblocks : blocks.Perm kept) :
    R.Alike H ∧ R.pages.used.Perm H.pages.used := by
  have hlive := (blockChunks_perm (L := L) hblocks).1
  have hal := Heap.Within.alike hv.wf hL hR.wf hR.tight hw hv.wf hv.tight .refl
    fun c => hlive.mem_iff.symm
  refine ⟨hal, hR.wf.used.trans (.trans (.cons r ?_) hv.wf.used.symm)⟩
  apply hal.map_pageGroup.append
  rw [List.append_nil, List.append_nil]
  exact (blockChunks_perm (L := L) hblocks).2.symm

/-- Heaps that hold the same groups have the same free groups. -/
theorem Serves.freeGroups_congr {blocks' : List Block} (hv : Serves L r a₀ H blocks [])
    (hv' : Serves L r a₀ H' blocks' []) (S : Site L r a₀) (hco₀ : a₀.Coalesced L)
    (hused : H'.pages.used.Perm H.pages.used) :
    (∀ g, g ∈ H'.pages.freeGroups ↔ g ∈ H.pages.freeGroups) ∧
      H'.pages.freeCount = H.pages.freeCount :=
  (hv'.coalesced S hco₀).freeGroups_congr (hv.coalesced S hco₀) hv'.wf.inv hv.wf.inv
    hv'.wf.pages_count_lt (hv'.wf.count.trans hv.wf.count.symm) hused

/-! ### Every run -/

variable {regions : List Region} {ps : ℕ} {s₁ t t' : State} {l l' : List Block}

/-- In a run on regions that do not touch the work leads to a heap that carries the blocks that were
kept. -/
theorem Work.exists_heap (hg : GoodArguments regions ps) (hps : ps ≤ 4096)
    (hu : Untouching regions) (hinit : init regions ps s₀ = .ok (true, s₁))
    (hrun : Run s₁ s blocks) (hkept : kept.Subperm blocks) :
    ∃ R, Serves (layout (hg.fitting_of_init hinit)) (reservedGroup (accepted ps regions) ps)
        (Pages.initial (accepted ps regions) ps) R kept [] ∧
      ∀ {t l}, Work kept s blocks t l → l.Perm kept →
        ∃ H, HeapRep (layout (hg.fitting_of_init hinit)) H t ∧
          Serves (layout (hg.fitting_of_init hinit)) (reservedGroup (accepted ps regions) ps)
            (Pages.initial (accepted ps regions) ps) H l [] ∧
          R.Alike H ∧ R.pages.used.Perm H.pages.used := by
  have h := hg.usable_of_init hinit
  have S := h.site hg.few hps
  have hall : ∀ i < (layout (hg.fitting_of_init hinit)).count, _ := fun i hi =>
    h.findPage_addr (h.unmasked hu) hi
  obtain ⟨H, hr, hv, -⟩ := hg.running_untouching hps hu hinit hrun
  obtain ⟨R, hR, hw⟩ := hv.exists_released S.toArena hall hkept
  refine ⟨R, hR, fun {t l} hwork hl => ?_⟩
  obtain ⟨K, hrK, hvK, hwK, -⟩ := hwork.simulation S hall hr hv hR hw hkept.subset
  exact ⟨K, hrK, hvK, hvK.alike hR S.sound hwK hl⟩

/-- Whatever the users do while they keep some of their blocks, when they hold only these blocks
again the state looks the same. -/
theorem Work.same_of_kept (hg : GoodArguments regions ps) (hps : ps ≤ 4096)
    (hu : Untouching regions) (hinit : init regions ps s₀ = .ok (true, s₁))
    (hrun : Run s₁ s blocks) (hkept : kept.Subperm blocks) (h : Work kept s blocks t l)
    (h' : Work kept s blocks t' l') (hl : l.Perm kept) (hl' : l'.Perm kept) : Same t t' := by
  have S := (hg.usable_of_init hinit).site hg.few hps
  have hco₀ := (hg.usable_of_init hinit).coalesced_initial hu S.inv S.count
  obtain ⟨R, -, hwork⟩ := Work.exists_heap hg hps hu hinit hrun hkept
  obtain ⟨K, hr, hv, hal, hused⟩ := hwork h hl
  obtain ⟨K', hr', hv', hal', hused'⟩ := hwork h' hl'
  obtain ⟨hgroups, hcount⟩ := hv.freeGroups_congr hv' S hco₀ (hused'.symm.trans hused)
  exact hr.same_of_alike hr' hv.wf hv'.wf S.toArena (hal.symm.trans hal') hgroups hcount

/-! ### What can be allocated -/

theorem HeapRep.canAllocate_iff (hr : HeapRep L H s) (hv : Serves L r a₀ H blocks leaked)
    (A : Arena L r) (size : ℕ) : s.CanAllocate size ↔ (H.allocate L size).1 ≠ 0 := by
  obtain ⟨ptr, s', hcall, rfl, -⟩ := hr.allocate hv A size
  constructor
  · rintro ⟨ptr, s'', hcall', hne⟩
    cases hcall.symm.trans hcall'
    exact hne
  · exact fun hne => ⟨_, s', hcall, hne⟩

/-- Heaps that are alike and have the same free groups can allocate the same sizes. -/
theorem Serves.allocate_ne_zero_congr {leaked' : List Group} {blocks' : List Block}
    (hv : Serves L r a₀ H blocks leaked) (hv' : Serves L r a₀ H' blocks' leaked') (A : Arena L r)
    (hal : H.Alike H') (hgroups : ∀ g, g ∈ H'.pages.freeGroups ↔ g ∈ H.pages.freeGroups)
    (hcount : H'.pages.freeCount = H.pages.freeCount) (size : ℕ) :
    (H'.allocate L size).1 ≠ 0 ↔ (H.allocate L size).1 ≠ 0 := by
  rcases Nat.eq_zero_or_pos size with rfl | hpos
  · exact Iff.rfl
  rw [hv'.exists_block_iff A hpos, hv.exists_block_iff A hpos]
  by_cases hs : Small L.pageSize size
  · have hlt : classSize (zoneIdx (chunkSize size)) < L.pageSize :=
      (hs.classSize_eq A.pageSize_le).1 ▸ hs.2
    rw [if_pos hs, if_pos hs, Heap.Affordable, Heap.Affordable, hal.freeCount (A.idx_lt hlt),
      hal.freeCount descIdx_lt, hcount]
  · simp only [if_neg hs, hgroups]

/-- Temporary blocks leave no trace: when the users hold the same blocks as before, then everything
is as before, and the same sizes can be allocated. -/
theorem Work.restores (hg : GoodArguments regions ps) (hps : ps ≤ 4096) (hu : Untouching regions)
    (hinit : init regions ps s₀ = .ok (true, s₁)) (hrun : Run s₁ s blocks)
    (h : Work blocks s blocks t l) (hl : l.Perm blocks) :
    Same s t ∧ ∀ size, t.CanAllocate size ↔ s.CanAllocate size := by
  have S := (hg.usable_of_init hinit).site hg.few hps
  have hco₀ := (hg.usable_of_init hinit).coalesced_initial hu S.inv S.count
  obtain ⟨R, -, hwork⟩ := Work.exists_heap hg hps hu hinit hrun (List.Subperm.refl blocks)
  obtain ⟨H, hr, hv, hal, hused⟩ := hwork .start (List.Perm.refl _)
  obtain ⟨K, hrK, hvK, halK, husedK⟩ := hwork h hl
  obtain ⟨hgroups, hcount⟩ := hv.freeGroups_congr hvK S hco₀ (husedK.symm.trans hused)
  have hHK := hal.symm.trans halK
  refine ⟨hr.same_of_alike hrK hv.wf hvK.wf S.toArena hHK hgroups hcount, fun size => ?_⟩
  rw [hrK.canAllocate_iff hvK S.toArena, hr.canAllocate_iff hv S.toArena]
  exact hv.allocate_ne_zero_congr hvK S.toArena hHK hgroups hcount size

end Restore

section Separate

attribute [local instance] lp64

/-- Two blocks of different sizes on two regions. -/
theorem exists_run_separate_two : ∃ s₁ s p q, init separateRegions 256 blankState = .ok (true, s₁) ∧
    Run s₁ s [⟨q, 100⟩, ⟨p, 8⟩] := by
  obtain ⟨s₁, hinit, hr⟩ := separateRegions_usable.exists_init (by decide) (by decide)
    (show _ = some ⟨2, 1⟩ by decide) blankState
  have S := separateRegions_usable.site (by decide) (by decide)
  have hv := S.serves_initial (g := ⟨2, 1⟩) (Prod.ext (by decide) rfl)
  have hr : HeapRep (layout separateRegions_fitting) separateHeap s₁ := hr
  obtain ⟨s₂, h₂, hr₂, hv₂⟩ := Run.start.exists_allocate hr hv S.toArena
    (show (separateHeap.allocate _ 8).1 ≠ 0 by decide)
  obtain ⟨s₃, h₃, -⟩ := h₂.exists_allocate hr₂ hv₂ S.toArena
    (show (Heap.allocate _ _ 100).1 ≠ 0 by decide)
  exact ⟨s₁, s₃, _, _, hinit, h₃⟩

/-- Two blocks are released in the one order and in the other. -/
theorem Work.same_of_kept_separate : ∃ s₁ s b b' t t',
    init separateRegions 256 blankState = .ok (true, s₁) ∧ Run s₁ s [b', b] ∧
      Work [] s [b', b] t [] ∧ Work [] s [b', b] t' [] ∧ Same t t' := by
  obtain ⟨s₁, s, p, q, hinit, hrun⟩ := exists_run_separate_two
  have S := separateRegions_usable.site (by decide) (by decide)
  have h₀ := separateRegions_good.running (by decide) hinit .start
  have herase : ([⟨q, 100⟩, ⟨p, 8⟩] : List Block).erase ⟨p, 8⟩ = [⟨q, 100⟩] := by simp
  have herase' : ([⟨q, 100⟩, ⟨p, 8⟩] : List Block).erase ⟨q, 100⟩ = [⟨p, 8⟩] := by simp
  have hfirst : ∀ b ∈ ([⟨q, 100⟩, ⟨p, 8⟩] : List Block), ∃ u,
      Run s₁ u (([⟨q, 100⟩, ⟨p, 8⟩] : List Block).erase b) ∧
        Work [] s [⟨q, 100⟩, ⟨p, 8⟩] u (([⟨q, 100⟩, ⟨p, 8⟩] : List Block).erase b) := by
    intro b hb
    obtain ⟨u, hcall⟩ := hrun.release_returns S h₀ hb
    exact ⟨u, hrun.release hb hcall, Work.start.release hb List.not_mem_nil hcall⟩
  have hlast : ∀ {u b}, Run s₁ u [b] → Work [] s [⟨q, 100⟩, ⟨p, 8⟩] u [b] →
      ∃ t, Work [] s [⟨q, 100⟩, ⟨p, 8⟩] t [] := by
    intro u b hu hwork
    obtain ⟨t, hcall⟩ := hu.release_returns S h₀ List.mem_cons_self
    have h := hwork.release List.mem_cons_self List.not_mem_nil hcall
    rw [List.erase_cons_head] at h
    exact ⟨t, h⟩
  obtain ⟨u, hu, hwork⟩ := hfirst ⟨p, 8⟩ (by simp)
  obtain ⟨u', hu', hwork'⟩ := hfirst ⟨q, 100⟩ (by simp)
  rw [herase] at hu hwork
  rw [herase'] at hu' hwork'
  obtain ⟨t, ht⟩ := hlast hu hwork
  obtain ⟨t', ht'⟩ := hlast hu' hwork'
  exact ⟨s₁, s, _, _, t, t', hinit, hrun, ht, ht', Work.same_of_kept separateRegions_good
    (by decide) separateRegions_untouching hinit hrun List.nil_subperm ht ht' (.refl _)
    (.refl _)⟩

/-- A block is allocated and released while another one is kept. -/
theorem Work.restores_separate : ∃ s₁ s b t, init separateRegions 256 blankState = .ok (true, s₁) ∧
    Run s₁ s [b] ∧ Work [b] s [b] t [b] ∧ Same s t ∧
      ∀ size, t.CanAllocate size ↔ s.CanAllocate size := by
  obtain ⟨s₁, s, p, hinit, hrun⟩ := exists_run_separate_eight
  have S := separateRegions_usable.site (by decide) (by decide)
  have h₀ := separateRegions_good.running (by decide) hinit .start
  obtain ⟨ptr, u, hcall⟩ := hrun.allocate_returns S h₀ 100
  have hu := hrun.allocate hcall
  have hstart : Work [⟨p, 8⟩] s [⟨p, 8⟩] s [⟨p, 8⟩] := .start
  have hwork := hstart.allocate hcall
  obtain ⟨t, ht⟩ : ∃ t, Work [⟨p, 8⟩] s [⟨p, 8⟩] t [⟨p, 8⟩] := by
    by_cases h0 : ptr = 0
    · rw [if_pos h0] at hwork
      exact ⟨u, hwork⟩
    · rw [if_neg h0] at hu hwork
      obtain ⟨t, hcall'⟩ := hu.release_returns S h₀ List.mem_cons_self
      have h := hwork.release List.mem_cons_self (by simp) hcall'
      rw [List.erase_cons_head] at h
      exact ⟨t, h⟩
  exact ⟨s₁, s, _, t, hinit, hrun, ht, Work.restores separateRegions_good (by decide)
    separateRegions_untouching hinit hrun ht (.refl _)⟩

end Separate

end Liballocator
