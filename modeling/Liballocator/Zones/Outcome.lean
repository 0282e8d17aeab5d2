import Liballocator.Zones.WellFormed
import Liballocator.Pages.Exact

/-!
# When an allocation succeeds

A chunk needs a free chunk of its class, or pages for a new zone: one page, and a second one when
the new zone would use up the reserve of chunks for descriptors.  Whether there are enough can be
read off three counters (`Heap.Wf.exists_allocateChunk_iff`).
-/

namespace Liballocator

open Program Tiling

section Outcome

variable [Platform]

variable {L : Layout} {r : Group} {a₀ : Pages} {H : Heap} {live : List ℕ} {held : List Group}
  {blocks : List Block} {s s₀ s₁ : State} {i size : ℕ}

/-! ### Pages -/

omit [Platform] in
/-- A single page can be allocated as long as a page is free. -/
theorem Pages.Inv.exists_page_iff {a : Pages} (hi : a.Inv) :
    (∃ g, (a.allocate 1).1 = some g) ↔ 1 ≤ a.freeCount := by
  rw [hi.exists_allocate_iff_cut]
  constructor
  · rintro ⟨-, g, hg, hle⟩
    exact hle.trans (List.single_le_sum (by simp) _
      (List.mem_map_of_mem (f := fun g => (cut g).size) hg))
  · intro hle
    obtain ⟨n, hn, hpos⟩ := List.exists_mem_ne_zero_of_sum_ne_zero (Nat.ne_of_gt hle)
    obtain ⟨g, hg, rfl⟩ := List.mem_map.mp hn
    exact ⟨Nat.one_pos, g, hg, Nat.pos_of_ne_zero hpos⟩

namespace Heap

/-- Enough pages for a new zone of a class. -/
def Affordable (H : Heap) (i : ℕ) : Prop :=
  if i = descIdx then 1 ≤ H.pages.freeCount
  else 2 ≤ H.freeCount descIdx ∧ 1 ≤ H.pages.freeCount ∨ 2 ≤ H.pages.freeCount

/-- A new zone can be made when there is a page for it. -/
theorem newZone_isSome_iff {z : ℕ} (hget : H.getFreeZone descIdx = some z) (hi : H.pages.Inv) :
    (∃ d, (H.newZone L i).1 = some d) ↔ 1 ≤ H.pages.freeCount := by
  rw [← hi.exists_page_iff]
  simp only [Heap.newZone, hget]
  rcases H.pages.allocate 1 with ⟨_ | g, a⟩ <;> simp

/-- A new zone of another class that comes after one for descriptors needs a second page. -/
theorem Wf.newZone_twice_iff (h : H.Wf L r live held) (hL : L.Sound) (ht : H.Tight L)
    (hdesc : classSize descIdx < L.pageSize) {z d : ℕ} {cs : List ℕ}
    (hget : H.getFreeZone descIdx = some z) (hfree : (H.zone z).free = d :: cs) {g : Group}
    {a : Pages} (hal : H.pages.allocate 1 = (some g, a)) {H₁ : Heap}
    (he : H.newZone L descIdx = (some d, H₁)) :
    (∃ y, (H₁.newZone L i).1 = some y) ↔ 2 ≤ H.pages.freeCount := by
  obtain ⟨he', hm⟩ := h.newZone_some hL descIdx_lt hdesc hget (fun y hy hne _ => ht y hy hne)
    hfree hal
  rw [he] at he'
  obtain rfl : H₁ = ((H.takeChunk z).withPages a).addZone L d descIdx g.first :=
    (Prod.ext_iff.mp he').2
  have hcount := h.inv.freeCount_allocate (n := 1) (g := g) (by rw [hal])
  rw [hal] at hcount
  have hhead : (((H.takeChunk z).withPages a).addZone L d descIdx g.first).lists descIdx =
      d :: H.lists descIdx := Function.update_self _ _ _
  rw [newZone_isSome_iff (getFreeZone_head hhead hm.free) hm.wf.inv]
  have hpages : (((H.takeChunk z).withPages a).addZone L d descIdx g.first).pages = a := rfl
  rw [hpages]
  simp only at hcount
  omega

/-- A zone can be allocated when there are enough pages. -/
theorem Wf.allocateZone_isSome_iff (h : H.Wf L r live held) (hL : L.Sound) (ht : H.Tight L)
    (hres : 1 ≤ H.freeCount descIdx) (hdesc : classSize descIdx < L.pageSize) :
    (∃ d, (H.allocateZone L i).1 = some d) ↔ H.Affordable i := by
  obtain ⟨z, hget⟩ := exists_getFreeZone hres
  obtain ⟨-, d, cs, hfree⟩ := getFreeZone_eq_some hget
  unfold Heap.allocateZone Affordable
  by_cases hfirst : i ≠ descIdx ∧ H.shouldAllocateZone descIdx
  · obtain ⟨hid, hone⟩ := hfirst
    rw [if_pos ⟨hid, hone⟩, if_neg hid]
    rw [shouldAllocateZone, if_pos rfl] at hone
    have hpage := h.inv.exists_page_iff
    rcases hal : H.pages.allocate 1 with ⟨_ | g, a⟩
    · rw [hal] at hpage
      rw [(h.newZone_undone hL ht hget hal).1]
      simp only [reduceCtorEq, exists_false, false_iff, not_or] at hpage ⊢
      omega
    · obtain ⟨he, -⟩ := h.newZone_some hL descIdx_lt hdesc hget (fun y hy hne _ => ht y hy hne)
        hfree hal
      rw [he]
      simp only
      rw [h.newZone_twice_iff hL ht hdesc hget hfree hal he]
      omega
  · rw [if_neg hfirst, newZone_isSome_iff hget h.inv]
    split_ifs with hid
    · exact Iff.rfl
    · have htwo : H.freeCount descIdx ≠ 1 := fun he => hfirst ⟨hid, by
        rw [shouldAllocateZone, if_pos rfl, he]⟩
      omega

/-- A chunk can be allocated when the class has one to spare, or when a new zone is affordable. -/
theorem Wf.exists_allocateChunk_iff (h : H.Wf L r live held) (hL : L.Sound) (ht : H.Tight L)
    (hres : 1 ≤ H.freeCount descIdx) (hi : i < maxZoneIdx) (hsize : classSize i < L.pageSize)
    (hdesc : classSize descIdx < L.pageSize) :
    (∃ c, (H.allocateChunk L i).1 = some c) ↔
      (if i = descIdx then 2 else 1) ≤ H.freeCount i ∨ H.Affordable i := by
  rw [← h.allocateZone_isSome_iff hL ht hres hdesc]
  unfold Heap.allocateChunk
  by_cases hshould : H.shouldAllocateZone i
  · rw [if_pos hshould]
    have hnot : ¬(if i = descIdx then 2 else 1) ≤ H.freeCount i := by
      unfold shouldAllocateZone at hshould
      split_ifs at hshould ⊢ <;> omega
    rcases h.allocateZone hL ht hres hi hsize hdesc with ⟨d, H', he, hm⟩ | ⟨H', he, -⟩
    · obtain ⟨c, cs, hfree⟩ := List.exists_cons_of_ne_nil hm.free
      simp [he, hfree]
    · simp [he, hnot]
  · rw [if_neg hshould]
    have hspare : (if i = descIdx then 2 else 1) ≤ H.freeCount i := by
      unfold shouldAllocateZone at hshould
      split_ifs at hshould ⊢ with hid
      · subst hid
        omega
      · omega
    have hpos : 0 < H.freeCount i := lt_of_lt_of_le (by split_ifs <;> omega) hspare
    obtain ⟨d, hget⟩ := exists_getFreeZone hpos
    obtain ⟨-, c, cs, hfree⟩ := getFreeZone_eq_some hget
    simp [hget, hfree, hspare]

end Heap

/-! ### Every run -/

omit [Platform] in
/-- The number of the pages of a large block does not depend on the rounding of its size, as long as
it is small. -/
theorem ceilDiv_le_iff {n ps k : ℕ} (hpos : 0 < ps) (hps : ps ≤ 4096) (hk : k < 2 ^ 21) :
    ceilDiv n ps ≤ k ↔ (n + ps - 1) / ps ≤ k := by
  by_cases hn : n < 2 ^ 53
  · rw [ceilDiv, toDouble_eq hn]
  · have hge := le_toDouble (Nat.le_of_not_lt hn)
    have hmul : 2 ^ 21 * ps ≤ 2 ^ 21 * 4096 := Nat.mul_le_mul_left _ hps
    have hlt : ∀ {m}, 2 ^ 53 ≤ m → ¬(m + ps - 1) / ps ≤ k := fun hm hle =>
      absurd ((Nat.div_lt_iff_lt_mul hpos).mp (hle.trans_lt hk)) (by omega)
    exact iff_of_false (hlt hge) (hlt (Nat.le_of_not_lt hn))

/-- The heap has what an allocation of a size needs. -/
theorem Serves.exists_block_iff {leaked : List Group} (hv : Serves L r a₀ H blocks leaked)
    (A : Arena L r) (hpos : 0 < size) : (H.allocate L size).1 ≠ 0 ↔
      if Small L.pageSize size then
        (if zoneIdx (chunkSize size) = descIdx then 2 else 1) ≤
            H.freeCount (zoneIdx (chunkSize size)) ∨ H.Affordable (zoneIdx (chunkSize size))
      else ∃ g ∈ H.pages.freeGroups, (size + L.pageSize - 1) / L.pageSize ≤ g.size := by
  have hw := hv.wf
  have hps := A.sound.pageSize.pos
  rw [Heap.allocate, if_neg hpos.ne']
  by_cases hs : Small L.pageSize size
  · rw [if_pos hs, if_pos hs]
    obtain ⟨hclass, -⟩ := hs.classSize_eq A.pageSize_le
    have hlt : classSize (zoneIdx (chunkSize size)) < L.pageSize := hclass ▸ hs.2
    rw [← hw.exists_allocateChunk_iff A.sound hv.tight hv.reserve (A.idx_lt hlt) hlt A.descSize_lt]
    rcases hw.allocateChunk A.sound hv.tight hv.reserve (A.idx_lt hlt) hlt A.descSize_lt with
      ⟨c, H', he, hm⟩ | ⟨H', he, -⟩
    · have hne := (hv.allocateSmall A hs hm).1
      simp [he, hne]
    · simp [he]
  · rw [if_neg hs, if_neg hs]
    have hbound : ∀ g ∈ H.pages.freeGroups, g.size < 2 ^ 21 := by
      intro g hg
      have := hw.inv.tiles.stop_le (Pages.mem_groups.mpr (Or.inr hg))
      have := hw.pages_count_lt
      omega
    have hceil : 0 < ceilDiv size L.pageSize := by
      apply Nat.pos_of_ne_zero
      intro h0
      have hle := (ceilDiv_le_iff hps A.pageSize_le (Nat.two_pow_pos 21)).mp h0.le
      have := Nat.div_pos (show L.pageSize ≤ size + L.pageSize - 1 by omega) hps
      omega
    have hiff := hw.inv.exists_allocate_iff (n := ceilDiv size L.pageSize) hw.pages_count_lt
    have hfits : (∃ g ∈ H.pages.freeGroups, ceilDiv size L.pageSize ≤ g.size) ↔
        ∃ g ∈ H.pages.freeGroups, (size + L.pageSize - 1) / L.pageSize ≤ g.size :=
      exists_congr fun g => and_congr_right fun hg =>
        ceilDiv_le_iff hps A.pageSize_le (hbound g hg)
    rw [← hfits]
    rcases hal : H.pages.allocate (ceilDiv size L.pageSize) with ⟨_ | g, a⟩
    · rw [hal] at hiff
      simp_all
    · rw [hal] at hiff
      have hne := (hv.allocateLarge A hs hal).1
      simp_all

/-- In every run the counters tell whether an allocation succeeds. -/
theorem Run.allocate_ne_zero_iff {regions : List Region} {ps : ℕ} (hg : GoodArguments regions ps)
    (hps : ps ≤ 4096) (hinit : init regions ps s₀ = .ok (true, s₁)) (hrun : Run s₁ s blocks)
    (hpos : 0 < size) :
    ∃ ptr s', Liballocator.allocate size s = .ok (ptr, s') ∧ (ptr ≠ 0 ↔
      if Small ps size then
        if zoneIdx (chunkSize size) = s.self.zoneDescIdx then
          2 ≤ (s.self.zones s.self.zoneDescIdx).freeChunksCount ∨
            1 ≤ s.pages.self.freePagesCount
        else 1 ≤ (s.self.zones (zoneIdx (chunkSize size))).freeChunksCount ∨
          2 ≤ (s.self.zones s.self.zoneDescIdx).freeChunksCount ∧
            1 ≤ s.pages.self.freePagesCount ∨
          2 ≤ s.pages.self.freePagesCount
      else ∃ b, FreeGroup s.pages b ∧ (size + ps - 1) / ps ≤ b.count) := by
  have S := (hg.usable_of_init hinit).site hg.few hps
  obtain ⟨H, leaked, hr, hv, -⟩ := hg.running hps hinit hrun
  obtain ⟨ptr, s', hcall, rfl, -⟩ := hr.allocate hv S.toArena size
  refine ⟨_, s', hcall, ?_⟩
  have hL : (layout (hg.fitting_of_init hinit)).pageSize = ps := rfl
  rw [hv.exists_block_iff S.toArena hpos, hL, hr.zoneDescIdx, hr.counts _ descIdx_lt,
    hr.pages.table.freeCount]
  by_cases hs : Small ps size
  · have hlt : classSize (zoneIdx (chunkSize size)) < ps := (hs.classSize_eq hps).1 ▸ hs.2
    rw [if_pos hs, if_pos hs, hr.counts _ (S.toArena.idx_lt hlt), Heap.Affordable]
    split_ifs with hid
    · rw [hid]
    · exact Iff.rfl
  · rw [if_neg hs, if_neg hs]
    simp only [hr.pages.freeGroup_iff S.small]
    constructor
    · rintro ⟨g, hg', hle⟩
      exact ⟨_, ⟨g, hg', rfl⟩, hle⟩
    · rintro ⟨_, ⟨g, hg', rfl⟩, hle⟩
      exact ⟨g, hg', hle⟩

/-- In every run a chunk for descriptors is in reserve, and no assertion fails in the next call. -/
theorem Run.reserve_of_init {regions : List Region} {ps : ℕ} (hg : GoodArguments regions ps)
    (hps : ps ≤ 4096) (hinit : init regions ps s₀ = .ok (true, s₁)) (hrun : Run s₁ s blocks) :
    1 ≤ (s.self.zones s.self.zoneDescIdx).freeChunksCount ∧
      (∀ size, ∃ ptr s', Liballocator.allocate size s = .ok (ptr, s')) ∧
      ∀ b ∈ blocks, ∃ s', Liballocator.release b.ptr s = .ok (⟨⟩, s') := by
  have S := (hg.usable_of_init hinit).site hg.few hps
  have h₀ := hg.running hps hinit .start
  obtain ⟨H, leaked, hr, hv, -⟩ := hg.running hps hinit hrun
  refine ⟨?_, hrun.allocate_returns S h₀, fun b => hrun.release_returns S h₀⟩
  rw [hr.zoneDescIdx, hr.counts _ descIdx_lt]
  exact hv.reserve

end Outcome

section Separate

attribute [local instance] lp64

/-- A block of eight bytes finds a free chunk or pages for new zones. -/
theorem Run.allocate_ne_zero_separate : ∃ s₁ s b ptr s',
    init separateRegions 256 blankState = .ok (true, s₁) ∧ Run s₁ s [b] ∧
      Liballocator.allocate 8 s = .ok (ptr, s') ∧ (ptr ≠ 0 ↔
        if Small 256 8 then
          if zoneIdx (chunkSize 8) = s.self.zoneDescIdx then
            2 ≤ (s.self.zones s.self.zoneDescIdx).freeChunksCount ∨
              1 ≤ s.pages.self.freePagesCount
          else 1 ≤ (s.self.zones (zoneIdx (chunkSize 8))).freeChunksCount ∨
            2 ≤ (s.self.zones s.self.zoneDescIdx).freeChunksCount ∧
              1 ≤ s.pages.self.freePagesCount ∨
            2 ≤ s.pages.self.freePagesCount
        else ∃ b, FreeGroup s.pages b ∧ (8 + 256 - 1) / 256 ≤ b.count) := by
  obtain ⟨s₁, s, b, hinit, hrun⟩ := exists_run_separate
  obtain ⟨ptr, s', hcall, hiff⟩ := Run.allocate_ne_zero_iff separateRegions_good (by decide) hinit
    hrun (show 0 < 8 by decide)
  exact ⟨s₁, s, b, ptr, s', hinit, hrun, hcall, hiff⟩

/-- The largest size has the chunk size zero, but no group of pages is large enough for it. -/
theorem exists_refused : GoodArguments separateRegions 256 ∧ ∃ s₁ s',
    init separateRegions 256 blankState = .ok (true, s₁) ∧
      Liballocator.allocate (2 ^ 64 - 1) s₁ = .ok (0, s') ∧ ¬((0 : ℕ) ≠ 0 ↔
        if chunkSize (2 ^ 64 - 1) ≥ 256 then
          ∃ b, FreeGroup s₁.pages b ∧ (2 ^ 64 - 1 + 256 - 1) / 256 ≤ b.count
        else if zoneIdx (chunkSize (2 ^ 64 - 1)) = s₁.self.zoneDescIdx then
          2 ≤ (s₁.self.zones s₁.self.zoneDescIdx).freeChunksCount ∨
            1 ≤ s₁.pages.self.freePagesCount
        else 1 ≤ (s₁.self.zones (zoneIdx (chunkSize (2 ^ 64 - 1)))).freeChunksCount ∨
          2 ≤ (s₁.self.zones s₁.self.zoneDescIdx).freeChunksCount ∧
            1 ≤ s₁.pages.self.freePagesCount ∨
          2 ≤ s₁.pages.self.freePagesCount) := by
  obtain ⟨s₁, hinit, hr⟩ := separateRegions_usable.exists_init (by decide) (by decide)
    (show _ = some ⟨2, 1⟩ by decide) blankState
  have S := separateRegions_usable.site (by decide) (by decide)
  have hv := S.serves_initial (g := ⟨2, 1⟩) (Prod.ext (by decide) rfl)
  obtain ⟨ptr, s', hcall, hptr, -⟩ := hr.allocate hv S.toArena (2 ^ 64 - 1)
  have hnull : (separateHeap.allocate (layout separateRegions_fitting) (2 ^ 64 - 1)).1 = 0 := by
    decide
  have hfree : s₁.pages.self.freePagesCount = 2 := by
    rw [hr.pages.table.freeCount]
    decide
  have hchunk : chunkSize (2 ^ 64 - 1) = 0 := by decide
  refine ⟨separateRegions_good, s₁, s', hinit, (hptr.trans hnull) ▸ hcall, ?_⟩
  rw [hchunk, hfree]
  split_ifs <;> omega

/-- The reserve after a block of eight bytes has been allocated. -/
theorem Run.reserve_separate : ∃ s₁ s b, init separateRegions 256 blankState = .ok (true, s₁) ∧
    Run s₁ s [b] ∧ 1 ≤ (s.self.zones s.self.zoneDescIdx).freeChunksCount ∧
      (∀ size, ∃ ptr s', Liballocator.allocate size s = .ok (ptr, s')) ∧
      ∀ b' ∈ [b], ∃ s', Liballocator.release b'.ptr s = .ok (⟨⟩, s') := by
  obtain ⟨s₁, s, b, hinit, hrun⟩ := exists_run_separate
  exact ⟨s₁, s, b, hinit, hrun, Run.reserve_of_init separateRegions_good (by decide) hinit hrun⟩

end Separate

end Liballocator
