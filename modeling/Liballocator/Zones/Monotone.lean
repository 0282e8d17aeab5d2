import Liballocator.Zones.Restore

/-!
# A release never hurts

When a zone becomes entirely free its chunks are no longer there for further blocks of its class,
and neither are those of the zones that are given up after it.  Still everything that could be
allocated before can be allocated afterwards (`Run.canAllocate_of_release`), because the pages of
these zones are free instead, and because a chunk for descriptors is in reserve.  What has to be
known for that is how the counters change (`Heap.Refunded`): either no counter gets smaller, or one
page is won and only one class may have lost chunks, or two pages are won.
-/

namespace Liballocator

open Program Tiling

section Monotone

variable [Platform]

namespace Heap

/-- What is won when chunks or pages are given back. -/
structure Refunded (H H' : Heap) : Prop where
  groups : ∀ g ∈ H.pages.freeGroups, ∃ k ∈ H'.pages.freeGroups, g.size ≤ k.size
  counts : (H.pages.freeCount ≤ H'.pages.freeCount ∧
      ∀ j < maxZoneIdx, H.freeCount j ≤ H'.freeCount j) ∨
    (H.pages.freeCount + 1 ≤ H'.pages.freeCount ∧
      (H.freeCount descIdx + 1 ≤ H'.freeCount descIdx ∨
        ∀ j < maxZoneIdx, j ≠ descIdx → H.freeCount j ≤ H'.freeCount j)) ∨
    H.pages.freeCount + 2 ≤ H'.pages.freeCount

/-- A chunk of the class `i` is won and no counter gets smaller, or a page is won. -/
def Gains (i : ℕ) (H H' : Heap) : Prop :=
  H.freeCount i + 1 ≤ H'.freeCount i ∧ H.pages.freeCount ≤ H'.pages.freeCount ∧
      (∀ j < maxZoneIdx, H.freeCount j ≤ H'.freeCount j) ∨
    H.pages.freeCount + 1 ≤ H'.pages.freeCount

variable {L : Layout} {r : Group} {a₀ : Pages} {H H' K : Heap} {live : List ℕ} {held : List Group}
  {c d i n : ℕ} {g : Group}

theorem Refunded.refl : H.Refunded H :=
  ⟨fun g hg => ⟨g, hg, le_rfl⟩, Or.inl ⟨le_rfl, fun _ _ => le_rfl⟩⟩

/-- A class can spare a chunk, or a new zone is affordable. -/
def Spare (H : Heap) (i : ℕ) : Prop :=
  (if i = descIdx then 2 else 1) ≤ H.freeCount i ∨ H.Affordable i

/-- What is won makes up for the chunks that are lost. -/
theorem Refunded.spare (h : H.Refunded H') (hres : 1 ≤ H.freeCount descIdx) (hi : i < maxZoneIdx)
    (hs : H.Spare i) : H'.Spare i := by
  have hcounts := h.counts
  unfold Spare Affordable at *
  split_ifs at hs ⊢ with hid
  · subst hid
    rcases hcounts with ⟨hp, hj⟩ | ⟨hp, -⟩ | hp
    · have := hj descIdx hi
      omega
    · omega
    · omega
  · rcases hcounts with ⟨hp, hj⟩ | ⟨hp, hdesc | hj⟩ | hp
    · have := hj i hi
      have := hj descIdx descIdx_lt
      omega
    · omega
    · have := hj i hi hid
      omega
    · omega

/-- A zone of the class `i` is given up, and then the chunk of its descriptor is given back. -/
theorem Refunded.of_giveUp (hgroups : ∀ g ∈ H.pages.freeGroups, ∃ k ∈ K.pages.freeGroups,
      g.size ≤ k.size) (hpages : H.pages.freeCount + 1 ≤ K.pages.freeCount)
    (hcounts : ∀ j, j ≠ i → H.freeCount j ≤ K.freeCount j) (hrefund : K.Refunded H')
    (hgains : Gains descIdx K H') : H.Refunded H' := by
  refine ⟨fun g hg => ?_, Or.inr ?_⟩
  · obtain ⟨k, hk, hle⟩ := hgroups g hg
    obtain ⟨k', hk', hle'⟩ := hrefund.groups k hk
    exact ⟨k', hk', hle.trans hle'⟩
  rcases hgains with ⟨hone, hp, hj⟩ | hp
  · -- the chunk of the descriptor stays free
    refine Or.inl ⟨hpages.trans hp, ?_⟩
    by_cases hid : i = descIdx
    · exact Or.inr fun j hjlt hjd => (hcounts j (hid ▸ hjd)).trans (hj j hjlt)
    · exact Or.inl ((Nat.succ_le_succ (hcounts descIdx (Ne.symm hid))).trans hone)
  · exact Or.inr ((Nat.succ_le_succ hpages).trans hp)

/-- Pages that are given back. -/
theorem Wf.refunded_release (h : H.Wf L r live held) (hg : g ∈ H.pages.used) :
    H.Refunded (H.withPages (H.pages.release L g)) := by
  have hcount := h.inv.freeCount_release (L := L) h.pages_count_lt hg
  refine ⟨fun k hk => h.inv.exists_freeGroup_release hg hk, Or.inl ⟨?_, fun _ _ => le_rfl⟩⟩
  change _ ≤ (H.pages.release L g).freeCount
  omega

/-- An entirely free zone is given up: a page is won, and only its class may lose chunks. -/
theorem Wf.clearZone_counts (h : H.Wf L r live held) (hd : d ∈ H.descs) :
    (H.clearZone L d).pages.freeCount = H.pages.freeCount + 1 ∧
      ∀ j, j ≠ (H.zone d).idx → (H.clearZone L d).freeCount j = H.freeCount j := by
  refine ⟨h.inv.freeCount_release h.pages_count_lt (h.pageGroup_mem hd), fun j hj => ?_⟩
  exact congrArg List.length (freeChunks_removeZone_of_ne hj)

/-- The rounds of giving back a chunk: if no zone is given up, no counter gets smaller and the one
of the chunk grows. -/
theorem Wf.deallocateWithin_counts (h : H.Wf L r live held) (hL : L.Sound) (ht : H.Tight L)
    (hc : c ∈ live) (hci : H.HasClass L c i) (hn : H.descs.length ≤ n) :
    H.Refunded (H.deallocateWithin L n c).2 ∧ Gains i H (H.deallocateWithin L n c).2 := by
  induction n generalizing H live c i with
  | zero =>
    have := List.length_pos_of_mem h.initial_mem
    omega
  | succ n ih =>
    obtain ⟨d, hd, hown, rfl⟩ := hci
    have h₁ := h.giveChunk hL hd hown hc
    have hmono := freeCount_le_giveChunk (H := H) (d := d) (c := c)
    have hgive : (H.giveChunk d c).freeCount (H.zone d).idx = H.freeCount (H.zone d).idx + 1 :=
      (h.freeChunks_giveChunk hd).length_eq
    simp only [Heap.deallocateWithin, h.findZone_eq hL hd hown]
    by_cases hall : ((H.giveChunk d c).zone d).free.length =
        ((H.giveChunk d c).zone d).chunksCount L ∧ d ≠ initialZone
    · rw [if_pos hall]
      have hfree := (h₁.free_length_eq_iff hd).mp hall.1
      obtain ⟨h₂, ht₂, hdesc, hlen⟩ := h₁.giveUp hL ht hd hall.2 hfree
      obtain ⟨hpages, hcounts⟩ := h₁.clearZone_counts hd
      have hidx : ((H.giveChunk d c).zone d).idx = (H.zone d).idx := idx_setFree d
      rw [hidx] at hcounts
      obtain ⟨hrefund, hgains⟩ := ih h₂ ht₂ List.mem_cons_self hdesc (by omega)
      have hgroups : ∀ g ∈ H.pages.freeGroups,
          ∃ k ∈ ((H.giveChunk d c).clearZone L d).pages.freeGroups, g.size ≤ k.size :=
        fun g hg => h₁.inv.exists_freeGroup_release (h₁.pageGroup_mem hd) hg
      refine ⟨.of_giveUp hgroups hpages.ge
        (fun j hj => (hmono j).trans (hcounts j hj).ge) hrefund hgains, Or.inr ?_⟩
      refine hpages.ge.trans ?_
      rcases hgains with ⟨-, hp, -⟩ | hp
      · exact hp
      · exact (Nat.le_succ _).trans hp
    · rw [if_neg hall]
      refine ⟨⟨fun g hg => ⟨g, hg, le_rfl⟩, Or.inl ⟨le_rfl, fun j _ => hmono j⟩⟩, Or.inl ?_⟩
      exact ⟨hgive.ge, le_rfl, fun j _ => hmono j⟩

end Heap

variable {L : Layout} {r : Group} {a₀ : Pages} {H : Heap} {blocks : List Block}
  {leaked : List Group} {b : Block} {s s' s₀ s₁ : State} {size : ℕ}

/-- What the release of a block wins. -/
theorem Serves.refunded (hv : Serves L r a₀ H blocks leaked) (A : Arena L r) (hb : b ∈ blocks) :
    H.Refunded (H.release L b.ptr) := by
  have hv' := hv.perm (List.perm_cons_erase hb)
  unfold Heap.release
  rw [if_neg (hv.ptr_ne_zero A hb)]
  by_cases hs : Small L.pageSize b.size
  · obtain ⟨H', he, -⟩ := hv'.releaseSmall A hs
    obtain ⟨hrefund, -⟩ := hv.wf.deallocateWithin_counts A.sound hv.tight
      (mem_blockChunks.mpr ⟨b, hb, hs, rfl⟩) (hv.classes b hb hs) le_rfl
    rw [← Heap.deallocate, he] at hrefund
    rw [he]
    exact hrefund
  · rw [hv.deallocate_large A hb hs]
    rcases hv'.releaseLarge A hs with ⟨i, hf, -, hfind⟩ | ⟨hf, -⟩
    · rw [hf]
      simp only [Heap.releasePage, hfind]
      exact hv.wf.refunded_release (List.mem_of_find?_eq_some hfind)
    · rw [hf]
      exact .refl

/-- What could be allocated before a release can be allocated afterwards. -/
theorem Serves.allocate_ne_zero_of_release (hv : Serves L r a₀ H blocks leaked) (A : Arena L r)
    (hb : b ∈ blocks) (h : (H.allocate L size).1 ≠ 0) :
    ((H.release L b.ptr).allocate L size).1 ≠ 0 := by
  have hpos : 0 < size := by
    apply Nat.pos_of_ne_zero
    rintro rfl
    exact h rfl
  have hrefund := hv.refunded A hb
  obtain ⟨leaked', hv', -⟩ := hv.release A hb
  rw [hv.exists_block_iff A hpos] at h
  rw [hv'.exists_block_iff A hpos]
  by_cases hs : Small L.pageSize size
  · have hlt : classSize (zoneIdx (chunkSize size)) < L.pageSize :=
      (hs.classSize_eq A.pageSize_le).1 ▸ hs.2
    rw [if_pos hs] at h ⊢
    exact hrefund.spare hv.reserve (A.idx_lt hlt) h
  · rw [if_neg hs] at h ⊢
    obtain ⟨g, hg, hle⟩ := h
    obtain ⟨k, hk, hle'⟩ := hrefund.groups g hg
    exact ⟨k, hk, hle.trans hle'⟩

/-- In every run what can be allocated can still be allocated after the release of a block. -/
theorem Run.canAllocate_of_release {regions : List Region} {ps : ℕ}
    (hg : GoodArguments regions ps) (hps : ps ≤ 4096)
    (hinit : init regions ps s₀ = .ok (true, s₁)) (hrun : Run s₁ s blocks) (hb : b ∈ blocks)
    (hcall : Liballocator.release b.ptr s = .ok (⟨⟩, s')) (h : s.CanAllocate size) :
    s'.CanAllocate size := by
  have S := (hg.usable_of_init hinit).site hg.few hps
  obtain ⟨H, leaked, hr, hv, -⟩ := hg.running hps hinit hrun
  obtain ⟨hr', -⟩ := (hr.release hv S.toArena S.placed hb).of_run_eq hcall
  obtain ⟨leaked', hv', -⟩ := hv.release S.toArena hb
  rw [hr'.canAllocate_iff hv' S.toArena]
  exact hv.allocate_ne_zero_of_release S.toArena hb ((hr.canAllocate_iff hv S.toArena size).mp h)

end Monotone

section Separate

attribute [local instance] lp64

/-- After the release of the only block of eight bytes its zone is gone, but a further block of
eight bytes can be allocated. -/
theorem Run.canAllocate_of_release_separate : ∃ s₁ s s' b,
    init separateRegions 256 blankState = .ok (true, s₁) ∧ Run s₁ s [b] ∧
      Liballocator.release b.ptr s = .ok (⟨⟩, s') ∧ s.CanAllocate 8 ∧ s'.CanAllocate 8 := by
  obtain ⟨s₁, hinit, hr⟩ := separateRegions_usable.exists_init (by decide) (by decide)
    (show _ = some ⟨2, 1⟩ by decide) blankState
  have S := separateRegions_usable.site (by decide) (by decide)
  have hv := S.serves_initial (g := ⟨2, 1⟩) (Prod.ext (by decide) rfl)
  have hr : HeapRep (layout separateRegions_fitting) separateHeap s₁ := hr
  obtain ⟨s, hrun, hr₂, hv₂⟩ := Run.start.exists_allocate hr hv S.toArena
    (show (separateHeap.allocate _ 8).1 ≠ 0 by decide)
  have hcan : s.CanAllocate 8 := (hr₂.canAllocate_iff hv₂ S.toArena 8).mpr (by decide)
  obtain ⟨s', hcall⟩ := hrun.release_returns S
    (separateRegions_good.running (by decide) hinit .start) List.mem_cons_self
  exact ⟨s₁, s, s', _, hinit, hrun, hcall, hcan, Run.canAllocate_of_release separateRegions_good
    (by decide) hinit hrun List.mem_cons_self hcall hcan⟩

end Separate

end Liballocator
