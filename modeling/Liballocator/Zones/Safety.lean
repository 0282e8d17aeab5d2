import Mathlib.Order.CompletePartialOrder
import Liballocator.Zones.WellFormed

/-!
# Live blocks

In every reachable state the live blocks are long enough, aligned and inside of the regions, and
none of their bytes belongs to another live block, to the table, to a chunk with a descriptor, to a
free chunk or to a free page (`Safe`).

On a machine with 32-bit words `chunkSize` wraps around to zero for sizes above half of the address
space; `allocate` serves them from pages, because it compares the size itself with the page size,
too (`exists_wrapped`).
-/

namespace Liballocator

open Program LinkedList Tiling

section Safety

variable [Platform]

omit [Platform] in
/-- The addresses in the whole pages of a region. -/
def Region.alignedPart (ps : ℕ) (r : Region) : Set ℕ :=
  {x | (r.address + ps - 1) / ps * ps ≤ x ∧ x < (r.address + r.size) / ps * ps}

/-- The live blocks of a state do not overlap with anything else. -/
structure Safe (regions : List Region) (ps : ℕ) (s : State) (blocks : List Block) : Prop where
  length : ∀ b ∈ blocks, b.size ≤ b.length ps
  aligned : ∀ b ∈ blocks, (if Small ps b.size then chunkSize b.size else ps) ∣ b.ptr
  inside : ∀ b ∈ blocks, ∀ x ∈ b.bytes ps, ∃ r ∈ regions, x ∈ r.alignedPart ps
  disjoint : blocks.Pairwise fun b b' => Disjoint (b.bytes ps) (b'.bytes ps)
  table : ∀ b ∈ blocks, Disjoint (b.bytes ps) s.pages.self.tableWords
  /-- The chunks that hold the descriptors of zones. -/
  descriptors : ∀ b ∈ blocks, ∀ z, s.IsZone z → z ≠ initialZone →
    Disjoint (b.bytes ps) {x | z ≤ x ∧ x < z + s.self.zoneDescChunkSize}
  freeChunks : ∀ b ∈ blocks, ∀ z c, s.IsZone z → s.FreeChunk z c →
    Disjoint (b.bytes ps) {x | c ≤ x ∧ x < c + s.chunkSize z}
  freePages : ∀ b ∈ blocks, ∀ i < s.pages.self.pagesCount, s.pages.isUsed i = false →
    Disjoint (b.bytes ps) {x | s.pages.address i ≤ x ∧ x < s.pages.address i + ps}

variable {L : Layout} {r : Group} {a₀ : Pages} {H : Heap} {blocks : List Block}
  {leaked : List Group} {b b' : Block} {s s₀ s₁ : State} {x i : ℕ}

/-! ### Bytes of blocks -/

omit [Platform] in
theorem le_roundUp {n ps : ℕ} (hps : 0 < ps) : n ≤ (n + ps - 1) / ps * ps :=
  (roundUp_le_iff hps).mp le_rfl

/-- A block is at least as long as it was demanded. -/
theorem Block.size_le_length {ps : ℕ} (hpos : 0 < ps) (hps : ps ≤ 4096) (b : Block) :
    b.size ≤ b.length ps := by
  rw [Block.length]
  split_ifs with hs
  · exact (hs.classSize_eq hps).2
  · exact le_roundUp hpos

namespace Serves

variable (hv : Serves L r a₀ H blocks leaked) (S : Site L r a₀)

include hv S

/-- A block is aligned to its chunk or to pages. -/
theorem aligned (hb : b ∈ blocks) :
    (if Small L.pageSize b.size then chunkSize b.size else L.pageSize) ∣ b.ptr := by
  split_ifs with hs
  · obtain ⟨d, hd, hown, hidx⟩ := hv.classes b hb hs
    rw [(hs.classSize_eq S.pageSize_le).1, ← hidx]
    exact ((hv.wf.fits d hd).chunkAt S.sound hown).dvd
  · obtain ⟨-, hpos, -, hpages⟩ := hv.largeBlock S hb hs
    obtain ⟨hlt, haddr⟩ := hpages 0 hpos
    rw [Nat.zero_mul, Nat.add_zero, Nat.add_zero] at haddr
    rw [Nat.add_zero] at hlt
    exact haddr ▸ S.sound.addr_dvd _ hlt

/-- A byte of a block lies in a page that is used, but not reserved. -/
theorem page_of_byte (hb : b ∈ blocks) (hx : x ∈ b.bytes L.pageSize) :
    ∃ i < L.count, (∃ g ∈ H.pages.used, g.Covers i) ∧ L.addr i ≤ x ∧
      x < L.addr i + L.pageSize := by
  have hw := hv.wf
  rcases hv.bytes_subset S hb hx with ⟨c, hc, i, ⟨d, hd, hown, rfl⟩, hge, hlt⟩ |
    ⟨g, hg, i, hcov, hin⟩
  · have hat := (hw.fits d hd).chunkAt S.sound hown
    have h₁ := hat.ge
    have h₂ := hat.le
    exact ⟨_, (hw.fits d hd).page_lt, ⟨_, hw.pageGroup_mem hd, le_rfl, Nat.lt_succ_self _⟩,
      by omega, by omega⟩
  · exact ⟨i, (hw.held_page hg hcov).1, ⟨g, hw.held_mem hg, hcov⟩, hin⟩

/-- Different blocks have no byte in common. -/
theorem bytes_apart {rest : List Block} (hp : blocks.Perm (b :: b' :: rest))
    (hx : x ∈ b.bytes L.pageSize) : x ∉ b'.bytes L.pageSize := by
  intro hx'
  have h := hv.perm hp
  -- what is known of `x` as a byte of the second block alone
  have hfor : ∀ {held : List Group}, (∀ g ∈ blockGroups L [b'], g ∈ held) →
      x ∈ H.foreign L (blockChunks L [b']) held := by
    intro held hheld
    by_cases hs' : Small L.pageSize b'.size
    · have hlen : b'.length L.pageSize = classSize (zoneIdx (chunkSize b'.size)) := by
        rw [Block.length, if_pos hs']
        exact (hs'.classSize_eq S.pageSize_le).1
      exact Or.inl ⟨b'.ptr, mem_blockChunks.mpr ⟨b', List.mem_cons_self, hs', rfl⟩, _,
        h.classes b' (by simp) hs', hx'.1, hlen ▸ hx'.2⟩
    · obtain ⟨i, hcov, hin⟩ := h.page_of_mem S (by simp) hs' hx'
      exact Or.inr ⟨_, hheld _ (mem_blockGroups.mpr ⟨b', List.mem_cons_self, hs', rfl⟩), i, hcov,
        hin⟩
  by_cases hs : Small L.pageSize b.size
  · obtain ⟨d, hd, hown, hidx⟩ := h.classes b List.mem_cons_self hs
    have hcell : H.Cell L b.ptr (classSize (H.zone d).idx) := Or.inl ⟨d, hd, hown, le_rfl⟩
    have hlen : b.length L.pageSize = classSize (H.zone d).idx := by
      rw [Block.length, if_pos hs, hidx]
      exact (hs.classSize_eq S.pageSize_le).1
    have hfx := @hfor (blockGroups L (b :: b' :: rest) ++ leaked) fun g hg => by
      obtain ⟨c, hc, hcs, hcg⟩ := mem_blockGroups.mp hg
      rw [List.mem_singleton] at hc
      subst hc
      exact List.mem_append_left _ (mem_blockGroups.mpr ⟨c, by simp, hcs, hcg⟩)
    refine (h.wf.foreign_apart S.toArena hfx).2 b.ptr _ hcell (fun hmem => ?_)
      ⟨hx.1, hlen ▸ hx.2⟩
    obtain ⟨c, hc, hcs, hptr⟩ := mem_blockChunks.mp hmem
    rw [List.mem_singleton] at hc
    subst hc
    have hnd := (List.nodup_append.mp (h.wf.live_nodup S.sound)).2.1
    rw [(blockChunks_cons_small _ hs).1, (blockChunks_cons_small _ hcs).1, hptr] at hnd
    exact (List.nodup_cons.mp hnd).1 List.mem_cons_self
  · obtain ⟨i, hcov, hin⟩ := h.page_of_mem S List.mem_cons_self hs hx
    have hw := h.wf
    rw [(blockChunks_cons_large _ hs).2, List.cons_append] at hw
    refine hw.foreign_page S.toArena hcov (hfor fun g hg => ?_) hin
    obtain ⟨c, hc, hcs, hcg⟩ := mem_blockGroups.mp hg
    rw [List.mem_singleton] at hc
    subst hc
    exact List.mem_append_left _ (mem_blockGroups.mpr ⟨c, by simp, hcs, hcg⟩)

end Serves

/-! ### Every reachable state -/

/-- The blocks of a represented heap are safe, except for what is said about the regions. -/
theorem HeapRep.safe (h : HeapRep L H s) (hv : Serves L r a₀ H blocks leaked) (S : Site L r a₀)
    {regions : List Region} (hin : ∀ i < L.count, ∃ q ∈ regions, ∀ x, L.addr i ≤ x →
      x < L.addr i + L.pageSize → x ∈ q.alignedPart L.pageSize) :
    Safe regions L.pageSize s blocks := by
  have hw := hv.wf
  refine ⟨fun b _ => b.size_le_length S.sound.pageSize.pos S.pageSize_le,
    fun b hb => hv.aligned S hb, fun b hb x hx => ?_, ?_, fun b hb => ?_, fun b hb z hz hne => ?_,
    fun b hb z c hz hc => ?_, fun b hb i hi hused => ?_⟩
  · obtain ⟨i, hi, -, hge, hlt⟩ := hv.page_of_byte S hb hx
    obtain ⟨q, hq, hall⟩ := hin i hi
    exact ⟨q, hq, hall x hge hlt⟩
  · refine List.pairwise_iff_forall_sublist.mpr fun {b b'} hsub => ?_
    obtain ⟨rest, hp⟩ := hsub.exists_perm_append
    exact Set.disjoint_left.mpr fun x hx => hv.bytes_apart S hp hx
  · rw [h.pages.tableWords]
    exact Set.disjoint_left.mpr fun x hx =>
      (hw.foreign_apart S.toArena (hv.bytes_subset S hb hx)).1
  · have hzd := h.isZone_iff.mp hz
    obtain ⟨y, hy, hyz⟩ := hw.owned z hzd hne
    have hyd := Heap.Wf.mem_descs_of_list hy
    have hcell : H.Cell L z (classSize descIdx) :=
      Or.inl ⟨y, hyd, hyz, (hw.idx descIdx descIdx_lt y hy).symm ▸ le_rfl⟩
    rw [h.zoneDescChunkSize]
    exact Set.disjoint_left.mpr fun x hx =>
      (hw.foreign_apart S.toArena (hv.bytes_subset S hb hx)).2 z _ hcell
        fun hzl => hw.not_desc S.sound hzl hzd
  · have hzd := h.isZone_iff.mp hz
    have hfree := (h.freeChunk_iff hzd).mp hc
    have hcell : H.Cell L c (classSize (H.zone z).idx) :=
      Or.inl ⟨z, hzd, hw.free_sub z hzd c hfree, le_rfl⟩
    rw [h.chunkSize hzd]
    exact Set.disjoint_left.mpr fun x hx =>
      (hw.foreign_apart S.toArena (hv.bytes_subset S hb hx)).2 c _ hcell
        fun hcl => hw.free_notMem_live S.sound hzd hfree hcl
  · -- the page of a byte is used, so it is another page
    obtain ⟨g, hgf, hcov⟩ := (h.pages.freePage_iff hw.small i).mpr ⟨hi, hused⟩
    have hgg := Pages.mem_groups.mpr (Or.inr hgf)
    have hic : i < L.count := hw.count ▸ hw.inv.tiles.lt_of_covers hgg hcov
    have haddr : s.pages.address i = L.addr i := by
      rw [PageState.address, PageState.descriptor_eq h.pages.config]
      exact h.pages.addr hic
    apply Set.disjoint_left.mpr
    intro x hx hmem
    obtain ⟨hge, hlt⟩ := hmem
    obtain ⟨j, hj, ⟨g', hg', hcov'⟩, hge', hlt'⟩ := hv.page_of_byte S hb hx
    rw [haddr] at hge hlt
    have hij : i = j := by
      by_contra hij
      rcases S.sound.addr_apart i hic j hj hij with h | h <;> omega
    subst hij
    have heq := hw.inv.tiles.eq_of_covers hgg (Pages.mem_groups.mpr (Or.inl hg')) hcov hcov'
    subst heq
    exact (List.nodup_append.mp hw.inv.tiles.nodup).2.2 g hg' g hgf rfl

variable {regions : List Region} {ps : ℕ}

/-- The accepted regions lie in the aligned parts of the given ones. -/
theorem Fitting.alignedPart_of_mem (h : Fitting regions ps) {info : RegionInfo}
    (hmem : info ∈ accepted ps regions) :
    ∃ q ∈ regions, ∀ x, info.alignedStart ≤ x → x < info.alignedEnd → x ∈ q.alignedPart ps := by
  obtain ⟨q, hq, hd⟩ := h.valid.describes h.pageSize hmem
  have hps := h.pageSize.pos
  refine ⟨q, hq, fun x hge hlt => ?_⟩
  obtain ⟨m, hm⟩ := hd.dvd
  have hm' : info.alignedStart = m * ps := by rw [hm, Nat.mul_comm]
  have hend := hd.alignedEnd_eq
  rw [hm', ← Nat.add_mul] at hend
  have hstart : (q.address + ps - 1) / ps * ps ≤ info.alignedStart := by
    rw [hm']
    exact Nat.mul_le_mul_right _ ((roundUp_le_iff hps).mpr (hm' ▸ hd.le_alignedStart))
  have hstop : info.alignedEnd ≤ (q.address + q.size) / ps * ps := by
    rw [hend]
    exact Nat.mul_le_mul_right _ ((Nat.le_div_iff_mul_le hps).mpr (hend ▸ hd.alignedEnd_le))
  exact ⟨hstart.trans hge, hlt.trans_le hstop⟩

/-- A page lies in the aligned part of one of the regions. -/
theorem Fitting.page_in_region (h : Fitting regions ps) (hi : i < (layout h).count) :
    ∃ q ∈ regions, ∀ x, (layout h).addr i ≤ x → x < (layout h).addr i + ps →
      x ∈ q.alignedPart ps := by
  obtain ⟨pre, info, post, k, hs, rfl, hk⟩ := exists_region (h.layout_count ▸ hi)
  have hpage := h.page_le hs hk
  obtain ⟨q, hq, hpart⟩ := h.alignedPart_of_mem (region_mem hs)
  refine ⟨q, hq, fun x hge hlt => ?_⟩
  rw [h.addr_split hs hk] at hge hlt
  exact hpart x (by omega) (by omega)

/-- In every run after a successful `init` the live blocks do not overlap with each other or with
what the allocator uses, and the next call returns. -/
theorem Run.safe_of_init (hg : GoodArguments regions ps) (hps : ps ≤ 4096)
    (hinit : init regions ps s₀ = .ok (true, s₁)) (hrun : Run s₁ s blocks) :
    Safe regions ps s blocks ∧
      (∀ size, ∃ ptr s', Liballocator.allocate size s = .ok (ptr, s')) ∧
      ∀ b ∈ blocks, ∃ s', Liballocator.release b.ptr s = .ok (⟨⟩, s') := by
  have h := hg.usable_of_init hinit
  have S := h.site hg.few hps
  obtain ⟨H, leaked, hr, hv, -⟩ := hg.running hps hinit hrun
  refine ⟨hr.safe hv S fun i hi => h.page_in_region hi, fun size => ?_, fun b hb => ?_⟩
  · obtain ⟨ptr, s', hcall, -⟩ := hr.allocate hv S.toArena size
    exact ⟨ptr, s', hcall⟩
  · obtain ⟨_, s', hcall, -⟩ := hr.release hv S.toArena S.placed hb
    exact ⟨s', hcall⟩

end Safety

section Separate

attribute [local instance] lp64

/-- A block of eight bytes in one of two regions. -/
theorem Run.safe_separate : ∃ s₁ s b, init separateRegions 256 blankState = .ok (true, s₁) ∧
    Run s₁ s [b] ∧ Safe separateRegions 256 s [b] ∧
      (∀ size, ∃ ptr s', Liballocator.allocate size s = .ok (ptr, s')) ∧
      ∀ b' ∈ [b], ∃ s', Liballocator.release b'.ptr s = .ok (⟨⟩, s') := by
  obtain ⟨s₁, s, b, hinit, hrun⟩ := exists_run_separate
  exact ⟨s₁, s, b, hinit, hrun, Run.safe_of_init separateRegions_good (by decide) hinit hrun⟩

end Separate

section Large

attribute [local instance] ilp32

/-- Three quarters of the address space. -/
def largeRegions : List Region := [⟨4096, 3221225472⟩]

theorem largeRegions_usable : Usable largeRegions 4096 :=
  ⟨⟨⟨12, by decide, by decide, rfl⟩, ⟨by decide, by decide, by decide⟩, by decide, by decide,
    by decide, by decide⟩, show ∀ r ∈ largeRegions, 0 < r.address by decide⟩

theorem largeRegions_good : GoodArguments largeRegions 4096 :=
  ⟨by decide, largeRegions_usable.valid, largeRegions_usable.nonZero, by decide,
    largeRegions_usable.table⟩

/-- A block of more than half of the address space is allocated. -/
theorem exists_run_large : ∃ s₁ s ptr, init largeRegions 4096 blankState = .ok (true, s₁) ∧
    Run s₁ s [⟨ptr, 2147483649⟩] := by
  obtain ⟨s₁, hinit, hr⟩ := largeRegions_usable.exists_init (by decide) (by decide)
    (show _ = some ⟨3072, 1⟩ by decide) blankState
  have S := largeRegions_usable.site (by decide) (by decide)
  have hv := S.serves_initial (g := ⟨3072, 1⟩) (Prod.ext (by decide) rfl)
  obtain ⟨s, hrun, -⟩ := Run.start.exists_allocate hr hv S.toArena
    (show (Heap.allocate _ _ 2147483649).1 ≠ 0 by decide)
  exact ⟨s₁, s, _, hinit, hrun⟩

/-- The chunk size of this block is zero: it is below the page size, but a range of that length is
shorter than the block. -/
theorem exists_wrapped : GoodArguments largeRegions 4096 ∧ ∃ s₁ s b,
    init largeRegions 4096 blankState = .ok (true, s₁) ∧ Run s₁ s [b] ∧
      ¬b.size ≤ if chunkSize b.size < 4096 then chunkSize b.size
        else (b.size + 4096 - 1) / 4096 * 4096 := by
  refine ⟨largeRegions_good, ?_⟩
  obtain ⟨s₁, s, ptr, hinit, hrun⟩ := exists_run_large
  have hzero : chunkSize 2147483649 = 0 := by decide
  exact ⟨s₁, s, _, hinit, hrun, by simp [hzero]⟩

end Large

end Liballocator
