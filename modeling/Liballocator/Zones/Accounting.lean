import Liballocator.Zones.Statistics
import Liballocator.Zones.Leaks

/-!
# Accounting

The chunks of all zones fill their pages (`Heap.Wf.sum_taken`), and the pages of the table, of the
zones, of the large blocks and of the free groups are all pages.  From these two sums it follows
that the numbers of `getStats` are exact: the allocated memory is the sum of the lengths of the live
blocks, and the free memory is what the free pages and the free chunks hold.
-/

namespace Liballocator

open Program Tiling Families

section Accounting

variable [Platform]

variable {L : Layout} {r : Group} {a₀ : Pages} {H : Heap} {live : List ℕ} {held : List Group}
  {blocks : List Block} {s s₀ s₁ : State} {z : ZoneData} {c d : ℕ}

/-! ### Sums over the chunks -/

/-- The chunks of a zone are free or not. -/
theorem ZoneData.length_taken_add (hsub : ∀ x ∈ z.free, x ∈ z.chunks L) (hnd : z.free.Nodup) :
    (z.taken L).length + z.free.length = z.chunksCount L := by
  have hfree : ((z.chunks L).filter fun c => !decide (c ∉ z.free)).Perm z.free := by
    apply (List.perm_ext_iff_of_nodup (nodup_chunks.filter _) hnd).mpr
    intro x
    simp only [List.mem_filter, Bool.not_eq_true', decide_eq_false_iff_not, not_not]
    exact ⟨fun h => h.2, fun h => ⟨hsub x h, h⟩⟩
  rw [taken, ← hfree.length_eq, ← List.length_eq_length_filter_add, length_chunks]

namespace Heap

/-- The size of a chunk. -/
def chunkBytes (L : Layout) (H : Heap) (c : ℕ) : ℕ :=
  match H.findZone L c with
  | none => 0
  | some d => classSize (H.zone d).idx

theorem Wf.chunkBytes_eq (h : H.Wf L r live held) (hL : L.Sound) (hd : d ∈ H.descs)
    (hc : H.Owns L d c) : H.chunkBytes L c = classSize (H.zone d).idx := by
  rw [chunkBytes, h.findZone_eq hL hd hc]

theorem HasClass.chunkBytes_eq {i : ℕ} (hc : H.HasClass L c i) (h : H.Wf L r live held)
    (hL : L.Sound) : H.chunkBytes L c = classSize i := by
  obtain ⟨d, hd, hown, rfl⟩ := hc
  exact h.chunkBytes_eq hL hd hown

/-- The bytes of the free chunks, zone by zone. -/
theorem Wf.freeMemory_eq (h : H.Wf L r live held) : H.freeMemory =
    (H.descs.map fun d => (H.zone d).free.length * classSize (H.zone d).idx).sum := by
  rw [descs, sum_map_flatMap, freeMemory]
  refine congrArg List.sum (List.map_congr_left fun i hi => ?_)
  have hidx := h.idx i (List.mem_range.mp hi)
  rw [freeCount, freeChunks, List.length_flatMap, Nat.mul_comm, ← List.sum_map_mul_right]
  refine congrArg List.sum (List.map_congr_left fun d hd => ?_)
  rw [hidx d hd]

/-- The chunks fill the pages of the zones. -/
theorem Wf.sum_taken (h : H.Wf L r live held) (hL : L.Sound) :
    ((H.taken L).map (H.chunkBytes L)).sum + H.freeMemory = H.descs.length * L.pageSize := by
  have hzone : ∀ d ∈ H.descs, (((H.zone d).taken L).map (H.chunkBytes L)).sum =
      ((H.zone d).taken L).length * classSize (H.zone d).idx := fun d hd =>
    sum_map_eq_mul fun c hc => h.chunkBytes_eq hL hd (ZoneData.mem_taken.mp hc).1
  rw [Heap.taken, sum_map_flatMap, h.freeMemory_eq, List.map_congr_left hzone, ← List.sum_map_add]
  apply sum_map_eq_mul
  intro d hd
  rw [← Nat.add_mul, ZoneData.length_taken_add (h.free_sub d hd) (h.free_nodup d hd),
    (h.fits d hd).mul_eq hL]

end Heap

/-! ### Sums over the blocks -/

/-- The bytes of the blocks: those of their chunks and those of their pages. -/
theorem Serves.sum_length (hv : Serves L r a₀ H blocks []) (S : Site L r a₀) :
    (blocks.map (Block.length L.pageSize)).sum =
      ((blockChunks L blocks).map (H.chunkBytes L)).sum +
        ((blockGroups L blocks).map Span.size).sum * L.pageSize := by
  have hsplit := ((List.filter_append_perm (fun b => Small L.pageSize b.size) blocks).map
    (Block.length L.pageSize)).sum_eq
  rw [List.map_append, List.sum_append] at hsplit
  rw [← hsplit, blockChunks, blockGroups, List.map_map, List.map_map, ← List.sum_map_mul_right]
  congr 2
  · apply List.map_congr_left
    intro b hb
    obtain ⟨hmem, hs⟩ := List.mem_filter.mp hb
    have hs : Small L.pageSize b.size := by simpa using hs
    rw [Block.length, if_pos hs, (hs.classSize_eq S.pageSize_le).1]
    exact ((hv.classes b hmem hs).chunkBytes_eq hv.wf S.sound).symm
  · simp only [decide_not]
    apply List.map_congr_left
    intro b hb
    obtain ⟨hmem, hs⟩ := List.mem_filter.mp hb
    have hs : ¬Small L.pageSize b.size := by simpa using hs
    exact (hv.largeBlock S hmem hs).2.2.1

/-- The chunks that are not free hold the descriptors and the small blocks. -/
theorem Serves.sum_chunks (hv : Serves L r a₀ H blocks []) (S : Site L r a₀) :
    (H.descs.length - 1) * classSize descIdx + ((blockChunks L blocks).map (H.chunkBytes L)).sum +
      H.freeMemory = H.descs.length * L.pageSize := by
  have hw := hv.wf
  have hdescs : ((H.descs.erase initialZone).map (H.chunkBytes L)).sum =
      (H.descs.length - 1) * classSize descIdx := by
    rw [← List.length_erase_of_mem hw.initial_mem]
    apply sum_map_eq_mul
    intro d hd
    obtain ⟨hne, hd⟩ := hw.nodup.mem_erase_iff.mp hd
    exact (hw.hasClass_desc hd hne).chunkBytes_eq hw S.sound
  have htaken := (hw.taken.map (H.chunkBytes L)).sum_eq
  rw [List.map_append, List.sum_append, hdescs] at htaken
  rw [← htaken]
  exact hw.sum_taken S.sound

/-- The pages are reserved, or they belong to zones, to blocks or to free groups. -/
theorem Heap.Wf.sum_pages (h : H.Wf L r live held) :
    r.size + H.descs.length + (held.map Span.size).sum + H.pages.freeCount = L.count := by
  have hsum := h.inv.freeCount_add h.pages_count_lt
  have hones : (H.descs.map (Span.size ∘ H.pageGroup)).sum = H.descs.length * 1 :=
    sum_map_eq_mul fun _ _ => rfl
  rw [(h.used.map Span.size).sum_eq, List.map_cons, List.sum_cons, List.map_append,
    List.sum_append, List.map_map, h.count, hones] at hsum
  omega

/-! ### The numbers of `getStats` -/

/-- No subtraction of `getStats`, or of the two functions that it calls, goes below zero. -/
structure NoWrap (page : PageAllocator.Stats) (zone : ZoneAllocator.Stats) (st : Stats) : Prop where
  reservedPages : page.pageSize * page.reservedPagesCount ≤ page.effectiveMemorySize
  descriptors : zone.reservedMemorySize ≤ zone.usedMemorySize
  freeChunks : zone.freeMemorySize ≤ zone.usedMemorySize - zone.reservedMemorySize
  alignment : page.effectiveMemorySize ≤ page.totalMemorySize
  reserved : st.reservedMemorySize ≤ st.totalMemorySize
  freePages : page.freeMemorySize ≤ page.userMemorySize
  zones : zone.usedMemorySize ≤ page.userMemorySize - page.freeMemorySize
  allocated : st.allocatedMemorySize ≤ st.userMemorySize

variable {regions : List Region} {ps : ℕ}

/-- The parts of the memory, in bytes: lost by alignment, the table, the descriptors of zones, the
allocated chunks, the free chunks, the pages of blocks and the free pages. -/
structure Parts where
  lost : ℕ
  table : ℕ
  descriptors : ℕ
  chunks : ℕ
  freeChunks : ℕ
  pages : ℕ
  freePages : ℕ

namespace Parts

variable (parts : Parts)

/-- The pages of the zones. -/
def zones : ℕ := parts.descriptors + parts.chunks + parts.freeChunks

/-- The pages of all regions. -/
def effective : ℕ := parts.table + parts.zones + parts.pages + parts.freePages

/-- The numbers that `getStats` combines are those of the parts. -/
structure Counted (page : PageAllocator.Stats) (zone : ZoneAllocator.Stats) : Prop where
  lt : parts.lost + parts.effective < 2 ^ 32
  total : page.totalMemorySize = parts.lost + parts.effective
  effective : page.effectiveMemorySize = parts.effective
  table : page.pageSize * page.reservedPagesCount = parts.table
  user : page.userMemorySize = parts.zones + parts.pages + parts.freePages
  freePages : page.freeMemorySize = parts.freePages
  zones : zone.usedMemorySize = parts.zones
  descriptors : zone.reservedMemorySize = parts.descriptors
  freeChunks : zone.freeMemorySize = parts.freeChunks
  chunks : zone.allocatedMemorySize = parts.chunks

variable {parts} {page : PageAllocator.Stats} {zone : ZoneAllocator.Stats}

/-- Counted parts are combined without wrapping. -/
theorem Counted.combineStats_eq (h : parts.Counted page zone) : combineStats page zone =
    { totalMemorySize := parts.lost + parts.effective
      reservedMemorySize := parts.lost + parts.table + parts.descriptors
      userMemorySize := parts.chunks + parts.freeChunks + parts.pages + parts.freePages
      allocatedMemorySize := parts.pages + parts.chunks
      freeMemorySize := parts.freePages + parts.freeChunks } := by
  have hw := two_pow_32_le
  have hlt := h.lt
  have htable := (Nat.mul_comm _ _).trans h.table
  simp only [combineStats, h.total, h.effective, h.user, h.freePages, h.zones, h.descriptors,
    h.chunks, Word.mul, htable]
  simp only [Parts.effective, Parts.zones] at hlt ⊢
  simp (disch := omega) only [Word.sub_eq, Word.add_eq, Nat.mod_eq_of_lt, Stats.mk.injEq]
  refine ⟨trivial, ?_, ?_, ?_, ?_⟩ <;> omega

/-- Counted parts lead to subtractions that do not wrap. -/
theorem Counted.noWrap (h : parts.Counted page zone) :
    NoWrap page zone (combineStats page zone) := by
  have h₁ := h.total
  have h₂ := h.effective
  have h₃ := h.table
  have h₄ := h.user
  have h₅ := h.freePages
  have h₆ := h.zones
  have h₇ := h.descriptors
  have h₈ := h.freeChunks
  rw [h.combineStats_eq]
  simp only [Parts.effective, Parts.zones] at *
  refine ⟨by omega, by omega, by omega, by omega, ?_, by omega, by omega, ?_⟩ <;> dsimp only <;>
    omega

end Parts

variable {regions : List Region} {ps : ℕ}

/-- The parts of the memory of a heap. -/
def Heap.parts (L : Layout) (r : Group) (H : Heap) (blocks : List Block) (total : ℕ) : Parts where
  lost := total - L.count * L.pageSize
  table := r.size * L.pageSize
  descriptors := (H.descs.length - 1) * classSize descIdx
  chunks := ((blockChunks L blocks).map (H.chunkBytes L)).sum
  freeChunks := H.freeMemory
  pages := ((blockGroups L blocks).map Span.size).sum * L.pageSize
  freePages := H.pages.freeCount * L.pageSize

/-- The statistics of a heap count its parts, when the sizes of the regions add up to a number of 32
bits. -/
theorem Serves.counted (h : Usable regions ps)
    (hsum : ((accepted ps regions).map RegionInfo.size).sum < 2 ^ 32)
    (S : Site (layout h.toFitting) (reservedGroup (accepted ps regions) ps) a₀)
    (hv : Serves (layout h.toFitting) (reservedGroup (accepted ps regions) ps) a₀ H blocks []) :
    (H.parts (layout h.toFitting) (reservedGroup (accepted ps regions) ps) blocks
      ((accepted ps regions).map RegionInfo.size).sum).Counted
        (H.pageStats (layout h.toFitting)) (H.zoneStats (layout h.toFitting)) := by
  have hw := two_pow_32_le
  obtain ⟨htotal, heffective, hle⟩ := h.getStats_config hsum
  have hps : (layout h.toFitting).pageSize = ps := rfl
  have hchunks := hv.sum_chunks S
  have hpages := congrArg (· * ps) hv.wf.sum_pages
  have hzones : 1 ≤ H.descs.length := List.length_pos_of_mem hv.wf.initial_mem
  have hcount : H.descs.length ≤ H.descs.length * ps := Nat.le_mul_of_pos_right _ h.pageSize.pos
  simp only [Nat.add_mul, List.append_nil] at hpages
  rw [hps] at hchunks
  have hmul : ∀ {a}, a ≤ (layout h.toFitting).count * ps → a < 2 ^ width := fun ha => by omega
  have hreserved : Word.mul ps (reservedGroup (accepted ps regions) ps).size =
      (reservedGroup (accepted ps regions) ps).size * ps := by
    rw [Word.mul, Nat.mul_comm, Nat.mod_eq_of_lt (hmul (by omega))]
  have hused : (H.zoneStats (layout h.toFitting)).usedMemorySize = H.descs.length * ps :=
    Word.mul_eq (show H.descs.length * ps < 2 ^ width from hmul (by omega))
  have hreserve : (H.zoneStats (layout h.toFitting)).reservedMemorySize =
      (H.descs.length - 1) * classSize descIdx := by
    apply (if_pos hzones).trans
    rw [Word.sub_eq hzones (hmul (by omega)), Word.mul_eq (hmul (by omega))]
  have hfree : (H.zoneStats (layout h.toFitting)).freeMemorySize = H.freeMemory :=
    Nat.mod_eq_of_lt (by omega)
  have hallocated : (H.zoneStats (layout h.toFitting)).allocatedMemorySize =
      Word.sub (Word.sub (H.zoneStats (layout h.toFitting)).usedMemorySize
        (H.zoneStats (layout h.toFitting)).reservedMemorySize)
        (H.zoneStats (layout h.toFitting)).freeMemorySize := rfl
  have huser : (H.pageStats (layout h.toFitting)).userMemorySize =
      Word.sub (layout h.toFitting).config.getStats.effectiveMemorySize
        (Word.mul ps (reservedGroup (accepted ps regions) ps).size) := rfl
  constructor <;> simp only [Heap.parts, Parts.effective, Parts.zones, hps]
  · omega
  · exact htotal.trans (by omega)
  · exact heffective.trans (by omega)
  · exact Nat.mul_comm _ _
  · rw [huser, heffective, hreserved, Word.sub_eq (by omega) (by omega)]
    omega
  · exact Word.mul_eq (show H.pages.freeCount * ps < 2 ^ width from hmul (by omega))
  · rw [hused]
    omega
  · exact hreserve
  · exact hfree
  · rw [hallocated, hused, hreserve, hfree, Word.sub_eq (b := H.freeMemory) ?_ (Word.sub_lt _ _),
      Word.sub_eq (by omega) (hmul (by omega))]
    · omega
    · rw [Word.sub_eq (by omega) (hmul (by omega))]
      omega

/-- The allocated memory is that of the blocks. -/
theorem Serves.allocatedMemorySize_eq (h : Usable regions ps)
    (hsum : ((accepted ps regions).map RegionInfo.size).sum < 2 ^ 32)
    (S : Site (layout h.toFitting) (reservedGroup (accepted ps regions) ps) a₀)
    (hv : Serves (layout h.toFitting) (reservedGroup (accepted ps regions) ps) a₀ H blocks []) :
    (H.stats (layout h.toFitting)).allocatedMemorySize = (blocks.map (Block.length ps)).sum := by
  rw [Heap.stats, (hv.counted h hsum S).combineStats_eq]
  exact (Nat.add_comm _ _).trans (hv.sum_length S).symm

/-- In every run on regions that do not touch, and whose sizes add up to less than `2 ^ 32`, the
statistics are exact. -/
theorem Run.accounting_of_init (hg : GoodArguments regions ps) (hps : ps ≤ 4096)
    (hu : Untouching regions) (hsum : (regions.map Region.size).sum < 2 ^ 32)
    (hinit : init regions ps s₀ = .ok (true, s₁)) (hrun : Run s₁ s blocks) :
    ∃ st zone, getStats s = .ok (st, s) ∧ ZoneAllocator.getStats s = .ok (zone, s) ∧
      NoWrap s.pages.self.getStats zone st ∧
      st.allocatedMemorySize = (blocks.map (Block.length ps)).sum ∧
      st.totalMemorySize =
        st.reservedMemorySize + st.allocatedMemorySize + st.freeMemorySize ∧
      ∃ reserved live freeGroups zones free page,
        PageAllocator.WellFormed s.pages reserved live freeGroups ∧
        ZoneAllocator.WellFormed s zones free page live blocks ∧
        st.freeMemorySize =
          (((List.range maxGroupIdx).flatMap freeGroups).map Span.size).sum * ps +
            (((List.range maxZoneIdx).flatMap zones).map fun z =>
              (free z).length * s.chunkSize z).sum := by
  have h := hg.usable_of_init hinit
  have S := h.site hg.few hps
  obtain ⟨H, hr, hv, -⟩ := hg.running_untouching hps hu hinit hrun
  have hsum' := (hg.valid.sum_accepted_le h.pageSize).trans_lt hsum
  have hc := hv.counted h hsum' S
  have hwf := hr.wellFormed hv S
  obtain ⟨_, _, hst, rfl, rfl⟩ := hr.getStats hv.wf S.toArena
  obtain ⟨_, _, hzone, rfl, rfl⟩ := hr.zoneStats hv.wf S.toArena
  refine ⟨_, _, hst, hzone, ?_, hv.allocatedMemorySize_eq h hsum' S, ?_,
    _, _, _, _, _, _, hwf.1, hwf.2, ?_⟩
  · rw [hr.pageStats]
    exact hc.noWrap
  · rw [Heap.stats, hc.combineStats_eq]
    simp only [Parts.effective, Parts.zones]
    omega
  · rw [Heap.stats, hc.combineStats_eq]
    simp only [Heap.parts]
    rw [hv.wf.freeMemory_eq, hv.wf.inv.freeCount_eq hv.wf.pages_count_lt]
    refine congrArg (_ + List.sum ·) (List.map_congr_left fun d hd => ?_)
    rw [hr.chunkSize hd]

end Accounting

section Separate

attribute [local instance] lp64

/-- The statistics after a block of eight bytes has been allocated. -/
theorem Run.accounting_separate : ∃ s₁ s b st zone,
    init separateRegions 256 blankState = .ok (true, s₁) ∧ Run s₁ s [b] ∧
      getStats s = .ok (st, s) ∧ ZoneAllocator.getStats s = .ok (zone, s) ∧
      NoWrap s.pages.self.getStats zone st ∧
      st.allocatedMemorySize = ([b].map (Block.length 256)).sum := by
  obtain ⟨s₁, s, b, hinit, hrun⟩ := exists_run_separate
  obtain ⟨st, zone, hst, hzone, hwrap, halloc, -⟩ := Run.accounting_of_init separateRegions_good
    (by decide) separateRegions_untouching (by decide) hinit hrun
  exact ⟨s₁, s, b, st, zone, hinit, hrun, hst, hzone, hwrap, halloc⟩

end Separate

section Large

attribute [local instance] ilp32

/-- A block whose chunk size is zero is counted with its pages. -/
theorem exists_uncounted : GoodArguments largeRegions 4096 ∧ Untouching largeRegions ∧
    (largeRegions.map Region.size).sum < 2 ^ 32 ∧ ∃ s₁ s blocks st,
    init largeRegions 4096 blankState = .ok (true, s₁) ∧ Run s₁ s blocks ∧
      getStats s = .ok (st, s) ∧ st.allocatedMemorySize ≠ (blocks.map fun b =>
        if chunkSize b.size < 4096 then chunkSize b.size
        else (b.size + 4096 - 1) / 4096 * 4096).sum := by
  have hu : Untouching largeRegions := List.pairwise_singleton _ _
  refine ⟨largeRegions_good, hu, by decide, ?_⟩
  obtain ⟨s₁, s, ptr, hinit, hrun⟩ := exists_run_large
  have S := largeRegions_usable.site (by decide) (by decide)
  obtain ⟨H, hr, hv, -⟩ := largeRegions_good.running_untouching (by decide) hu hinit hrun
  obtain ⟨_, _, hst, rfl, rfl⟩ := hr.getStats hv.wf S.toArena
  refine ⟨s₁, _, _, _, hinit, hrun, hst, ?_⟩
  rw [hv.allocatedMemorySize_eq largeRegions_usable (by decide) S]
  have hlength : Block.length 4096 ⟨ptr, 2147483649⟩ = (2147483649 + 4096 - 1) / 4096 * 4096 :=
    if_neg (show ¬Small 4096 2147483649 by decide)
  have hzero : chunkSize 2147483649 = 0 := by decide
  rw [List.map_singleton, List.map_singleton, List.sum_singleton, List.sum_singleton, hlength,
    hzero, if_pos (by decide)]
  decide

end Large

end Liballocator
