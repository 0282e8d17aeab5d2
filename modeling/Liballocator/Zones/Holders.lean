import Liballocator.Zones.Invalid
import Liballocator.Zones.Leaks
import Liballocator.Zones.Alike

/-!
# Who holds the memory

Every page is free or has one holder: the table of descriptors, a zone or a large block.  Every
chunk of a zone is free or has one holder: a zone whose descriptor it is, or a small block.  When no
two regions touch, this is so in every run (`Run.memory_held`), and no page or chunk gets lost.
-/

namespace Liballocator

open Program Tiling

/-- What holds a page or a chunk. -/
inductive Holder
  | table
  | zone (z : ℕ)
  | block (b : Block)

section Holders

variable [Platform]

/-- The page number `i` is a page of the table, of a zone or of a large block. -/
def State.HoldsPage (s : State) (blocks : List Block) (i : ℕ) : Holder → Prop
  | .table => s.pages.self.pagesHead ≤ s.pages.address i ∧ s.pages.address i <
      s.pages.self.pagesHead + s.pages.self.descPagesCount * s.pages.self.pageSize
  | .zone z => s.IsZone z ∧ s.zonePage z = s.pages.descriptor i
  | .block b => b ∈ blocks ∧ ¬Small s.self.pageSize b.size ∧
      s.pages.address i ∈ b.bytes s.self.pageSize

/-- The chunk `c` is the descriptor of a zone or a small block. -/
def State.HoldsChunk (s : State) (blocks : List Block) (c : ℕ) : Holder → Prop
  | .table => False
  | .zone z => s.IsZone z ∧ z = c
  | .block b => b ∈ blocks ∧ Small s.self.pageSize b.size ∧ b.ptr = c

/-- Every page and every chunk is free or has one holder. -/
structure State.Held (s : State) (blocks : List Block) : Prop where
  page : ∀ i < s.pages.self.pagesCount,
    (s.pages.FreePage i ∧ ∀ o, ¬s.HoldsPage blocks i o) ∨
      (¬s.pages.FreePage i ∧ ∃! o, s.HoldsPage blocks i o)
  chunk : ∀ z c, s.IsZone z → s.ChunkOf z c →
    (s.FreeChunk z c ∧ ∀ o, ¬s.HoldsChunk blocks c o) ∨
      (¬s.FreeChunk z c ∧ ∃! o, s.HoldsChunk blocks c o)

variable {L : Layout} {r : Group} {a₀ : Pages} {H : Heap} {blocks : List Block} {s s₀ s₁ : State}
  {regions : List Region} {ps i c z : ℕ} {o : Holder}

/-- An address of a page lies in no other page. -/
theorem Layout.Sound.eq_of_addr_mem (hL : L.Sound) {j : ℕ} (hi : i < L.count) (hj : j < L.count)
    (hge : L.addr j ≤ L.addr i) (hlt : L.addr i < L.addr j + L.pageSize) : i = j := by
  by_contra hne
  have hps := hL.pageSize.pos
  rcases hL.addr_apart i hi j hj hne with hap | hap <;> omega

/-- A group of adjacent pages covers the pages with the addresses from its first one on. -/
theorem Layout.Sound.covers_iff (hL : L.Sound) {g : Group} {base : ℕ}
    (hg : ∀ k < g.size, g.first + k < L.count ∧ L.addr (g.first + k) = base + k * L.pageSize)
    (hi : i < L.count) :
    g.Covers i ↔ base ≤ L.addr i ∧ L.addr i < base + g.size * L.pageSize := by
  have hps := hL.pageSize.pos
  constructor
  · rintro ⟨hge, hlt⟩
    obtain ⟨k, rfl⟩ := Nat.exists_eq_add_of_le hge
    have hk := Nat.lt_of_add_lt_add_left hlt
    rw [(hg k hk).2]
    exact ⟨Nat.le_add_right _ _, Nat.add_lt_add_left ((Nat.mul_lt_mul_right hps).mpr hk) _⟩
  · rintro ⟨hge, hlt⟩
    obtain ⟨d, hd⟩ := Nat.exists_eq_add_of_le hge
    have hk : d / L.pageSize < g.size := (Nat.div_lt_iff_lt_mul hps).mpr (by omega)
    obtain ⟨hj, haddr⟩ := hg _ hk
    have hdiv := Nat.div_add_mod' d L.pageSize
    have hmod := Nat.mod_lt d hps
    rw [hL.eq_of_addr_mem hi hj (by omega) (by omega)]
    exact ⟨Nat.le_add_right _ _, Nat.add_lt_add_left hk _⟩

/-! ### The holders of a heap -/

/-- The holders of the pages in use. -/
def Heap.pageHolders (L : Layout) (H : Heap) (blocks : List Block) : List Holder :=
  .table :: (H.descs.map .zone ++ (blocks.filter fun b => ¬Small L.pageSize b.size).map .block)

/-- The group that belongs to a holder. -/
def Heap.holderGroup (L : Layout) (r : Group) (H : Heap) : Holder → Group
  | .table => r
  | .zone z => H.pageGroup z
  | .block b => blockGroup L b

/-- The holders of the chunks that are not free. -/
def Heap.chunkHolders (L : Layout) (H : Heap) (blocks : List Block) : List Holder :=
  (H.descs.erase initialZone).map .zone ++
    (blocks.filter fun b => Small L.pageSize b.size).map .block

/-- The chunk that belongs to a holder. -/
def Holder.chunk : Holder → ℕ
  | .table => 0
  | .zone z => z
  | .block b => b.ptr

/-- The groups of the table, the zones and the large blocks. -/
theorem Heap.map_holderGroup : (H.pageHolders L blocks).map (H.holderGroup L r) =
    r :: (H.descs.map H.pageGroup ++ blockGroups L blocks) := by
  simp only [pageHolders, List.map_cons, List.map_append, List.map_map]
  rfl

/-- The chunks of the descriptors and the small blocks. -/
theorem Heap.map_chunk : (H.chunkHolders L blocks).map Holder.chunk =
    H.descs.erase initialZone ++ blockChunks L blocks := by
  simp only [chunkHolders, List.map_append, List.map_map]
  exact congrArg (· ++ _) (List.map_id _)

/-- What holds pages. -/
theorem Heap.mem_pageHolders : o ∈ H.pageHolders L blocks ↔
    match o with
    | .table => True
    | .zone z => z ∈ H.descs
    | .block b => b ∈ blocks ∧ ¬Small L.pageSize b.size := by
  cases o <;> simp [pageHolders]

/-- What holds chunks. -/
theorem Heap.mem_chunkHolders (hnd : H.descs.Nodup) : o ∈ H.chunkHolders L blocks ↔
    match o with
    | .table => False
    | .zone z => z ≠ initialZone ∧ z ∈ H.descs
    | .block b => b ∈ blocks ∧ Small L.pageSize b.size := by
  cases o <;> simp [chunkHolders, hnd.mem_erase_iff]

/-! ### The holders of a state -/

/-- The holder of a page is the one whose group covers the page. -/
theorem HeapRep.holdsPage_iff {h : Fitting regions ps} (hr : HeapRep (layout h) H s)
    (hv : Serves (layout h) (reservedGroup (accepted ps regions) ps) a₀ H blocks [])
    (S : Site (layout h) (reservedGroup (accepted ps regions) ps) a₀) (hi : i < (layout h).count) :
    s.HoldsPage blocks i o ↔ o ∈ H.pageHolders (layout h) blocks ∧
      (H.holderGroup (layout h) (reservedGroup (accepted ps regions) ps) o).Covers i := by
  have hw := hv.wf
  have hdesc := PageState.descriptor_eq hr.pages.config
  have haddr : s.pages.address i = (layout h).addr i := by
    rw [PageState.address, hdesc]
    exact hr.pages.addr hi
  rw [Heap.mem_pageHolders]
  cases o with
  | table =>
    have hself : s.pages.self.pagesHead = (layout h).config.pagesHead ∧
        s.pages.self.descPagesCount = (reservedGroup (accepted ps regions) ps).size ∧
        s.pages.self.pageSize = ps := by
      rw [hr.pages.config]
      exact ⟨rfl, rfl, rfl⟩
    have hru : reservedGroup (accepted ps regions) ps ∈ H.pages.groups :=
      Pages.mem_groups.mpr (Or.inl (hw.used.mem_iff.mpr List.mem_cons_self))
    simp only [State.HoldsPage, haddr, hself, true_and, Heap.holderGroup]
    refine (S.sound.covers_iff (fun k hk => ⟨?_, h.addr_reserved hk⟩) hi).symm
    exact hw.count ▸ hw.inv.tiles.lt_of_covers hru
      ⟨Nat.le_add_right _ _, Nat.add_lt_add_left hk _⟩
  | zone z =>
    simp only [State.HoldsPage, hr.isZone_iff, Heap.holderGroup, Heap.pageGroup]
    refine and_congr_right fun hz => ?_
    have hpage : s.zonePage z = (layout h).pageAt (H.zone z).page := (hr.zones z hz).page
    rw [hpage, hdesc]
    constructor
    · intro he
      rw [Layout.pageAt_inj.mp he]
      exact ⟨le_rfl, Nat.lt_succ_self _⟩
    · intro hcov
      rw [Nat.le_antisymm (Nat.le_of_lt_succ hcov.2) hcov.1]
  | block b =>
    simp only [State.HoldsPage, haddr, hr.pageSize, Heap.holderGroup, and_assoc]
    refine and_congr_right fun hb => and_congr_right fun hs => ?_
    obtain ⟨-, -, hlen, hpages⟩ := hv.largeBlock S hb hs
    rw [S.sound.covers_iff hpages hi, ← hlen]
    exact Iff.rfl

/-- The holder of a chunk that is not free. -/
theorem HeapRep.holdsChunk_iff (hr : HeapRep L H s) (hv : Serves L r a₀ H blocks [])
    (hL : L.Sound) (hz : z ∈ H.descs) (hc : H.Owns L z c) :
    s.HoldsChunk blocks c o ↔ o ∈ H.chunkHolders L blocks ∧ o.chunk = c := by
  have hne := hv.wf.chunk_ne_initial hL hz hc
  rw [Heap.mem_chunkHolders hv.wf.nodup]
  cases o with
  | table => exact (false_and _).symm ▸ Iff.rfl
  | zone d =>
    simp only [State.HoldsChunk, hr.isZone_iff, Holder.chunk]
    constructor
    · rintro ⟨hd, rfl⟩
      exact ⟨⟨hne, hd⟩, rfl⟩
    · exact fun ⟨⟨_, hd⟩, he⟩ => ⟨hd, he⟩
  | block b =>
    simp only [State.HoldsChunk, hr.pageSize, Holder.chunk, and_assoc]

/-- A page is free or has one holder. -/
theorem HeapRep.page_held {h : Fitting regions ps} (hr : HeapRep (layout h) H s)
    (hv : Serves (layout h) (reservedGroup (accepted ps regions) ps) a₀ H blocks [])
    (S : Site (layout h) (reservedGroup (accepted ps regions) ps) a₀) (hi : i < (layout h).count) :
    (s.pages.FreePage i ∧ ∀ o, ¬s.HoldsPage blocks i o) ∨
      (¬s.pages.FreePage i ∧ ∃! o, s.HoldsPage blocks i o) := by
  have hw := hv.wf
  have hused : H.pages.used.Perm ((H.pageHolders (layout h) blocks).map
      (H.holderGroup (layout h) (reservedGroup (accepted ps regions) ps))) := by
    rw [Heap.map_holderGroup]
    simpa using hw.used
  have hheld := hw.inv.tiles.free_or_held hused (hw.count ▸ hi)
  simp only [← hr.pages.freePage_iff S.small, hr.holdsPage_iff hv S hi, not_and]
  exact hheld

/-- A chunk of a zone is free or has one holder. -/
theorem HeapRep.chunk_held (hr : HeapRep L H s) (hv : Serves L r a₀ H blocks []) (hL : L.Sound)
    (hz : s.IsZone z) (hc : s.ChunkOf z c) :
    (s.FreeChunk z c ∧ ∀ o, ¬s.HoldsChunk blocks c o) ∨
      (¬s.FreeChunk z c ∧ ∃! o, s.HoldsChunk blocks c o) := by
  have hw := hv.wf
  have hzd := hr.isZone_iff.mp hz
  have hown := (hr.chunkOf_iff hzd (hw.fits z hzd)).mp hc
  have htaken : (H.taken L).Perm ((H.chunkHolders L blocks).map Holder.chunk) := by
    rw [Heap.map_chunk]
    exact hw.taken
  have hnd := htaken.nodup_iff.mp (hw.taken_nodup hL)
  have hmem := hw.mem_taken_iff hL hzd hown
  simp only [hr.freeChunk_iff hzd, hr.holdsChunk_iff hv hL hzd hown, not_and]
  by_cases hfree : c ∈ (H.zone z).free
  · refine Or.inl ⟨hfree, fun o ho hoc => hmem.mp (htaken.mem_iff.mpr ?_) hfree⟩
    exact List.mem_map.mpr ⟨o, ho, hoc⟩
  · obtain ⟨o, ho, hoc⟩ := List.mem_map.mp (htaken.mem_iff.mp (hmem.mpr hfree))
    refine Or.inr ⟨hfree, o, ⟨ho, hoc⟩, ?_⟩
    rintro o' ⟨ho', hoc'⟩
    exact List.inj_on_of_nodup_map hnd ho' ho (hoc'.trans hoc.symm)

/-- In every run on regions that do not touch each page and each chunk is free or has exactly one
holder. -/
theorem Run.memory_held (hg : GoodArguments regions ps) (hps : ps ≤ 4096) (hu : Untouching regions)
    (hinit : init regions ps s₀ = .ok (true, s₁)) (hrun : Run s₁ s blocks) : s.Held blocks := by
  have S := (hg.usable_of_init hinit).site hg.few hps
  obtain ⟨H, hr, hv, -⟩ := hg.running_untouching hps hu hinit hrun
  refine ⟨fun i hi => hr.page_held hv S ?_, fun z c hz hc => hr.chunk_held hv S.sound hz hc⟩
  rwa [hr.pages.config] at hi

end Holders

section Separate

attribute [local instance] lp64

/-- The holders after a block of eight bytes has been allocated. -/
theorem Run.memory_held_separate : ∃ s₁ s ptr,
    init separateRegions 256 blankState = .ok (true, s₁) ∧ Run s₁ s [⟨ptr, 8⟩] ∧
      s.Held [⟨ptr, 8⟩] := by
  obtain ⟨s₁, s, ptr, hinit, hrun⟩ := exists_run_separate_eight
  exact ⟨s₁, s, ptr, hinit, hrun, Run.memory_held separateRegions_good (by decide)
    separateRegions_untouching hinit hrun⟩

end Separate

end Liballocator
