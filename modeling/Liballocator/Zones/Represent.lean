import Liballocator.Zones.Objects
import Liballocator.Zones.Allocate

/-!
# Heaps in memory

`HeapRep L H s` says that the state `s` of the code represents the heap `H`.  `Arena` collects what
the zone allocator relies on besides: the pages do not overlap the table, unless they are reserved.

Descriptors, free chunks and chunks of somebody else are cells that do not overlap
(`Heap.Wf.cell_eq`), so an operation on one of them leaves the others alone.
-/

namespace Liballocator

open Program LinkedList Tiling Families

variable [Platform]

/-- The memory of the zone allocator: its pages, those of the group `r` apart, lie outside of the
table. -/
structure Arena (L : Layout) (r : Group) : Prop where
  sound : L.Sound
  pageSize_le : L.pageSize ≤ 4096
  table_apart : ∀ i < L.count, ¬r.Covers i →
    L.addr i + L.pageSize ≤ L.pageAt 0 ∨ L.pageAt L.count ≤ L.addr i

variable {L : Layout} {r : Group} {H : Heap} {live : List ℕ} {held : List Group}
  {s s' : State} {d c i x y n k a : ℕ}

/-- Several descriptors of zones fit in a page. -/
theorem Arena.descSize_lt (A : Arena L r) : classSize descIdx < L.pageSize := by
  have := classSize_descIdx_le
  have := A.sound.pageSize.le
  omega

/-- Chunks that are smaller than a page belong to one of the classes. -/
theorem Arena.idx_lt (A : Arena L r) (hi : classSize i < L.pageSize) : i < maxZoneIdx := by
  have hlt : 2 ^ (i + 4) < 2 ^ 12 := hi.trans_le A.pageSize_le
  have := (Nat.pow_lt_pow_iff_right (by omega)).mp hlt
  have hmax : maxZoneIdx = 8 := rfl
  omega

/-- The initial zone is aligned as the chunks are. -/
theorem sixteen_dvd_initialZone : 16 ∣ initialZone := by
  unfold initialZone
  rcases width_cases with ⟨-, h⟩ | ⟨-, h⟩ <;> omega

/-- A field of a descriptor lies in the descriptor. -/
theorem field_mem (hk : k < 7) : x ≤ x + k * wordBytes ∧ x + k * wordBytes < x + sizeofZone := by
  unfold sizeofZone
  rcases Platform.wordBytes_eq with h | h <;> rw [h] <;> omega

/-- A link of a chunk lies in the chunk. -/
theorem link_mem (hk : k < 2) : x ≤ x + k * wordBytes ∧ x + k * wordBytes < x + 16 := by
  rcases Platform.wordBytes_eq with h | h <;> rw [h] <;> omega

/-- An address outside of the table, of the pages and of the initial zone. -/
structure Layout.Outside (L : Layout) (a : ℕ) : Prop where
  table : a ∉ L.table
  pages : ∀ i < L.count, ¬(L.addr i ≤ a ∧ a < L.addr i + L.pageSize)
  initial : ¬(initialZone ≤ a ∧ a < initialZone + sizeofZone)

/-- The addresses outside of the memory of the allocator. -/
def Layout.outside (L : Layout) : Set ℕ := {a | L.Outside a}

/-! ### Cells -/

namespace Heap

/-- The first `n` bytes at `x` lie in a chunk or in the initial zone. -/
def Cell (L : Layout) (H : Heap) (x n : ℕ) : Prop :=
  (∃ d ∈ H.descs, H.Owns L d x ∧ n ≤ classSize (H.zone d).idx) ∨
    x = initialZone ∧ n ≤ sizeofZone

/-- A byte lies in one cell only. -/
theorem Wf.cell_eq (h : H.Wf L r live held) (hL : L.Sound) {x' n' : ℕ} (hx : H.Cell L x n)
    (hx' : H.Cell L x' n') (ha : x ≤ a ∧ a < x + n) (ha' : x' ≤ a ∧ a < x' + n') : x = x' := by
  by_contra hne
  have hend : ∀ {d c : ℕ}, d ∈ H.descs → H.Owns L d c →
      c + classSize (H.zone d).idx < initialZone :=
    fun hd hc => ((h.fits _ hd).chunkAt hL hc).lt
  rcases hx with ⟨d, hd, hdx, hn⟩ | ⟨rfl, -⟩ <;> rcases hx' with ⟨d', hd', hdx', hn'⟩ | ⟨rfl, -⟩
  · rcases h.chunks_apart hL hd hd' hdx hdx' hne with hlt | hlt <;> omega
  · have := hend hd hdx
    omega
  · have := hend hd' hdx'
    omega
  · exact hne rfl

/-- Descriptors and chunks are aligned to sixteen bytes. -/
theorem Wf.cell_dvd (h : H.Wf L r live held) (hL : L.Sound) (hx : H.Cell L x n) : 16 ∣ x := by
  rcases hx with ⟨d, hd, hdx, -⟩ | ⟨rfl, -⟩
  · exact ((h.fits d hd).chunkAt hL hdx).dvd_sixteen
  · exact sixteen_dvd_initialZone

/-- No descriptor or chunk lies at the null address. -/
theorem Wf.cell_ne_zero (h : H.Wf L r live held) (hL : L.Sound) (hx : H.Cell L x n) : x ≠ 0 := by
  rcases hx with ⟨d, hd, hdx, -⟩ | ⟨rfl, -⟩
  · exact ((h.fits d hd).chunkAt hL hdx).pos.ne'
  · exact (Nat.two_pow_pos _).ne'

/-- The cells lie outside of the table. -/
theorem Wf.cell_table (h : H.Wf L r live held) (A : Arena L r) (hx : H.Cell L x n)
    (ha : x ≤ a ∧ a < x + n) : a ∉ L.table := by
  rintro ⟨h₁, h₂⟩
  rcases hx with ⟨d, hd, hdx, hn⟩ | ⟨rfl, -⟩
  · have hfits := h.fits d hd
    have hc := hfits.chunkAt A.sound hdx
    have hge := hc.ge
    have hle := hc.le
    rcases A.table_apart _ hfits.page_lt (h.not_reserved hd) with hlt | hlt <;> omega
  · have := Layout.pageAt_lt (L := L) le_rfl
    unfold initialZone at ha
    omega

/-- A descriptor is a cell. -/
theorem Wf.cell_desc (h : H.Wf L r live held) (hd : d ∈ H.descs) : H.Cell L d sizeofZone := by
  by_cases hne : d = initialZone
  · exact Or.inr ⟨hne, le_rfl⟩
  · obtain ⟨y, hy, hyd⟩ := h.owned d hd hne
    have hidx := h.idx descIdx descIdx_lt y hy
    exact Or.inl ⟨y, mem_descs_of_list hy, hyd, hidx ▸ sizeofZone_le⟩

/-- A chunk of a zone is a cell. -/
theorem cell_chunk (hd : d ∈ H.descs) (hc : H.Owns L d c) : H.Cell L c 16 :=
  Or.inl ⟨d, hd, hc, classSize_ge _⟩

/-- No descriptor of a zone lies at the null address. -/
theorem Wf.ne_zero (h : H.Wf L r live held) (hL : L.Sound) (hd : d ∈ H.descs) : d ≠ 0 :=
  h.cell_ne_zero hL (h.cell_desc hd)

/-- The chunk of a descriptor is not free. -/
theorem Wf.free_notMem_descs (h : H.Wf L r live held) (hL : L.Sound) (hd : d ∈ H.descs)
    (hc : c ∈ (H.zone d).free) : c ∉ H.descs := by
  intro hcd
  have hown : H.Owns L d c := h.free_sub d hd c hc
  obtain ⟨y, hy, hcy⟩ := h.desc_taken hcd (h.chunk_ne_initial hL hd hown)
  obtain ⟨hcy, hfree⟩ := ZoneData.mem_taken.mp hcy
  rw [h.eq_of_owns hL hy hd hcy hown] at hfree
  exact hfree hc

/-- The chunks of a zone that are not descriptors have no word in common with a descriptor. -/
theorem Wf.fieldsApart (h : H.Wf L r live held) (hL : L.Sound) (hd : d ∈ H.descs)
    (hy : y ∈ H.descs) (hc : H.Owns L y c) (hnot : c ∉ H.descs) : FieldsApart d c := by
  intro k hk j hj he
  have := h.cell_eq hL (h.cell_desc hd) (cell_chunk hy hc) (a := d + k * wordBytes)
    (field_mem hk) (he ▸ link_mem hj)
  exact hnot (this ▸ hd)

/-- The number of free chunks of a zone is at most the size of its page. -/
theorem Wf.free_length_le (h : H.Wf L r live held) (hd : d ∈ H.descs) :
    (H.zone d).free.length ≤ (H.zone d).chunksCount L := by
  have hsp := List.subperm_of_subset (h.free_nodup d hd) (h.free_sub d hd)
  simpa using hsp.length_le

/-- A zone has fewer chunks than its page has bytes. -/
theorem chunksCount_le (z : ZoneData) : z.chunksCount L ≤ L.pageSize := Nat.div_le_self _ _

/-- Every zone has a page of its own. -/
theorem Wf.length_descs_le (h : H.Wf L r live held) : H.descs.length ≤ L.count := by
  have hnd : (H.descs.map fun d => (H.zone d).page).Nodup :=
    List.Nodup.map_on (fun x hx y hy he => h.eq_of_page hx hy he) h.nodup
  have hsub : (H.descs.map fun d => (H.zone d).page) ⊆ List.range L.count := by
    intro p hp
    obtain ⟨d, hd, rfl⟩ := List.mem_map.mp hp
    exact List.mem_range.mpr (h.fits d hd).page_lt
  simpa using (List.subperm_of_subset hnd hsub).length_le

/-- A bound on the number of free chunks of a class. -/
theorem Wf.freeCount_le (h : H.Wf L r live held) (A : Arena L r) (hi : i < maxZoneIdx) :
    H.freeCount i ≤ L.count * 256 := by
  have hlen : (H.lists i).length ≤ H.descs.length := by
    have := (flatMap_perm (f := H.lists) (List.mem_range.mpr hi)).length_eq
    rw [List.length_append] at this
    exact this ▸ Nat.le_add_right _ _
  have hle : ∀ d ∈ H.lists i, (H.zone d).free.length ≤ 256 := by
    intro d hd
    have hd' := mem_descs.mpr ⟨i, hi, hd⟩
    apply (h.free_length_le hd').trans
    have h₁ := A.pageSize_le
    have h₂ := classSize_ge (H.zone d).idx
    unfold ZoneData.chunksCount
    exact (Nat.div_le_div h₁ h₂ (by omega)).trans (by omega)
  have hsum : H.freeCount i ≤ (H.lists i).length * 256 := by
    rw [freeCount, freeChunks, List.length_flatMap]
    have := List.sum_le_card_nsmul ((H.lists i).map fun d => (H.zone d).free.length) 256
      (fun n hn => by
        obtain ⟨d, hd, rfl⟩ := List.mem_map.mp hn
        exact hle d hd)
    simpa using this
  have := h.length_descs_le
  exact hsum.trans (Nat.mul_le_mul_right _ (by omega))

/-- The free chunks of a class can be counted in a word. -/
theorem Wf.freeCount_lt (h : H.Wf L r live held) (A : Arena L r) (hi : i < maxZoneIdx) :
    H.freeCount i < 2 ^ 29 := by
  have h₁ := h.freeCount_le A hi
  have h₂ := h.small
  omega

end Heap

/-! ### The representation -/

/-- The fields of the zone allocator after `init`, with the lists of zones given. -/
def ZoneAllocator.configured (pageSize : ℕ) (zones : ℕ → ZoneInfo) : ZoneAllocator :=
  { pageAllocator := true, pageSize, zoneDescChunkSize := classSize descIdx,
    zoneDescIdx := descIdx, zones }

/-- The state `s` represents the heap `H`. -/
structure HeapRep (L : Layout) (H : Heap) (s : State) : Prop where
  pages : PageRep L H.pages s.pages
  config : s.self = ZoneAllocator.configured L.pageSize s.self.zones
  counts : ∀ i < maxZoneIdx, (s.self.zones i).freeChunksCount = H.freeCount i
  lists : ∀ i < maxZoneIdx, IsList (links s.mem) (s.self.zones i).head (H.lists i)
  zones : ∀ d ∈ H.descs, ZoneRep L s.mem d (H.zone d)

/-! The fields of the zone allocator that the calls do not change. -/

section Configured

variable (h : HeapRep L H s)
include h

/-- The pointer to the page allocator is set. -/
theorem HeapRep.pageAllocator : s.self.pageAllocator = true := by
  rw [h.config]
  rfl

/-- The page size is stored. -/
theorem HeapRep.pageSize : s.self.pageSize = L.pageSize := by
  rw [h.config]
  rfl

/-- The class for descriptors is stored. -/
theorem HeapRep.zoneDescIdx : s.self.zoneDescIdx = descIdx := by
  rw [h.config]
  rfl

/-- The size of the chunks for descriptors is stored. -/
theorem HeapRep.zoneDescChunkSize : s.self.zoneDescChunkSize = classSize descIdx := by
  rw [h.config]
  rfl

end Configured

/-- The words that a heap is stored in: the table, the descriptors and the links of free chunks. -/
def Heap.words (L : Layout) (H : Heap) : Set ℕ :=
  {a | a ∈ L.table ∨ (∃ d ∈ H.descs, ∃ k < 7, a = d + k * wordBytes) ∨
    ∃ d ∈ H.descs, a ∈ linkWords {c | c ∈ (H.zone d).free}}

/-- The groups of a state depend on the fields of the page allocator and on the table. -/
theorem PageRep.congr {b : Pages} {p p' : PageState} (h : PageRep L b p) (hself : p'.self = p.self)
    (hm : ∀ x ∈ L.table, p'.mem x = p.mem x) : PageRep L b p' := by
  obtain ⟨object, m⟩ := p'
  subst hself
  exact h.congr_mem hm

/-- The representation depends on the words of the heap only. -/
theorem HeapRep.congr (h : HeapRep L H s) {m : Mem} (hm : ∀ a ∈ H.words L, m a = s.mem a) :
    HeapRep L H { s with pages := { s.pages with mem := m } } := by
  have hdesc : ∀ d ∈ H.descs, ∀ k < 7, m (d + k * wordBytes) = s.mem (d + k * wordBytes) :=
    fun d hd k hk => hm _ (Or.inr (Or.inl ⟨d, hd, k, hk, rfl⟩))
  refine ⟨h.pages.congr_mem fun x hx => hm x (Or.inl hx), h.config, h.counts, fun i hi => ?_,
    fun d hd => ?_⟩
  · have hlinks : ∀ d ∈ H.lists i, m d = s.mem d ∧ m (d + wordBytes) = s.mem (d + wordBytes) := by
      intro d hd
      have h₀ := hdesc d (Heap.mem_descs.mpr ⟨i, hi, hd⟩) 0 (by omega)
      have h₁ := hdesc d (Heap.mem_descs.mpr ⟨i, hi, hd⟩) 1 (by omega)
      simp only [Nat.zero_mul, Nat.add_zero, Nat.one_mul] at h₀ h₁
      exact ⟨h₀, h₁⟩
    exact (h.lists i hi).congr (fun d hd => (hlinks d hd).1) fun d hd => (hlinks d hd).2
  · refine (h.zones d hd).congr (fun k _ hk => hdesc d hd k hk) fun c hc => ⟨?_, ?_⟩
    · exact hm _ (Or.inr (Or.inr ⟨d, hd, c, hc, Or.inl rfl⟩))
    · exact hm _ (Or.inr (Or.inr ⟨d, hd, c, hc, Or.inr rfl⟩))

/-- The links of the nodes of a list, word by word. -/
theorem mem_linkWords_iff {l : List ℕ} :
    a ∈ linkWords {x | x ∈ l} ↔ ∃ x ∈ l, ∃ j < 2, a = x + j * wordBytes := by
  constructor
  · rintro ⟨x, hx, he | he⟩
    · exact ⟨x, hx, 0, by omega, by simpa using he⟩
    · exact ⟨x, hx, 1, by omega, by simpa using he⟩
  · rintro ⟨x, hx, j, hj, rfl⟩
    obtain rfl | rfl : j = 0 ∨ j = 1 := by omega
    · exact ⟨x, hx, Or.inl (by simp)⟩
    · exact ⟨x, hx, Or.inr (by simp)⟩

/-! ### Memory of somebody else -/

namespace Heap

/-- The bytes of the chunks `live` and of the groups `held` of somebody else. -/
def foreign (L : Layout) (H : Heap) (live : List ℕ) (held : List Group) : Set ℕ :=
  {a | (∃ c ∈ live, ∃ i, H.HasClass L c i ∧ c ≤ a ∧ a < c + classSize i) ∨
    ∃ g ∈ held, ∃ i, g.Covers i ∧ L.addr i ≤ a ∧ a < L.addr i + L.pageSize}

/-- A page of a group that somebody holds is neither reserved nor the page of a zone. -/
theorem Wf.held_page (h : H.Wf L r live held) {g : Group} (hg : g ∈ held) (hi : g.Covers i) :
    i < L.count ∧ ¬r.Covers i ∧ ∀ d ∈ H.descs, (H.zone d).page ≠ i := by
  have hgu := Pages.mem_groups.mpr (Or.inl (h.held_mem hg))
  have hnd := h.used_nodup
  refine ⟨h.count ▸ h.inv.tiles.lt_of_covers hgu hi, fun hcov => ?_, fun d hd hpage => ?_⟩
  · have hr : r ∈ H.pages.used := h.used.mem_iff.mpr List.mem_cons_self
    have heq := h.inv.tiles.eq_of_covers hgu (Pages.mem_groups.mpr (Or.inl hr)) hi hcov
    exact (List.nodup_cons.mp hnd).1 (heq ▸ List.mem_append_right _ hg)
  · have heq := h.inv.tiles.eq_of_covers hgu (Pages.mem_groups.mpr (Or.inl (h.pageGroup_mem hd)))
      hi ⟨by rw [← hpage]; exact le_rfl, by rw [← hpage]; exact Nat.lt_succ_self _⟩
    exact (List.nodup_append.mp (List.nodup_cons.mp hnd).2).2.2 _ (List.mem_map_of_mem hd) g hg
      heq.symm

/-- Groups that are held are not empty. -/
theorem Wf.held_covers_first (h : H.Wf L r live held) {g : Group} (hg : g ∈ held) :
    g.Covers g.first := by
  have hpos := h.inv.tiles.size_pos (Pages.mem_groups.mpr (Or.inl (h.held_mem hg)))
  exact ⟨le_rfl, Nat.lt_add_of_pos_right hpos⟩

/-- A free chunk is nobody's. -/
theorem Wf.free_notMem_live (h : H.Wf L r live held) (hL : L.Sound) (hd : d ∈ H.descs)
    (hc : c ∈ (H.zone d).free) : c ∉ live := by
  intro hl
  obtain ⟨y, hy, hcy⟩ := h.exists_zone hl
  obtain ⟨hcy, hfree⟩ := ZoneData.mem_taken.mp hcy
  rw [h.eq_of_owns hL hy hd hcy (h.free_sub d hd c hc)] at hfree
  exact hfree hc

/-- Memory of somebody else lies outside of the table and of all other cells. -/
theorem Wf.foreign_apart (h : H.Wf L r live held) (A : Arena L r) {l : List ℕ}
    (ha : a ∈ H.foreign L l held) :
    a ∉ L.table ∧ ∀ x n, H.Cell L x n → x ∉ l → ¬(x ≤ a ∧ a < x + n) := by
  rcases ha with ⟨c, hc, i, ⟨d, hd, hown, rfl⟩, hge, hlt⟩ | ⟨g, hg, i, hcov, hge, hlt⟩
  · have hcell : H.Cell L c (classSize (H.zone d).idx) := Or.inl ⟨d, hd, hown, le_rfl⟩
    refine ⟨h.cell_table A hcell ⟨hge, hlt⟩, fun x n hx hnot hmem => hnot ?_⟩
    rwa [h.cell_eq A.sound hx hcell hmem ⟨hge, hlt⟩]
  · obtain ⟨hic, hres, hpage⟩ := h.held_page hg hcov
    refine ⟨fun htable => ?_, fun x n hx _ hmem => ?_⟩
    · obtain ⟨h₁, h₂⟩ := htable
      rcases A.table_apart i hic hres with h₃ | h₃ <;> omega
    · rcases hx with ⟨d, hd, hdx, hn⟩ | ⟨rfl, -⟩
      · have hat := (h.fits d hd).chunkAt A.sound hdx
        have h₁ := hat.ge
        have h₂ := hat.le
        rcases A.sound.addr_apart _ (h.fits d hd).page_lt i hic (hpage d hd) with h₃ | h₃ <;> omega
      · have := A.sound.addr_add_lt i hic
        unfold initialZone at hmem
        omega

/-- Memory of somebody else lies outside of the words of the heap. -/
theorem Wf.foreign_words (h : H.Wf L r live held) (A : Arena L r) {l : List ℕ} (hl : l ⊆ live)
    (ha : a ∈ H.foreign L l held) : a ∉ H.words L := by
  obtain ⟨htable, hcell⟩ := h.foreign_apart A ha
  rintro (hmem | ⟨d, hd, k, hk, rfl⟩ | ⟨d, hd, c, hc, he⟩)
  · exact htable hmem
  · exact hcell d _ (h.cell_desc hd) (fun hdl => h.not_desc A.sound (hl hdl) hd) (field_mem hk)
  · have hw := link_mem (x := c) (k := 1) (by omega)
    refine hcell c 16 (cell_chunk hd (h.free_sub d hd c hc))
      (fun hcl => h.free_notMem_live A.sound hd hc (hl hcl)) ?_
    rcases he with rfl | rfl <;> omega

/-- Different groups that somebody holds have no byte in common. -/
theorem Wf.foreign_page {g : Group} (h : H.Wf L r live (g :: held)) (A : Arena L r) {l : List ℕ}
    (hi : g.Covers i) (ha : a ∈ H.foreign L l held) :
    ¬(L.addr i ≤ a ∧ a < L.addr i + L.pageSize) := by
  intro hmem
  have hpage : a ∈ H.foreign L [] (g :: held) :=
    Or.inr ⟨g, List.mem_cons_self, i, hi, hmem.1, hmem.2⟩
  rcases ha with ⟨c, -, j, ⟨d, hd, hown, rfl⟩, hlt⟩ | ⟨g', hg', j, hj, hge, hlt⟩
  · exact (h.foreign_apart A hpage).2 c _ (Or.inl ⟨d, hd, hown, le_rfl⟩) List.not_mem_nil hlt
  · have hnot : g ∉ held := by
      have hnd := (List.nodup_append.mp (List.nodup_cons.mp h.used_nodup).2).2.1
      exact (List.nodup_cons.mp hnd).1
    have hg := h.held_mem (g := g) List.mem_cons_self
    have hg₂ := h.held_mem (List.mem_cons_of_mem g hg')
    have hne : i ≠ j := by
      rintro rfl
      have heq := h.inv.tiles.eq_of_covers (Pages.mem_groups.mpr (Or.inl hg))
        (Pages.mem_groups.mpr (Or.inl hg₂)) hi hj
      exact hnot (heq ▸ hg')
    have hic := (h.held_page List.mem_cons_self hi).1
    have hjc := (h.held_page (List.mem_cons_of_mem g hg') hj).1
    rcases A.sound.addr_apart i hic j hjc hne with h₁ | h₁ <;> omega

/-- What is held for longer by somebody else. -/
theorem foreign_mono {H' : Heap} {live' : List ℕ} {held' : List Group}
    (hlive : ∀ c ∈ live, c ∈ live' ∧ ∀ i, H.HasClass L c i → H'.HasClass L c i)
    (hheld : held ⊆ held') (ha : a ∈ H.foreign L live held) : a ∈ H'.foreign L live' held' := by
  rcases ha with ⟨c, hc, i, hci, hlt⟩ | ⟨g, hg, hi⟩
  · exact Or.inl ⟨c, (hlive c hc).1, i, (hlive c hc).2 i hci, hlt⟩
  · exact Or.inr ⟨g, hheld hg, hi⟩

/-! ### Memory that the allocator does not touch -/

/-- Memory of somebody else, and what lies outside of the memory of the allocator. -/
def untouched (L : Layout) (H : Heap) (live : List ℕ) (held : List Group) : Set ℕ :=
  H.foreign L live held ∪ L.outside

/-- Memory of somebody else lies outside of the table and of the other cells. -/
theorem Wf.untouched_apart (h : H.Wf L r live held) (A : Arena L r) {l : List ℕ}
    (ha : a ∈ H.untouched L l held) :
    a ∉ L.table ∧ ∀ x n, H.Cell L x n → x ∉ l → ¬(x ≤ a ∧ a < x + n) := by
  rcases ha with ha | ha
  · exact h.foreign_apart A ha
  · refine ⟨ha.table, fun x n hx _ hmem => ?_⟩
    rcases hx with ⟨d, hd, hdx, hn⟩ | ⟨rfl, hn⟩
    · have hfits := h.fits d hd
      have hat := hfits.chunkAt A.sound hdx
      have h₁ := hat.ge
      have h₂ := hat.le
      exact ha.pages _ hfits.page_lt ⟨by omega, by omega⟩
    · exact ha.initial ⟨hmem.1, hmem.2.trans_le (Nat.add_le_add_left hn _)⟩

/-- Memory of somebody else lies outside of the pages of a group that is held. -/
theorem Wf.untouched_page {g : Group} (h : H.Wf L r live (g :: held)) (A : Arena L r)
    {l : List ℕ} (hi : g.Covers i) (ha : a ∈ H.untouched L l held) :
    ¬(L.addr i ≤ a ∧ a < L.addr i + L.pageSize) := by
  rcases ha with ha | ha
  · exact h.foreign_page A hi ha
  · exact ha.pages i (h.held_page List.mem_cons_self hi).1

/-- With more live blocks, more is memory of somebody else. -/
theorem untouched_mono {H' : Heap} {live' : List ℕ} {held' : List Group}
    (hlive : ∀ c ∈ live, c ∈ live' ∧ ∀ i, H.HasClass L c i → H'.HasClass L c i)
    (hheld : held ⊆ held') (ha : a ∈ H.untouched L live held) : a ∈ H'.untouched L live' held' :=
  ha.imp (foreign_mono hlive hheld) id

/-- With a further group, more is memory of somebody else. -/
theorem untouched_cons (g : Group) (ha : a ∈ H.untouched L live held) :
    a ∈ H.untouched L live (g :: held) :=
  untouched_mono (fun _ hc => ⟨hc, fun _ hci => hci⟩) (List.subset_cons_self g held) ha

end Heap

/-! ### Changing lists of zones -/

/-- The links of the descriptors in a list are no other words of the heap. -/
theorem Heap.Wf.linkWords_apart (hw : H.Wf L r live held) (A : Arena L r) {l : List ℕ}
    (hl : ∀ x ∈ l, x ∈ H.descs) :
    (∀ a ∈ L.table, a ∉ linkWords {x | x ∈ l}) ∧
    (∀ y ∈ H.descs, ∀ k < 7, y ∉ l ∨ 2 ≤ k → y + k * wordBytes ∉ linkWords {x | x ∈ l}) ∧
    ∀ y ∈ H.descs, ∀ c ∈ (H.zone y).free, ∀ j < 2, c + j * wordBytes ∉ linkWords {x | x ∈ l} := by
  refine ⟨fun a ha hmem => ?_, fun y hy k hk hne hmem => ?_, fun y hy c hc j hj hmem => ?_⟩
  · obtain ⟨x, hx, j, hj, rfl⟩ := mem_linkWords_iff.mp hmem
    exact hw.cell_table A (hw.cell_desc (hl x hx)) (field_mem (by omega)) ha
  · obtain ⟨x, hx, j, hj, he⟩ := mem_linkWords_iff.mp hmem
    have heq := hw.cell_eq A.sound (hw.cell_desc hy) (hw.cell_desc (hl x hx)) (field_mem hk)
      (he ▸ field_mem (by omega))
    subst heq
    have hkk := Nat.eq_of_mul_eq_mul_right wordBytes_pos (Nat.add_left_cancel he)
    rcases hne with hne | hne
    · exact hne hx
    · omega
  · obtain ⟨x, hx, j', hj', he⟩ := mem_linkWords_iff.mp hmem
    exact hw.fieldsApart A.sound (hl x hx) hy (hw.free_sub y hy c hc)
      (hw.free_notMem_descs A.sound hy hc) j' (by omega) j hj he.symm

/-- What is not touched does not contain links of descriptors. -/
theorem Heap.Wf.untouched_linkWords (hw : H.Wf L r live held) (A : Arena L r) {l l' : List ℕ}
    (hl : ∀ x ∈ l, x ∈ H.descs) (hnot : ∀ x ∈ l, x ∉ l') (ha : a ∈ H.untouched L l' held) :
    a ∉ linkWords {x | x ∈ l} := by
  obtain ⟨-, hcell⟩ := hw.untouched_apart A ha
  intro hmem
  obtain ⟨x, hx, j, hj, rfl⟩ := mem_linkWords_iff.mp hmem
  exact hcell x _ (hw.cell_desc (hl x hx)) (hnot x hx) (field_mem (by omega))

/-! ### Changing the free chunks of one zone -/

section SetFree

variable {l S : List ℕ} {m : Mem}

/-- The words that a change of the free list of a zone writes. -/
theorem mem_freeWords (ha : a ∈ Zone.freeWords d S) :
    (∃ k < 7, 5 ≤ k ∧ a = d + k * wordBytes) ∨ ∃ x ∈ S, ∃ j < 2, a = x + j * wordBytes := by
  rcases ha with ha | rfl | rfl
  · exact Or.inr (mem_linkWords_iff.mp ha)
  · exact Or.inl ⟨5, by omega, by omega, rfl⟩
  · exact Or.inl ⟨6, by omega, by omega, rfl⟩

/-- A change of the free list of the zone `d` does not touch any other word of the heap. -/
theorem Heap.Wf.freeWords_apart (hw : H.Wf L r live held) (A : Arena L r) (hd : d ∈ H.descs)
    (hS : ∀ x ∈ S, H.Owns L d x ∧ x ∉ H.descs) :
    (∀ a ∈ L.table, a ∉ Zone.freeWords d S) ∧
    (∀ y ∈ H.descs, ∀ k < 7, y ≠ d ∨ k < 5 → y + k * wordBytes ∉ Zone.freeWords d S) ∧
    (∀ y ∈ H.descs, y ≠ d → ∀ c ∈ (H.zone y).free, ∀ j < 2,
      c + j * wordBytes ∉ Zone.freeWords d S) := by
  refine ⟨fun a ha hmem => ?_, fun y hy k hk hne hmem => ?_, fun y hy hne c hc j hj hmem => ?_⟩
  · rcases mem_freeWords hmem with ⟨k, hk, -, rfl⟩ | ⟨x, hx, j, hj, rfl⟩
    · exact hw.cell_table A (hw.cell_desc hd) (field_mem hk) ha
    · exact hw.cell_table A (Heap.cell_chunk hd (hS x hx).1) (link_mem hj) ha
  · rcases mem_freeWords hmem with ⟨k', hk', hge, he⟩ | ⟨x, hx, j, hj, he⟩
    · have heq := hw.cell_eq A.sound (hw.cell_desc hy) (hw.cell_desc hd)
        (field_mem hk) (he ▸ field_mem hk')
      subst heq
      have hkk := Nat.eq_of_mul_eq_mul_right wordBytes_pos (Nat.add_left_cancel he)
      rcases hne with hne | hne
      · exact hne rfl
      · omega
    · exact hw.fieldsApart A.sound hy hd (hS x hx).1 (hS x hx).2 k hk j hj he
  · have hown : H.Owns L y c := hw.free_sub y hy c hc
    rcases mem_freeWords hmem with ⟨k, hk, -, he⟩ | ⟨x, hx, j', hj', he⟩
    · exact hw.fieldsApart A.sound hd hy hown (hw.free_notMem_descs A.sound hy hc) k hk j hj he.symm
    · have heq := hw.cell_eq A.sound (Heap.cell_chunk hy hown) (Heap.cell_chunk hd (hS x hx).1)
        (link_mem hj) (he ▸ link_mem hj')
      subst heq
      exact hne (hw.eq_of_owns A.sound hy hd hown (hS _ hx).1)

/-- A change of the free list of a zone does not touch anything else. -/
theorem Heap.Wf.untouched_freeWords (hw : H.Wf L r live held) (A : Arena L r) (hd : d ∈ H.descs)
    (hS : ∀ x ∈ S, H.Owns L d x) (hnot : ∀ x ∈ d :: S, x ∉ l) (ha : a ∈ H.untouched L l held) :
    a ∉ Zone.freeWords d S := by
  obtain ⟨-, hcell⟩ := hw.untouched_apart A ha
  intro hmem
  rcases mem_freeWords hmem with ⟨k, hk, -, rfl⟩ | ⟨x, hx, j, hj, rfl⟩
  · exact hcell d _ (hw.cell_desc hd) (hnot d List.mem_cons_self) (field_mem hk)
  · exact hcell x _ (Heap.cell_chunk hd (hS x hx)) (hnot x (List.mem_cons_of_mem d hx))
      (link_mem hj)

/-- The state after the free list of a zone has been replaced. -/
theorem HeapRep.setFree (h : HeapRep L H s) (hw : H.Wf L r live held) (A : Arena L r)
    (hd : d ∈ H.descs) (hS : ∀ x ∈ S, H.Owns L d x ∧ x ∉ H.descs)
    (hself : s'.self = { s.self with zones := s'.self.zones })
    (hpages : s'.pages.self = s.pages.self)
    (hheads : ∀ i, (s'.self.zones i).head = (s.self.zones i).head)
    (hcounts : ∀ i < maxZoneIdx, (s'.self.zones i).freeChunksCount = (H.setFree d l).freeCount i)
    (hz : ZoneRep L s'.mem d { H.zone d with free := l })
    (hfr : ∀ a ∉ Zone.freeWords d S, s'.mem a = s.mem a) : HeapRep L (H.setFree d l) s' := by
  obtain ⟨htable, hdesc, hfree⟩ := hw.freeWords_apart A hd hS
  refine ⟨h.pages.congr hpages fun a ha => hfr a (htable a ha), ?_, hcounts, fun i hi => ?_,
    fun y hy => ?_⟩
  · rw [hself, h.config]
    rfl
  · rw [hheads]
    refine (h.lists i hi).congr (fun y hy => ?_) fun y hy => ?_
    · simpa using hfr _ (hdesc y (Heap.mem_descs.mpr ⟨i, hi, hy⟩) 0 (by omega) (Or.inr (by omega)))
    · simpa using hfr _ (hdesc y (Heap.mem_descs.mpr ⟨i, hi, hy⟩) 1 (by omega) (Or.inr (by omega)))
  · by_cases hyd : y = d
    · subst hyd
      rw [Heap.zone_setFree_self]
      exact hz
    · rw [Heap.zone_setFree_of_ne hyd]
      refine (h.zones y hy).congr (fun k _ hk => hfr _ (hdesc y hy k hk (Or.inl hyd)))
        fun c hc => ⟨?_, ?_⟩
      · simpa using hfr _ (hfree y hy hyd c hc 0 (by omega))
      · simpa using hfr _ (hfree y hy hyd c hc 1 (by omega))

end SetFree

end Liballocator
