import Liballocator.Zones.Runs

/-!
# The representation invariant of the zone allocator

What holds of the fields and the memory in every reachable state (`ZoneAllocator.WellFormed`): the
lists of zones, their counters and free lists, the pages of the zones and the chunks that hold their
descriptors.
-/

namespace Liballocator

open Program LinkedList Tiling

section WellFormed

variable [Platform]

/-! ### What a state shows -/

section Fields

variable (s : State)

/-- `z` is the descriptor of a zone: it is linked in one of the lists. -/
def State.IsZone (z : ℕ) : Prop :=
  ∃ i < maxZoneIdx, ∃ l, IsList (links s.mem) (s.self.zones i).head l ∧ z ∈ l

/-- `page()` of a zone. -/
def State.zonePage (z : ℕ) : ℕ := s.mem (z + 2 * wordBytes)

/-- `chunkSize()` of a zone. -/
def State.chunkSize (z : ℕ) : ℕ := s.mem (z + 3 * wordBytes)

/-- `freeChunksCount()` of a zone. -/
def State.freeChunksCount (z : ℕ) : ℕ := s.mem (z + 5 * wordBytes)

/-- The chunk `c` is linked in the free list of the zone `z`. -/
def State.FreeChunk (z c : ℕ) : Prop :=
  ∃ l, IsList (links s.mem) (s.mem (z + 6 * wordBytes)) l ∧ c ∈ l

/-- `c` is the address of a chunk in the page of the zone `z`. -/
def State.ChunkOf (z c : ℕ) : Prop :=
  ∃ j < s.self.pageSize / s.chunkSize z,
    c = s.mem (s.zonePage z + 2 * wordBytes) + j * s.chunkSize z

end Fields

/-- The representation invariant, with the zones in each of the lists, the free chunks of each zone,
the number of its page, the groups that are live in the page allocator and the blocks of the
users. -/
structure ZoneAllocator.WellFormed (s : State) (zones : ℕ → List ℕ) (free : ℕ → List ℕ)
    (page : ℕ → ℕ) (live : List Group) (blocks : List Block) : Prop where
  lists : ∀ i < maxZoneIdx, IsList (links s.mem) (s.self.zones i).head (zones i)
  /-- No zone is listed twice. -/
  nodup : ((List.range maxZoneIdx).flatMap zones).Nodup
  /-- A list holds exactly the zones with chunks of its size. -/
  mem_iff : ∀ i < maxZoneIdx, ∀ z, z ∈ zones i ↔
    z ∈ (List.range maxZoneIdx).flatMap zones ∧ s.chunkSize z = 2 ^ (i + 4)
  counts : ∀ i < maxZoneIdx,
    (s.self.zones i).freeChunksCount = ((zones i).map s.freeChunksCount).sum
  freeLists : ∀ z ∈ (List.range maxZoneIdx).flatMap zones,
    IsList (links s.mem) (s.mem (z + 6 * wordBytes)) (free z)
  free_nodup : ∀ z ∈ (List.range maxZoneIdx).flatMap zones, (free z).Nodup
  free_chunk : ∀ z ∈ (List.range maxZoneIdx).flatMap zones, ∀ c ∈ free z, s.ChunkOf z c
  free_length : ∀ z ∈ (List.range maxZoneIdx).flatMap zones,
    (free z).length = s.freeChunksCount z
  /-- Every zone owns a live group of one page. -/
  pages : ∀ z ∈ (List.range maxZoneIdx).flatMap zones,
    s.zonePage z = s.pages.descriptor (page z) ∧ ⟨page z, 1⟩ ∈ live
  pages_nodup : (((List.range maxZoneIdx).flatMap zones).map page).Nodup
  initial : initialZone ∈ zones s.self.zoneDescIdx
  /-- The descriptors of the other zones are in chunks of other zones that are not free. -/
  descriptors : ∀ z ∈ (List.range maxZoneIdx).flatMap zones, z ≠ initialZone →
    ∃ y ∈ zones s.self.zoneDescIdx, y ≠ z ∧ s.ChunkOf y z ∧ z ∉ free y
  /-- A chunk that is not free holds a descriptor or is a live block. -/
  taken : ∀ z ∈ (List.range maxZoneIdx).flatMap zones, ∀ c, s.ChunkOf z c → c ∉ free z →
    c ∈ (List.range maxZoneIdx).flatMap zones ∨ ∃ b ∈ blocks, b.ptr = c

/-! ### Represented heaps -/

variable {L : Layout} {r : Group} {a₀ : Pages} {H : Heap} {blocks : List Block}
  {leaked : List Group} {s s₀ s₁ : State} {d c : ℕ}

/-- The zones of a state are those of the heap. -/
theorem HeapRep.isZone_iff (h : HeapRep L H s) : s.IsZone d ↔ d ∈ H.descs := by
  rw [Heap.mem_descs]
  constructor
  · rintro ⟨i, hi, l, hl, hd⟩
    rw [hl.unique (h.lists i hi)] at hd
    exact ⟨i, hi, hd⟩
  · rintro ⟨i, hi, hd⟩
    exact ⟨i, hi, _, h.lists i hi, hd⟩

/-- The free chunks of a zone are those of the heap. -/
theorem HeapRep.freeChunk_iff (h : HeapRep L H s) (hd : d ∈ H.descs) :
    s.FreeChunk d c ↔ c ∈ (H.zone d).free := by
  constructor
  · rintro ⟨l, hl, hc⟩
    rwa [hl.unique (h.zones d hd).freeChunks] at hc
  · intro hc
    exact ⟨_, (h.zones d hd).freeChunks, hc⟩

theorem HeapRep.chunkSize (h : HeapRep L H s) (hd : d ∈ H.descs) :
    s.chunkSize d = classSize (H.zone d).idx := (h.zones d hd).chunkSize

/-- The chunks of a zone are those of the heap. -/
theorem HeapRep.chunkOf_iff (h : HeapRep L H s) (hd : d ∈ H.descs) (hfit : (H.zone d).Fits L) :
    s.ChunkOf d c ↔ H.Owns L d c := by
  have hpage : s.mem (s.zonePage d + 2 * wordBytes) = L.addr (H.zone d).page := by
    rw [State.zonePage, (h.zones d hd).page]
    exact h.pages.addr hfit.page_lt
  rw [State.ChunkOf, Heap.Owns, ZoneData.mem_chunks, hpage, h.chunkSize hd, h.pageSize]
  rfl

/-- A represented heap that serves users is well formed in terms of the state. -/
theorem HeapRep.wellFormed (h : HeapRep L H s) (hv : Serves L r a₀ H blocks leaked)
    (S : Site L r a₀) :
    PageAllocator.WellFormed s.pages r
        (H.descs.map H.pageGroup ++ (blockGroups L blocks ++ leaked)) H.pages.free ∧
      ZoneAllocator.WellFormed s H.lists (fun d => (H.zone d).free) (fun d => (H.zone d).page)
        (H.descs.map H.pageGroup ++ (blockGroups L blocks ++ leaked)) blocks := by
  have hw := hv.wf
  have hL := S.sound
  constructor
  · apply h.pages.wellFormed hw.small hw.used
    intro g hg
    by_cases hgr : g = r
    · exact hgr ▸ S.reserved
    · rcases List.mem_append.mp hg with hg | hg
      · exact (hv.adjacent S).2 g (hw.used.mem_iff.mpr hg) hgr
      · exact (hv.adjacent S).1 g hg
  · refine ⟨h.lists, hw.nodup, fun i hi z => ⟨fun hz => ?_, fun hz => ?_⟩, fun i hi => ?_,
      fun z hz => (h.zones z hz).freeChunks, hw.free_nodup, fun z hz c hc => ?_,
      fun z hz => (h.zones z hz).freeChunksCount.symm, fun z hz => ⟨?_, ?_⟩, ?_, ?_,
      fun z hz hne => ?_, fun z hz c hc hnot => ?_⟩
    · have hzd := Heap.mem_descs.mpr ⟨i, hi, hz⟩
      refine ⟨hzd, ?_⟩
      rw [h.chunkSize hzd, hw.idx i hi z hz]
      rfl
    · obtain ⟨hz, hsize⟩ := hz
      rw [h.chunkSize hz] at hsize
      have hidx : (H.zone z).idx = i := classSize_inj.mp hsize
      exact hidx ▸ hw.mem_list hz
    · rw [h.counts i hi, Heap.freeCount, Heap.freeChunks, List.length_flatMap]
      refine congrArg List.sum (List.map_congr_left fun z hz => ?_)
      exact (h.zones z (Heap.mem_descs.mpr ⟨i, hi, hz⟩)).freeChunksCount.symm
    · exact (h.chunkOf_iff hz (hw.fits z hz)).mpr (hw.free_sub z hz c hc)
    · rw [State.zonePage, (h.zones z hz).page, PageState.descriptor_eq h.pages.config]
    · exact List.mem_append_left _ (List.mem_map_of_mem (f := H.pageGroup) hz)
    · exact List.Nodup.map_on (fun x hx y hy he => hw.eq_of_page hx hy he) hw.nodup
    · rw [h.zoneDescIdx]
      exact hw.grounded.root_mem
    · -- for the class of descriptors itself the owner stands behind the zone in the list
      rw [h.zoneDescIdx]
      have howner : ∃ y ∈ H.lists descIdx, y ≠ z ∧ H.Owns L y z := by
        by_cases hzl : z ∈ H.lists descIdx
        · exact hw.grounded.exists_owner (hw.nodup_list descIdx_lt) hzl hne
        · obtain ⟨y, hy, hyz⟩ := hw.owned z hz hne
          exact ⟨y, hy, fun e => hzl (e ▸ hy), hyz⟩
      obtain ⟨y, hy, hyne, hyz⟩ := howner
      have hyd := Heap.Wf.mem_descs_of_list hy
      exact ⟨y, hy, hyne, (h.chunkOf_iff hyd (hw.fits y hyd)).mpr hyz,
        fun hfree => hw.free_notMem_descs hL hyd hfree hz⟩
    · have hown := (h.chunkOf_iff hz (hw.fits z hz)).mp hc
      have htaken : c ∈ H.taken L := Heap.mem_taken.mpr ⟨z, hz, ZoneData.mem_taken.mpr ⟨hown, hnot⟩⟩
      rcases List.mem_append.mp (hw.taken.mem_iff.mp htaken) with hd | hl
      · exact Or.inl (List.mem_of_mem_erase hd)
      · obtain ⟨b, hb, -, hptr⟩ := mem_blockChunks.mp hl
        exact Or.inr ⟨b, hb, hptr⟩

/-! ### Every run -/

variable {regions : List Region} {ps : ℕ} {p : PageState}

/-- In every run of the zone allocator on an initialised page allocator all zones are represented as
they should be. -/
theorem Run.zonesWellFormed_of_init (hg : GoodArguments regions ps) (hps : ps ≤ 4096)
    (hpages : PageAllocator.init regions ps p = .ok (true, s₀.pages))
    (hinit : ZoneAllocator.init ps s₀ = .ok (true, s₁)) (hrun : Run s₁ s blocks) :
    ∃ reserved live freeGroups zones free page,
      PageAllocator.WellFormed s.pages reserved live freeGroups ∧
      ZoneAllocator.WellFormed s zones free page live blocks := by
  have hu := hg.usable hpages
  have S := hu.site hg.few hps
  have hr₀ := ((PageAllocator.init_spec hu.toFitting (pageCount_lt hg.few)).of_run_eq hpages).2.1
  have h₁ := (ZoneAllocator.init_spec S hr₀).of_run_eq hinit
  rcases hal : (Pages.initial (accepted ps regions) ps).allocate 1 with ⟨_ | g, a⟩ <;> rw [hal] at h₁
  · exact absurd h₁.1 (by simp)
  · obtain ⟨H, leaked, hr, hv, -⟩ :=
      hrun.simulation S ⟨_, [], h₁.2, S.serves_initial hal, fun _ => rfl⟩
    obtain ⟨hp, hz⟩ := hr.wellFormed hv S
    exact ⟨_, _, _, _, _, _, hp, hz⟩

end WellFormed

section Separate

attribute [local instance] lp64

/-- The invariant after a block of eight bytes has been allocated. -/
theorem Run.zonesWellFormed_separate : ∃ p s₀ s₁ s b,
    PageAllocator.init separateRegions 256 p = .ok (true, s₀.pages) ∧
      ZoneAllocator.init 256 s₀ = .ok (true, s₁) ∧ Run s₁ s [b] ∧
      ∃ reserved live freeGroups zones free page,
        PageAllocator.WellFormed s.pages reserved live freeGroups ∧
        ZoneAllocator.WellFormed s zones free page live [b] := by
  obtain ⟨s₁, s, b, hinit, hrun⟩ := exists_run_separate
  obtain ⟨p, s₀, hpages, hzones⟩ := init_true hinit
  exact ⟨p, s₀, s₁, s, b, hpages, hzones, hrun,
    Run.zonesWellFormed_of_init separateRegions_good (by decide) hpages hzones hrun⟩

end Separate

end Liballocator
