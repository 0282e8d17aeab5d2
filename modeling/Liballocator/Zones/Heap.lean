import Liballocator.Zones.Classes
import Liballocator.Pages.Runs
import Liballocator.Library.Ownership

/-!
# Zones

`Heap` is what the zone allocator keeps track of: the page allocator's groups, the zones of each
class in the order of their list, and for every zone its page, its class and its free chunks in the
order of their list.  A zone is known by the address of its descriptor.

`Heap.Wf` is the invariant.  The chunks that are not free are the descriptors of the zones, except
for the initial one, together with the chunks `live` that somebody else holds; the groups that are
not free are the reserved group, the pages of the zones and the groups `held` of somebody else.
Every function that changes a heap has one lemma saying how `live` and `held` change.
-/

namespace Liballocator

open Tiling Families Ownership

variable [Platform]

/-! ### Chunks -/

/-- A zone. -/
structure ZoneData where
  /-- The number of its page. -/
  page : ℕ
  /-- Its class. -/
  idx : ℕ
  /-- The free chunks, in the order of their list. -/
  free : List ℕ
  deriving DecidableEq, Repr

namespace ZoneData

section Definitions

variable (L : Layout) (z : ZoneData)

/-- Number of the chunks of a zone. -/
def chunksCount : ℕ := L.pageSize / classSize z.idx

/-- The addresses of the chunks of a zone. -/
def chunks : List ℕ :=
  (List.range (z.chunksCount L)).map fun j => L.addr z.page + j * classSize z.idx

/-- The chunks that are not free. -/
def taken : List ℕ := (z.chunks L).filter fun c => c ∉ z.free

/-- The page of the zone is in the table, and it has room for two chunks. -/
structure Fits : Prop where
  page_lt : z.page < L.count
  size_lt : classSize z.idx < L.pageSize

end Definitions

variable {L : Layout} {z z' : ZoneData} {c c' : ℕ}

/-- The chunks of a zone lie one behind the other in its page. -/
theorem mem_chunks : c ∈ z.chunks L ↔
    ∃ j < z.chunksCount L, c = L.addr z.page + j * classSize z.idx := mem_chunksFrom

/-- A chunk is taken when it is not free. -/
theorem mem_taken : c ∈ z.taken L ↔ c ∈ z.chunks L ∧ c ∉ z.free := by
  simp only [taken, List.mem_filter, decide_eq_true_iff]

/-- A zone has as many chunks as fit in its page. -/
@[simp] theorem length_chunks : (z.chunks L).length = z.chunksCount L :=
  length_chunksFrom _ _ _

/-- No chunk is counted twice. -/
theorem nodup_chunks : (z.chunks L).Nodup := nodup_chunksFrom (classSize_pos _) _ _

/-- No taken chunk is counted twice. -/
theorem nodup_taken : (z.taken L).Nodup := nodup_chunks.filter _

/-- The chunks of a zone depend on its page and its class only. -/
theorem chunks_congr (hpage : z.page = z'.page) (hidx : z.idx = z'.idx) :
    z.chunks L = z'.chunks L := by
  rw [chunks, chunks, chunksCount, chunksCount, hpage, hidx]

/-- Chunks fill a page without a rest. -/
theorem Fits.dvd (hz : z.Fits L) (hL : L.Sound) : classSize z.idx ∣ L.pageSize := by
  obtain ⟨k, -, -, hk⟩ := hL.pageSize
  have hlt := hz.size_lt
  rw [classSize, hk] at *
  exact Nat.pow_dvd_pow 2 ((Nat.pow_lt_pow_iff_right (by omega)).mp hlt).le

/-- A page is filled by its chunks. -/
theorem Fits.mul_eq (hz : z.Fits L) (hL : L.Sound) :
    z.chunksCount L * classSize z.idx = L.pageSize := Nat.div_mul_cancel (hz.dvd hL)

/-- A page holds more than one chunk. -/
theorem Fits.two_le (hz : z.Fits L) (hL : L.Sound) : 2 ≤ z.chunksCount L := by
  have hmul := hz.mul_eq hL
  have hlt := hz.size_lt
  by_contra hc
  have hle : z.chunksCount L * classSize z.idx ≤ 1 * classSize z.idx :=
    Nat.mul_le_mul_right _ (by omega)
  omega

/-- Where the chunks of a zone lie. -/
structure ChunkAt (L : Layout) (z : ZoneData) (c : ℕ) : Prop where
  ge : L.addr z.page ≤ c
  le : c + classSize z.idx ≤ L.addr z.page + L.pageSize
  dvd : classSize z.idx ∣ c
  pos : 0 < c
  lt : c + classSize z.idx < 2 ^ width

/-- Every chunk of a zone lies at a place for a chunk. -/
theorem Fits.chunkAt (hz : z.Fits L) (hL : L.Sound) (hc : c ∈ z.chunks L) : ChunkAt L z c := by
  have hin := chunksFrom_page hc
  have hpos := hL.addr_pos z.page hz.page_lt
  have hlt := hL.addr_add_lt z.page hz.page_lt
  refine ⟨hin.1, hin.2, ?_, by omega, by omega⟩
  obtain ⟨j, -, rfl⟩ := mem_chunks.mp hc
  exact Nat.dvd_add ((hz.dvd hL).trans (hL.addr_dvd z.page hz.page_lt)) (Dvd.intro_left j rfl)

/-- Chunks are aligned to sixteen bytes. -/
theorem ChunkAt.dvd_sixteen (h : ChunkAt L z c) : 16 ∣ c := (classSize_dvd z.idx).trans h.dvd

/-- Different chunks of one zone do not overlap. -/
theorem chunks_apart (hc : c ∈ z.chunks L) (hc' : c' ∈ z.chunks L) (hne : c ≠ c') :
    c + classSize z.idx ≤ c' ∨ c' + classSize z.idx ≤ c :=
  chunksFrom_apart hc hc' hne

/-- Chunks of zones with different pages do not overlap. -/
theorem Fits.apart (hz : z.Fits L) (hz' : z'.Fits L) (hL : L.Sound) (hne : z.page ≠ z'.page)
    (hc : c ∈ z.chunks L) (hc' : c' ∈ z'.chunks L) :
    c + classSize z.idx ≤ c' ∨ c' + classSize z'.idx ≤ c := by
  have h₁ := hz.chunkAt hL hc
  have h₂ := hz'.chunkAt hL hc'
  have h₃ := h₁.ge
  have h₄ := h₁.le
  have h₅ := h₂.ge
  have h₆ := h₂.le
  rcases hL.addr_apart _ hz.page_lt _ hz'.page_lt hne with h | h <;> omega

/-- A chunk that is no longer free. -/
theorem taken_tail (hsub : ∀ x ∈ z.free, x ∈ z.chunks L) (hnd : z.free.Nodup) {cs : List ℕ}
    (hfree : z.free = c :: cs) :
    (ZoneData.taken L { z with free := cs }).Perm (c :: z.taken L) := by
  have hnot : c ∉ z.taken L := fun h => (mem_taken.mp h).2 (hfree ▸ List.mem_cons_self)
  rw [hfree] at hsub hnd
  refine (List.perm_ext_iff_of_nodup nodup_taken (List.nodup_cons.mpr ⟨hnot, nodup_taken⟩)).mpr
    fun x => ?_
  have hchunks : ZoneData.chunks L { z with free := cs } = z.chunks L := chunks_congr rfl rfl
  rw [List.mem_cons, mem_taken, mem_taken, hchunks, hfree, List.mem_cons, not_or]
  constructor
  · rintro ⟨hx, hxcs⟩
    by_cases hxc : x = c
    · exact Or.inl hxc
    · exact Or.inr ⟨hx, hxc, hxcs⟩
  · rintro (rfl | ⟨hx, -, hxcs⟩)
    · exact ⟨hsub x List.mem_cons_self, (List.nodup_cons.mp hnd).1⟩
    · exact ⟨hx, hxcs⟩

/-- A chunk that has become free. -/
theorem taken_cons (hc : c ∈ z.taken L) :
    (c :: ZoneData.taken L { z with free := c :: z.free }).Perm (z.taken L) := by
  have hnot : c ∉ ZoneData.taken L { z with free := c :: z.free } :=
    fun h => (mem_taken.mp h).2 List.mem_cons_self
  refine (List.perm_ext_iff_of_nodup (List.nodup_cons.mpr ⟨hnot, nodup_taken⟩)
    nodup_taken).mpr fun x => ?_
  have hchunks : ZoneData.chunks L { z with free := c :: z.free } = z.chunks L := chunks_congr rfl rfl
  rw [List.mem_cons, mem_taken, hchunks, mem_taken, List.mem_cons, not_or]
  constructor
  · rintro (rfl | ⟨hx, -, hxf⟩)
    · exact mem_taken.mp hc
    · exact ⟨hx, hxf⟩
  · rintro ⟨hx, hxf⟩
    by_cases hxc : x = c
    · exact Or.inl hxc
    · exact Or.inr ⟨hx, hxc, hxf⟩

/-- The zone is entirely free when its free list has all its chunks. -/
theorem taken_eq_nil_iff (hsub : ∀ x ∈ z.free, x ∈ z.chunks L) (hnd : z.free.Nodup) :
    z.taken L = [] ↔ z.free.length = z.chunksCount L := by
  have hsp : z.free.Subperm (z.chunks L) := List.subperm_of_subset hnd hsub
  constructor
  · intro h
    have hall : z.chunks L ⊆ z.free := by
      intro x hx
      by_contra hxf
      have : x ∈ z.taken L := mem_taken.mpr ⟨hx, hxf⟩
      rw [h] at this
      exact absurd this List.not_mem_nil
    have := (List.subperm_of_subset nodup_chunks hall).length_le
    have := hsp.length_le
    rw [length_chunks] at *
    omega
  · intro hlen
    have hperm := hsp.perm_of_length_le (by rw [length_chunks, hlen])
    rw [List.eq_nil_iff_forall_not_mem]
    intro x hx
    obtain ⟨hxc, hxf⟩ := mem_taken.mp hx
    exact hxf (hperm.mem_iff.mpr hxc)

end ZoneData

/-! ### Heaps -/

/-- What the zone allocator keeps track of. -/
structure Heap where
  /-- The groups of pages. -/
  pages : Pages
  /-- The descriptors of the zones of each class, in the order of their list. -/
  lists : ℕ → List ℕ
  /-- The zone with the given descriptor. -/
  zone : ℕ → ZoneData

namespace Heap

section Definitions

variable (L : Layout) (r : Group) (H : Heap)

/-- The descriptors of all zones. -/
def descs : List ℕ := (List.range maxZoneIdx).flatMap H.lists

/-- All chunks that are not free. -/
def taken : List ℕ := H.descs.flatMap fun d => (H.zone d).taken L

/-- The free chunks of one class. -/
def freeChunks (i : ℕ) : List ℕ := (H.lists i).flatMap fun d => (H.zone d).free

/-- Number of the free chunks of one class. -/
def freeCount (i : ℕ) : ℕ := (H.freeChunks i).length

/-- The page of a zone as a group. -/
def pageGroup (d : ℕ) : Group := ⟨(H.zone d).page, 1⟩

/-- `x` is a chunk of the zone `y`. -/
def Owns (y x : ℕ) : Prop := x ∈ (H.zone y).chunks L

/-- The groups of pages are replaced. -/
def withPages (a : Pages) : Heap := { H with pages := a }

/-- The free list of a zone is replaced. -/
def setFree (d : ℕ) (l : List ℕ) : Heap :=
  { H with zone := Function.update H.zone d { H.zone d with free := l } }

/-- The first free chunk of a zone is taken. -/
def takeChunk (d : ℕ) : Heap := H.setFree d (H.zone d).free.tail

/-- A chunk of a zone becomes free. -/
def giveChunk (d c : ℕ) : Heap := H.setFree d (c :: (H.zone d).free)

/-- A new zone in the given page; its chunks are free, the last one first. -/
def addZone (d i page : ℕ) : Heap :=
  { H with
    lists := Function.update H.lists i (d :: H.lists i)
    zone := Function.update H.zone d ⟨page, i, (ZoneData.chunks L ⟨page, i, []⟩).reverse⟩ }

/-- A zone leaves the list of its class. -/
def removeZone (d : ℕ) : Heap :=
  { H with
    lists := Function.update H.lists (H.zone d).idx ((H.lists (H.zone d).idx).erase d) }

/-- The invariant of a heap with the chunks `live` and the groups `held` of somebody else. -/
structure Wf (live : List ℕ) (held : List Group) : Prop where
  inv : H.pages.Inv
  count : H.pages.count = L.count
  small : L.count < 2 ^ 21
  nodup : H.descs.Nodup
  idx : ∀ i < maxZoneIdx, ∀ d ∈ H.lists i, (H.zone d).idx = i
  fits : ∀ d ∈ H.descs, (H.zone d).Fits L
  free_nodup : ∀ d ∈ H.descs, (H.zone d).free.Nodup
  free_sub : ∀ d ∈ H.descs, ∀ c ∈ (H.zone d).free, c ∈ (H.zone d).chunks L
  used : H.pages.used.Perm (r :: (H.descs.map H.pageGroup ++ held))
  taken : (H.taken L).Perm (H.descs.erase initialZone ++ live)
  grounded : Grounded (H.Owns L) initialZone (H.lists descIdx)
  owned : ∀ d ∈ H.descs, d ≠ initialZone → ∃ y ∈ H.lists descIdx, H.Owns L y d

end Definitions

variable {L : Layout} {r : Group} {H : Heap} {live : List ℕ} {held : List Group} {d d' c c' : ℕ}

omit [Platform] in
/-- The zones are those in one of the lists. -/
theorem mem_descs : d ∈ H.descs ↔ ∃ i < maxZoneIdx, d ∈ H.lists i := by
  simp [descs]

/-- The taken chunks are those of the zones. -/
theorem mem_taken : c ∈ H.taken L ↔ ∃ d ∈ H.descs, c ∈ (H.zone d).taken L := List.mem_flatMap

omit [Platform] in
/-- The free chunks of a class are those of its zones. -/
theorem mem_freeChunks {i : ℕ} : c ∈ H.freeChunks i ↔ ∃ d ∈ H.lists i, c ∈ (H.zone d).free :=
  List.mem_flatMap

/-! ### Consequences of the invariant -/

/-- The groups can store their sizes. -/
theorem Wf.pages_count_lt (h : H.Wf L r live held) : H.pages.count < 2 ^ 21 := h.count ▸ h.small

/-- The zones for descriptors are zones. -/
theorem Wf.mem_descs_of_list (h : d ∈ H.lists descIdx) : d ∈ H.descs :=
  mem_descs.mpr ⟨descIdx, descIdx_lt, h⟩

/-- Every zone has one of the classes. -/
theorem Wf.idx_lt (h : H.Wf L r live held) (hd : d ∈ H.descs) : (H.zone d).idx < maxZoneIdx := by
  obtain ⟨i, hi, hdi⟩ := mem_descs.mp hd
  rwa [h.idx i hi d hdi]

/-- Every zone is in the list of its class. -/
theorem Wf.mem_list (h : H.Wf L r live held) (hd : d ∈ H.descs) :
    d ∈ H.lists (H.zone d).idx := by
  obtain ⟨i, hi, hdi⟩ := mem_descs.mp hd
  rwa [h.idx i hi d hdi]

/-- The initial zone is one of the zones. -/
theorem Wf.initial_mem (h : H.Wf L r live held) : initialZone ∈ H.descs :=
  mem_descs_of_list h.grounded.root_mem

/-- No page is used for two purposes. -/
theorem Wf.used_nodup (h : H.Wf L r live held) :
    (r :: (H.descs.map H.pageGroup ++ held)).Nodup :=
  h.used.nodup_iff.mp (List.nodup_append.mp h.inv.tiles.nodup).1

/-- The page of a zone is in use. -/
theorem Wf.pageGroup_mem (h : H.Wf L r live held) (hd : d ∈ H.descs) :
    H.pageGroup d ∈ H.pages.used :=
  h.used.mem_iff.mpr (List.mem_cons_of_mem _
    (List.mem_append_left _ (List.mem_map_of_mem hd)))

/-- The pages that are held are in use. -/
theorem Wf.held_mem (h : H.Wf L r live held) {g : Group} (hg : g ∈ held) : g ∈ H.pages.used :=
  h.used.mem_iff.mpr (List.mem_cons_of_mem _ (List.mem_append_right _ hg))

/-- No zone lies in the pages of the table. -/
theorem Wf.pageGroup_ne_reserved (h : H.Wf L r live held) (hd : d ∈ H.descs) :
    H.pageGroup d ≠ r := by
  rintro he
  exact (List.nodup_cons.mp h.used_nodup).1
    (he ▸ List.mem_append_left _ (List.mem_map_of_mem hd))

/-- The order of what somebody else holds does not matter. -/
theorem Wf.perm {live' : List ℕ} {held' : List Group} (h : H.Wf L r live held)
    (hlive : live.Perm live') (hheld : held.Perm held') : H.Wf L r live' held' :=
  { h with
    used := h.used.trans ((hheld.append_left _).cons r)
    taken := h.taken.trans (hlive.append_left _) }

/-- Different zones have different pages. -/
theorem Wf.eq_of_page (h : H.Wf L r live held) (hd : d ∈ H.descs) (hd' : d' ∈ H.descs)
    (hpage : (H.zone d).page = (H.zone d').page) : d = d' := by
  have hnd := (List.nodup_append.mp (List.nodup_cons.mp h.used_nodup).2).1
  exact List.inj_on_of_nodup_map hnd hd hd' (by rw [pageGroup, pageGroup, hpage])

/-- The pages of the zones are not reserved. -/
theorem Wf.not_reserved (h : H.Wf L r live held) (hd : d ∈ H.descs) :
    ¬r.Covers (H.zone d).page := by
  intro hcov
  have hr : r ∈ H.pages.used := h.used.mem_iff.mpr List.mem_cons_self
  have hg := h.pageGroup_mem hd
  have heq := h.inv.tiles.eq_of_covers (Pages.mem_groups.mpr (Or.inl hg))
    (Pages.mem_groups.mpr (Or.inl hr)) (i := (H.zone d).page)
    ⟨le_rfl, Nat.lt_succ_self _⟩ hcov
  have hnot := (List.nodup_cons.mp h.used_nodup).1
  exact hnot (heq ▸ List.mem_append_left _ (List.mem_map_of_mem hd))

/-- Different chunks do not overlap. -/
theorem Wf.chunks_apart (h : H.Wf L r live held) (hL : L.Sound) (hd : d ∈ H.descs)
    (hd' : d' ∈ H.descs) (hc : c ∈ (H.zone d).chunks L) (hc' : c' ∈ (H.zone d').chunks L)
    (hne : c ≠ c') :
    c + classSize (H.zone d).idx ≤ c' ∨ c' + classSize (H.zone d').idx ≤ c := by
  by_cases hdd : d = d'
  · subst hdd
    exact ZoneData.chunks_apart hc hc' hne
  · exact (h.fits d hd).apart (h.fits d' hd') hL (fun e => hdd (h.eq_of_page hd hd' e)) hc hc'

/-- A chunk belongs to one zone. -/
theorem Wf.eq_of_owns (h : H.Wf L r live held) (hL : L.Sound) (hd : d ∈ H.descs)
    (hd' : d' ∈ H.descs) (hc : H.Owns L d c) (hc' : H.Owns L d' c) : d = d' := by
  by_contra hdd
  have hpos := classSize_pos (H.zone d).idx
  have hpos' := classSize_pos (H.zone d').idx
  rcases (h.fits d hd).apart (h.fits d' hd') hL (fun e => hdd (h.eq_of_page hd hd' e)) hc hc'
    with hlt | hlt <;> omega

/-- No chunk is taken twice. -/
theorem Wf.taken_nodup (h : H.Wf L r live held) (hL : L.Sound) : (H.taken L).Nodup := by
  refine List.nodup_flatMap.mpr ⟨fun d _ => ZoneData.nodup_taken, ?_⟩
  refine h.nodup.imp_of_mem fun {d d'} hd hd' hne => ?_
  intro c hc hc'
  exact hne (h.eq_of_owns hL hd hd' (ZoneData.mem_taken.mp hc).1 (ZoneData.mem_taken.mp hc').1)

/-- The descriptors and the live chunks are all different. -/
theorem Wf.live_nodup (h : H.Wf L r live held) (hL : L.Sound) :
    (H.descs.erase initialZone ++ live).Nodup := h.taken.nodup_iff.mp (h.taken_nodup hL)

/-- A live chunk is a chunk of some zone, and it is not free. -/
theorem Wf.exists_zone (h : H.Wf L r live held) (hc : c ∈ live) :
    ∃ d ∈ H.descs, c ∈ (H.zone d).taken L :=
  mem_taken.mp (h.taken.mem_iff.mpr (List.mem_append_right _ hc))

/-- The chunk of a descriptor is not free. -/
theorem Wf.desc_taken (h : H.Wf L r live held) (hd : d ∈ H.descs) (hne : d ≠ initialZone) :
    ∃ y ∈ H.descs, d ∈ (H.zone y).taken L :=
  mem_taken.mp (h.taken.mem_iff.mpr
    (List.mem_append_left _ ((List.mem_erase_of_ne hne).mpr hd)))

/-- A live block is no descriptor. -/
theorem Wf.not_desc (h : H.Wf L r live held) (hL : L.Sound) (hc : c ∈ live) : c ∉ H.descs := by
  intro hd
  obtain ⟨d, hdd, hcd⟩ := h.exists_zone hc
  have hlt := ((h.fits d hdd).chunkAt hL (ZoneData.mem_taken.mp hcd).1).lt
  have hne : c ≠ initialZone := by
    unfold initialZone
    omega
  exact (List.nodup_append.mp (h.live_nodup hL)).2.2 c ((List.mem_erase_of_ne hne).mpr hd) c hc rfl

/-- A chunk is not the initial zone. -/
theorem Wf.chunk_ne_initial (h : H.Wf L r live held) (hL : L.Sound) (hd : d ∈ H.descs)
    (hc : H.Owns L d c) : c ≠ initialZone := by
  have hlt := ((h.fits d hd).chunkAt hL hc).lt
  unfold initialZone
  omega

end Heap

end Liballocator
