import Liballocator.Zones.Heap
import Liballocator.Zones.Pool

/-!
# Zones in memory

`ZoneRep L m d z` says that the descriptor at `d` describes the zone `z`, links in the list of its
class apart.  It is a pool of the chunks of the zone, so the rules for pools apply; the chunks of
the zones of an allocator are multiples of sixteen.
-/

namespace Liballocator

open Program LinkedList

variable [Platform]

/-! ### Nodes at multiples of sixteen -/

theorem nodesApart_of_dvd {S : Set ℕ} (h : ∀ x ∈ S, 16 ∣ x) : NodesApart S := by
  intro a ha b hb he
  have h₁ := h a ha
  have h₂ := h b hb
  rcases Platform.wordBytes_eq with hw | hw <;> rw [hw] at he <;> omega

/-! ### The representation -/

/-- The descriptor at `d` describes the zone `z`. -/
structure ZoneRep (L : Layout) (m : Mem) (d : ℕ) (z : ZoneData) : Prop where
  page : m (d + 2 * wordBytes) = L.pageAt z.page
  chunkSize : m (d + 3 * wordBytes) = classSize z.idx
  chunksCount : m (d + 4 * wordBytes) = z.chunksCount L
  freeChunksCount : m (d + 5 * wordBytes) = z.free.length
  freeChunks : IsList (links m) (m (d + 6 * wordBytes)) z.free

variable {L : Layout} {m m' : Mem} {d c : ℕ} {z : ZoneData}

/-- A zone in memory is a pool. -/
theorem zoneRep_iff : ZoneRep L m d z ↔
    PoolRep m d (L.pageAt z.page) (classSize z.idx) (z.chunksCount L) z.free :=
  ⟨fun h => ⟨h.page, h.chunkSize, h.chunksCount, h.freeChunksCount, h.freeChunks⟩,
    fun h => ⟨h.page, h.chunkSize, h.chunksCount, h.freeChunksCount, h.freeChunks⟩⟩

/-- The description depends on the fields of the descriptor and on the links of the free chunks. -/
theorem ZoneRep.congr (h : ZoneRep L m d z)
    (hd : ∀ k, 2 ≤ k → k < 7 → m' (d + k * wordBytes) = m (d + k * wordBytes))
    (hf : ∀ x ∈ z.free, m' x = m x ∧ m' (x + wordBytes) = m (x + wordBytes)) :
    ZoneRep L m' d z :=
  zoneRep_iff.mpr ((zoneRep_iff.mp h).congr hd hf)

namespace Zone

/-- `takeChunk` takes the first free chunk. -/
theorem takeChunk_spec {cs : List ℕ} (h : ZoneRep L m d z) (hd : d ≠ 0)
    (hfree : z.free = c :: cs) (h16 : ∀ x ∈ z.free, 16 ∣ x) (hsep : ∀ x ∈ z.free, FieldsApart d x)
    (hlt : z.free.length < 2 ^ width) :
    wp (takeChunk d) (fun r m' => r = c ∧ ZoneRep L m' d { z with free := cs } ∧
      ∀ a ∉ freeWords d z.free, m' a = m a) m := by
  have hp := zoneRep_iff.mp h
  rw [hfree] at hp h16 hsep hlt ⊢
  apply (hp.takeChunk hd (nodesApart_of_dvd h16) hsep hlt).mono
  rintro _ m' ⟨rfl, hp', hfr⟩
  exact ⟨rfl, zoneRep_iff.mpr hp', hfr⟩

/-- `giveChunk` puts an unlinked chunk in front of the free list. -/
theorem giveChunk_spec (h : ZoneRep L m d z) (hd : d ≠ 0) (hc : c ≠ 0) (hnot : c ∉ z.free)
    (h16 : ∀ x ∈ c :: z.free, 16 ∣ x) (hsep : ∀ x ∈ c :: z.free, FieldsApart d x)
    (hlt : z.free.length + 1 < 2 ^ width) (hnext : m c = 0) (hprev : m (c + wordBytes) = 0) :
    wp (giveChunk d c) (fun _ m' => ZoneRep L m' d { z with free := c :: z.free } ∧
      ∀ a ∉ freeWords d (c :: z.free), m' a = m a) m :=
  ((zoneRep_iff.mp h).giveChunk hd hc hnot (nodesApart_of_dvd h16) hsep hlt hnext hprev).mono
    fun _ _ hp => ⟨zoneRep_iff.mpr hp.1, hp.2⟩

/-- `init` sets up an unlinked zone whose chunks are all free. -/
theorem init_spec {p i : ℕ} (hz : ZoneData.Fits L ⟨p, i, []⟩) (hL : L.Sound) (hd : d ≠ 0)
    (haddr : m (L.pageAt p + 2 * wordBytes) = L.addr p)
    (hpage : ∀ k < 7, L.pageAt p + 2 * wordBytes ≠ d + k * wordBytes)
    (hsep : ∀ x ∈ ZoneData.chunks L ⟨p, i, []⟩, FieldsApart d x) :
    wp (init d (L.pageAt p) L.pageSize (classSize i)) (fun _ m' =>
      ZoneRep L m' d ⟨p, i, (ZoneData.chunks L ⟨p, i, []⟩).reverse⟩ ∧
      m' d = 0 ∧ m' (d + wordBytes) = 0 ∧
      ∀ a, (∀ k < 7, a ≠ d + k * wordBytes) →
        a ∉ linkWords {x | x ∈ ZoneData.chunks L ⟨p, i, []⟩} → m' a = m a) m := by
  have hmul : L.pageSize / classSize i * classSize i = L.pageSize := hz.mul_eq hL
  have hlt := hL.addr_add_lt p hz.page_lt
  refine (init_rep hd (Layout.pageAt_ne_zero p) (classSize_pos i) hL.pageSize.pos
    (hL.addr_pos p hz.page_lt) (by omega) haddr hpage ?_ hsep).mono ?_
  · exact nodesApart_of_dvd fun x hx => (hz.chunkAt hL (c := x) hx).dvd_sixteen
  · exact fun _ _ hp => ⟨zoneRep_iff.mpr hp.1, hp.2⟩

/-- `isValidChunk` accepts the chunks of the zone. -/
theorem isValidChunk_spec (h : ZoneRep L m d z) (hz : z.Fits L) (hL : L.Sound) (hd : d ≠ 0)
    (haddr : m (L.pageAt z.page + 2 * wordBytes) = L.addr z.page) :
    wp (isValidChunk d c) (fun b m' => m' = m ∧ (b = true ↔ c ∈ z.chunks L)) m := by
  have hlt := hL.addr_add_lt z.page hz.page_lt
  have hmul := hz.mul_eq hL
  exact (zoneRep_iff.mp h).isValidChunk hd (Layout.pageAt_ne_zero _) (classSize_pos _) haddr
    (by omega)

end Zone

end Liballocator
