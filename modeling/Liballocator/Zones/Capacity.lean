import Liballocator.Zones.Restore
import Liballocator.Pages.Fragmentation

/-!
# How many blocks there is room for

The counters of free chunks and the number of free pages are changed by the allocation of a small
block as by `Counters.allocate`, whatever the lists of zones look like.  So they alone determine
which requests for small blocks succeed (`Run.requests_answered`).  The number of blocks of one size
that can be allocated one after the other is `Counters.capacity` (`Run.exists_requests_iff`): the
free chunks of the class and those of the zones for which there are pages, some of which are needed
for descriptors.  For large blocks of one size it is what the free groups have room for, each by
itself (`Run.exists_large_requests_iff`).
-/

namespace Liballocator

open Program Tiling

section Capacity

variable [Platform]

/-! ### Counters -/

/-- The numbers of the free chunks in the classes and of the free pages. -/
structure Counters where
  free : ℕ → ℕ
  pages : ℕ

namespace Counters

section Definitions

variable (ps : ℕ) (C : Counters)

/-- A chunk of the class `i` is taken. -/
def take (i : ℕ) : Counters := { C with free := Function.update C.free i (C.free i - 1) }

/-- Chunks of the class `i` are added. -/
def add (i k : ℕ) : Counters := { C with free := Function.update C.free i (C.free i + k) }

/-- A page becomes a zone of the class `i`, its descriptor takes a chunk. -/
def newZone (i : ℕ) : Option Counters :=
  if C.pages = 0 then none
  else some { (C.take descIdx).add i (ps / classSize i) with pages := C.pages - 1 }

/-- A zone of the class `i`, and before it one for descriptors when the last chunk is needed. -/
def allocateZone (i : ℕ) : Option Counters :=
  if i ≠ descIdx ∧ C.free descIdx = 1 then
    (C.newZone ps descIdx).bind fun C => C.newZone ps i
  else C.newZone ps i

/-- A chunk of the class `i`, of a new zone when there is none to spare. -/
def allocate (i : ℕ) : Option Counters :=
  if C.free i = (if i = descIdx then 1 else 0) then (C.allocateZone ps i).map fun C => C.take i
  else some (C.take i)

/-- The number of zones that `pages` pages are enough for when `chunks` chunks for descriptors are
free and a page holds `n` of them: each zone takes a page and all but the first `chunks - 1` zones
take a chunk of a page for descriptors. -/
def zonesLeft (n chunks pages : ℕ) : ℕ := pages - (pages + 1 - chunks + (n - 1)) / n

/-- The number of the chunks of the class `i` that can be allocated. -/
def capacity (i : ℕ) : ℕ :=
  if i = descIdx then
    C.free descIdx - 1 + C.pages * (ps / classSize descIdx - 1)
  else
    C.free i +
      zonesLeft (ps / classSize descIdx) (C.free descIdx) C.pages * (ps / classSize i)

/-- The counters after `k` chunks of the class `i` have been allocated. -/
def allocations (i : ℕ) : ℕ → Counters → Option Counters
  | 0, C => some C
  | k + 1, C => (C.allocate ps i).bind (allocations i k)

/-- Which requests for blocks of the given small sizes succeed. -/
def answers : List ℕ → Counters → List Bool
  | [], _ => []
  | size :: sizes, C =>
    match C.allocate ps (zoneIdx (chunkSize size)) with
    | some C => true :: answers sizes C
    | none => false :: answers sizes C

end Definitions

variable {ps n chunks pages i j k : ℕ} {C C' : Counters}

omit [Platform] in
@[simp] theorem take_free_self : (C.take i).free i = C.free i - 1 := Function.update_self _ _ _

omit [Platform] in
theorem take_free_of_ne (h : j ≠ i) : (C.take i).free j = C.free j := Function.update_of_ne h _ _

omit [Platform] in
@[simp] theorem add_free_self : (C.add i k).free i = C.free i + k := Function.update_self _ _ _

omit [Platform] in
theorem add_free_of_ne (h : j ≠ i) : (C.add i k).free j = C.free j := Function.update_of_ne h _ _

/-! ### The zones that are left -/

omit [Platform] in
theorem zonesLeft_zero : zonesLeft n chunks 0 = 0 := Nat.zero_sub _

omit [Platform] in
/-- The last page is of no use when the last chunk for descriptors is in reserve. -/
theorem zonesLeft_one_one (hn : 0 < n) : zonesLeft n 1 1 = 0 := by
  rw [zonesLeft, Nat.add_sub_cancel, Nat.add_sub_cancel' hn, Nat.div_self hn]

omit [Platform] in
/-- A zone whose descriptor takes a chunk that is not the last one. -/
theorem zonesLeft_succ (hn : 0 < n) (hc : 2 ≤ chunks) :
    zonesLeft n chunks (pages + 1) = zonesLeft n (chunks - 1) pages + 1 := by
  have he : pages + 1 + 1 - chunks = pages + 1 - (chunks - 1) := by omega
  have hle : (pages + 1 - (chunks - 1) + (n - 1)) / n ≤ pages := by
    apply Nat.lt_succ_iff.mp
    rw [Nat.div_lt_iff_lt_mul hn, Nat.succ_mul]
    have := Nat.le_mul_of_pos_right pages hn
    omega
  rw [zonesLeft, zonesLeft, he, Nat.sub_add_comm hle]

omit [Platform] in
/-- A zone that needs a zone for descriptors before it. -/
theorem zonesLeft_one (hn : 2 ≤ n) :
    zonesLeft n 1 (pages + 2) = zonesLeft n (n - 1) pages + 1 := by
  have hpos : 0 < n := by omega
  have hdiv : (pages + 2 + 1 - 1 + (n - 1)) / n = (pages + 1) / n + 1 := by
    rw [← Nat.add_div_right _ hpos]
    congr 1
    omega
  have hle : (pages + 1) / n ≤ pages := by
    apply Nat.lt_succ_iff.mp
    exact Nat.div_lt_self (Nat.succ_pos _) hn
  have hlast : (pages + 1 - (n - 1) + (n - 1)) / n = (pages + 1) / n := by
    rcases Nat.le_total (n - 1) (pages + 1) with h | h
    · rw [Nat.sub_add_cancel h]
    · have hlt := Nat.sub_lt hpos Nat.one_pos
      rw [Nat.sub_eq_zero_of_le h, Nat.zero_add, Nat.div_eq_of_lt hlt,
        Nat.div_eq_of_lt (h.trans_lt hlt)]
  rw [zonesLeft, zonesLeft, hdiv, hlast]
  omega

/-! ### The capacity -/

/-- What is left of the capacity when a chunk to spare is taken. -/
theorem capacity_take (hi : (if i = descIdx then 2 else 1) ≤ C.free i) :
    C.capacity ps i = (C.take i).capacity ps i + 1 := by
  unfold capacity
  have hpages : (C.take i).pages = C.pages := rfl
  split_ifs at hi ⊢ with hid
  · subst hid
    rw [take_free_self, hpages]
    omega
  · rw [take_free_self, take_free_of_ne (Ne.symm hid), hpages]
    omega

/-- A new zone for descriptors when one chunk is left. -/
theorem newZone_desc (hC : C.newZone ps descIdx = some C') (hd : C.free descIdx = 1) :
    C'.free descIdx = ps / classSize descIdx ∧ C'.pages + 1 = C.pages ∧
      ∀ j, j ≠ descIdx → C'.free j = C.free j := by
  unfold newZone at hC
  split_ifs at hC with h0
  cases hC
  refine ⟨?_, Nat.succ_pred_eq_of_ne_zero h0, fun j hj => ?_⟩
  · rw [add_free_self, take_free_self, hd, Nat.sub_self, Nat.zero_add]
  · rw [add_free_of_ne hj, take_free_of_ne hj]

/-- A new zone of another class. -/
theorem newZone_of_ne (hC : C.newZone ps i = some C') (hid : i ≠ descIdx) :
    C'.free i = C.free i + ps / classSize i ∧ C'.free descIdx = C.free descIdx - 1 ∧
      C'.pages + 1 = C.pages := by
  unfold newZone at hC
  split_ifs at hC with h0
  cases hC
  refine ⟨?_, ?_, Nat.succ_pred_eq_of_ne_zero h0⟩
  · rw [add_free_self, take_free_of_ne hid]
  · rw [add_free_of_ne hid.symm, take_free_self]

theorem newZone_eq_none : C.newZone ps i = none ↔ C.pages = 0 := by
  unfold newZone
  split_ifs with h0 <;> simp [h0]

/-- A new zone does not change the capacity. -/
theorem capacity_allocateZone (hn : 2 ≤ ps / classSize descIdx) (hpos : 0 < ps / classSize i)
    (hd : 1 ≤ C.free descIdx) (hneed : C.free i = if i = descIdx then 1 else 0)
    (hC : C.allocateZone ps i = some C') : C'.capacity ps i = C.capacity ps i ∧
      (if i = descIdx then 2 else 1) ≤ C'.free i ∧ 1 ≤ C'.free descIdx := by
  unfold allocateZone at hC
  by_cases hid : i = descIdx
  · subst hid
    rw [if_pos rfl] at hneed
    rw [if_neg (by simp)] at hC
    obtain ⟨hfree, hpages, -⟩ := newZone_desc hC hneed
    rw [capacity, capacity, if_pos rfl, if_pos rfl, if_pos rfl, hfree, hneed, ← hpages,
      Nat.succ_mul]
    omega
  rw [if_neg hid] at hneed
  simp only [capacity, if_neg hid, hneed]
  by_cases hone : C.free descIdx = 1
  · rw [if_pos ⟨hid, hone⟩] at hC
    obtain ⟨K, hK, hC⟩ := Option.bind_eq_some_iff.mp hC
    obtain ⟨hfree, hpages, hother⟩ := newZone_desc hK hone
    obtain ⟨hfree', hdesc', hpages'⟩ := newZone_of_ne hC hid
    rw [hfree', hdesc', hfree, hother i hid, hneed, hone, ← hpages, ← hpages',
      zonesLeft_one hn, Nat.succ_mul]
    omega
  · rw [if_neg fun h => hone h.2] at hC
    obtain ⟨hfree', hdesc', hpages'⟩ := newZone_of_ne hC hid
    rw [hfree', hdesc', hneed, ← hpages', zonesLeft_succ (by omega) (by omega), Nat.succ_mul]
    omega

/-- When no zone can be added, nothing is left of the capacity. -/
theorem capacity_allocateZone_none (hn : 2 ≤ ps / classSize descIdx)
    (hneed : C.free i = if i = descIdx then 1 else 0) (hC : C.allocateZone ps i = none) :
    C.capacity ps i = 0 := by
  unfold allocateZone at hC
  by_cases hid : i = descIdx
  · subst hid
    rw [if_pos rfl] at hneed
    rw [if_neg (by simp), newZone_eq_none] at hC
    rw [capacity, if_pos rfl, hneed, hC, Nat.zero_mul]
  rw [if_neg hid] at hneed
  rw [capacity, if_neg hid, hneed]
  by_cases hone : C.free descIdx = 1
  · rw [if_pos ⟨hid, hone⟩] at hC
    rw [hone]
    cases hK : C.newZone ps descIdx with
    | none =>
      rw [newZone_eq_none.mp hK, zonesLeft_zero, Nat.zero_mul]
    | some K =>
      rw [hK, Option.bind_some, newZone_eq_none] at hC
      obtain ⟨-, hpages, -⟩ := newZone_desc hK hone
      rw [← hpages, hC, zonesLeft_one_one (by omega), Nat.zero_mul]
  · rw [if_neg fun h => hone h.2, newZone_eq_none] at hC
    rw [hC, zonesLeft_zero, Nat.zero_mul]

/-- Every allocation takes one from the capacity. -/
theorem capacity_allocate (hn : 2 ≤ ps / classSize descIdx) (hpos : 0 < ps / classSize i)
    (hd : 1 ≤ C.free descIdx) (hC : C.allocate ps i = some C') :
    C.capacity ps i = C'.capacity ps i + 1 ∧ 1 ≤ C'.free descIdx := by
  have htake : ∀ {K : Counters}, (if i = descIdx then 2 else 1) ≤ K.free i →
      1 ≤ K.free descIdx → 1 ≤ (K.take i).free descIdx := by
    intro K hi hd
    by_cases hid : i = descIdx
    · subst hid
      rw [if_pos rfl] at hi
      rw [take_free_self]
      omega
    · rwa [take_free_of_ne (Ne.symm hid)]
  unfold allocate at hC
  by_cases hneed : C.free i = if i = descIdx then 1 else 0
  · rw [if_pos hneed] at hC
    obtain ⟨K, hK, rfl⟩ := Option.map_eq_some_iff.mp hC
    obtain ⟨hcap, hspare, hdesc⟩ := capacity_allocateZone hn hpos hd hneed hK
    exact ⟨hcap ▸ capacity_take hspare, htake hspare hdesc⟩
  · rw [if_neg hneed] at hC
    cases hC
    have hspare : (if i = descIdx then 2 else 1) ≤ C.free i := by
      split_ifs at hneed ⊢ with hid
      · subst hid
        omega
      · omega
    exact ⟨capacity_take hspare, htake hspare hd⟩

/-- As many chunks can be allocated as the capacity says. -/
theorem isSome_allocations_iff (hn : 2 ≤ ps / classSize descIdx) (hpos : 0 < ps / classSize i)
    (hd : 1 ≤ C.free descIdx) : (allocations ps i k C).isSome ↔ k ≤ C.capacity ps i := by
  induction k generalizing C with
  | zero => simp [allocations]
  | succ k ih =>
    rw [allocations]
    cases hC : C.allocate ps i with
    | none =>
      have hzero : C.capacity ps i = 0 := by
        unfold allocate at hC
        by_cases hneed : C.free i = if i = descIdx then 1 else 0
        · rw [if_pos hneed] at hC
          exact capacity_allocateZone_none hn hneed (Option.map_eq_none_iff.mp hC)
        · rw [if_neg hneed] at hC
          cases hC
      simp [hzero]
    | some C' =>
      obtain ⟨hcap, hd'⟩ := capacity_allocate hn hpos hd hC
      rw [Option.bind_some, ih hd', hcap, Nat.succ_le_succ_iff]

/-- Requests for blocks of one size succeed as often as chunks can be allocated. -/
theorem answers_replicate {size : ℕ} :
    answers ps (List.replicate k size) C = List.replicate k true ↔
      (allocations ps (zoneIdx (chunkSize size)) k C).isSome := by
  induction k generalizing C with
  | zero => simp [answers, allocations]
  | succ k ih =>
    rw [List.replicate_succ, List.replicate_succ, answers, allocations]
    cases C.allocate ps (zoneIdx (chunkSize size)) with
    | none => simp
    | some C' => rw [Option.bind_some, ← ih, List.cons_inj_right]

end Counters

/-! ### The counters of a heap -/

namespace Heap

variable {L : Layout} {r : Group} {H H' : Heap} {live : List ℕ} {held : List Group}
  {C C' : Counters} {c d i z : ℕ} {cs : List ℕ}

/-- The counters of the heap. -/
def Counts (H : Heap) (C : Counters) : Prop :=
  H.pages.freeCount = C.pages ∧ ∀ j < maxZoneIdx, H.freeCount j = C.free j

theorem Wf.counts_takeChunk (h : H.Wf L r live held) (hd : d ∈ H.descs)
    (hfree : (H.zone d).free = c :: cs) (hC : H.Counts C) :
    (H.takeChunk d).Counts (C.take (H.zone d).idx) := by
  refine ⟨hC.1, fun j hj => ?_⟩
  by_cases hji : j = (H.zone d).idx
  · have hlen := (h.freeChunks_takeChunk hd hfree).length_eq
    have hcount := hC.2 j hj
    rw [List.length_cons, ← hji] at hlen
    rw [← hji, Counters.take_free_self, ← hcount, freeCount, freeCount, ← hlen,
      Nat.add_sub_cancel]
  · rw [Counters.take_free_of_ne hji, ← hC.2 j hj, freeCount, freeCount, Heap.takeChunk,
      h.freeChunks_setFree_of_ne hj hji]

/-- The chunks of a new zone are free. -/
theorem counts_addZone {p : ℕ} (hd : d ∉ H.descs) (hi : i < maxZoneIdx) (hC : H.Counts C) :
    (H.addZone L d i p).Counts (C.add i (L.pageSize / classSize i)) := by
  refine ⟨hC.1, fun j hj => ?_⟩
  by_cases hji : j = i
  · subst hji
    rw [Counters.add_free_self, ← hC.2 j hj, freeCount, freeChunks_addZone_self hd hj,
      List.length_append, List.length_reverse, ZoneData.length_chunks, Nat.add_comm]
    rfl
  · rw [Counters.add_free_of_ne hji, ← hC.2 j hj, freeCount, freeChunks_addZone_of_ne hd hj hji]
    rfl

/-- A new zone changes the counters as it should, or there is no page for it. -/
theorem Wf.counts_newZone (h : H.Wf L r live held) (hL : L.Sound) (hi : i < maxZoneIdx)
    (hsize : classSize i < L.pageSize) (hget : H.getFreeZone descIdx = some z)
    (ht : H.TightBut L z) (hC : H.Counts C) :
    (∃ d H' C', H.newZone L i = (some d, H') ∧ H'.Wf L r live held ∧ H'.TightBut L d ∧
      H'.lists i = d :: H.lists i ∧ (H'.zone d).idx = i ∧ (H'.zone d).free ≠ [] ∧
      C.newZone L.pageSize i = some C' ∧ H'.Counts C') ∨
      ∃ H', H.newZone L i = (none, H') ∧ C.newZone L.pageSize i = none := by
  obtain ⟨hzl, d, cs, hfree⟩ := getFreeZone_eq_some hget
  have hz := Wf.mem_descs_of_list hzl
  have hidx : (H.zone z).idx = descIdx := h.idx descIdx descIdx_lt z hzl
  have hpage := h.inv.exists_page_iff
  rw [hC.1] at hpage
  rcases hal : H.pages.allocate 1 with ⟨_ | g, a⟩ <;> rw [hal] at hpage
  · right
    obtain ⟨n, -, he⟩ := h.newZone_none (i := i) hL hget hfree hal
    refine ⟨_, he, Counters.newZone_eq_none.mpr ?_⟩
    simpa using hpage
  · left
    obtain ⟨he, hm⟩ := h.newZone_some hL hi hsize hget ht hfree hal
    obtain ⟨-, h₂, -⟩ := h.newZone_steps hL hi hsize hzl hfree hal
    have hnot : d ∉ ((H.takeChunk z).withPages a).descs := h₂.not_desc hL List.mem_cons_self
    have hcost := h.inv.freeCount_allocate (n := 1) (g := g) (by rw [hal])
    rw [hal, hC.1] at hcost
    have hC₁ := h.counts_takeChunk hz hfree hC
    rw [hidx] at hC₁
    have hC₂ : ((H.takeChunk z).withPages a).Counts { C.take descIdx with pages := C.pages - 1 } :=
      ⟨Nat.eq_sub_of_add_eq hcost, hC₁.2⟩
    refine ⟨d, _, _, he, hm.wf, hm.tight, Function.update_self _ _ _, hm.idx, hm.free, ?_,
      counts_addZone hnot hi hC₂⟩
    exact if_neg (Nat.ne_of_gt (hpage.mp ⟨g, rfl⟩))

/-- A zone changes the counters as it should, and if there is no page for it, nothing is made. -/
theorem Wf.counts_allocateZone (h : H.Wf L r live held) (hL : L.Sound) (ht : H.Tight L)
    (hres : 1 ≤ H.freeCount descIdx) (hi : i < maxZoneIdx) (hsize : classSize i < L.pageSize)
    (hdesc : classSize descIdx < L.pageSize) (hC : H.Counts C) :
    (∃ d H' C', H.allocateZone L i = (some d, H') ∧ H'.Wf L r live held ∧ d ∈ H'.descs ∧
      (H'.zone d).idx = i ∧ (H'.zone d).free ≠ [] ∧
      C.allocateZone L.pageSize i = some C' ∧ H'.Counts C') ∨
      ∃ H', H.allocateZone L i = (none, H') ∧ C.allocateZone L.pageSize i = none := by
  obtain ⟨z, hget⟩ := exists_getFreeZone hres
  have ht' : H.TightBut L z := fun y hy hne _ => ht y hy hne
  have hshould : H.shouldAllocateZone descIdx ↔ C.free descIdx = 1 := by
    rw [shouldAllocateZone, if_pos rfl, hC.2 descIdx descIdx_lt]
  have hmem : ∀ {d} {H' : Heap}, H'.lists i = d :: H.lists i → d ∈ H'.descs := fun hl =>
    mem_descs.mpr ⟨i, hi, hl ▸ List.mem_cons_self⟩
  unfold Heap.allocateZone Counters.allocateZone
  by_cases hfirst : i ≠ descIdx ∧ C.free descIdx = 1
  · rw [if_pos hfirst, if_pos ⟨hfirst.1, hshould.mpr hfirst.2⟩]
    rcases h.counts_newZone hL descIdx_lt hdesc hget ht' hC with
      ⟨d, H₁, C₁, he, hw, ht₁, hl, -, hfree, hC₁, hcount⟩ | ⟨H', he, hnone⟩
    · -- the second zone gets its descriptor from the first one
      simp only [he, hC₁, Option.bind_some]
      rcases hw.counts_newZone hL hi hsize (getFreeZone_head hl hfree) ht₁ hcount with
        ⟨d', H', C', he', hw', -, hl', hidx, hfree', hC', hcount'⟩ | ⟨H', he', hnone⟩
      · left
        have hd' : d' ∈ H'.descs := mem_descs.mpr ⟨i, hi, hl' ▸ List.mem_cons_self⟩
        exact ⟨d', H', C', he', hw', hd', hidx, hfree', hC', hcount'⟩
      · exact Or.inr ⟨H', he', hnone⟩
    · right
      simp only [he, hnone]
      exact ⟨H', rfl, rfl⟩
  · rw [if_neg hfirst, if_neg fun hc => hfirst ⟨hc.1, hshould.mp hc.2⟩]
    rcases h.counts_newZone hL hi hsize hget ht' hC with
      ⟨d, H', C', he, hw, -, hl, hidx, hfree, hC', hcount⟩ | hnone
    · exact Or.inl ⟨d, H', C', he, hw, hmem hl, hidx, hfree, hC', hcount⟩
    · exact Or.inr hnone

/-- A chunk changes the counters as it should. -/
theorem Wf.counts_allocateChunk (h : H.Wf L r live held) (hL : L.Sound) (ht : H.Tight L)
    (hres : 1 ≤ H.freeCount descIdx) (hi : i < maxZoneIdx) (hsize : classSize i < L.pageSize)
    (hdesc : classSize descIdx < L.pageSize) (hC : H.Counts C) :
    (∃ c H' C', H.allocateChunk L i = (some c, H') ∧ C.allocate L.pageSize i = some C' ∧
      H'.Counts C') ∨
      ∃ H', H.allocateChunk L i = (none, H') ∧ C.allocate L.pageSize i = none := by
  have hneed : H.shouldAllocateZone i ↔ C.free i = if i = descIdx then 1 else 0 := by
    rw [shouldAllocateZone, hC.2 i hi]
  unfold Heap.allocateChunk Counters.allocate
  by_cases hshould : H.shouldAllocateZone i
  · rw [if_pos hshould, if_pos (hneed.mp hshould)]
    rcases h.counts_allocateZone hL ht hres hi hsize hdesc hC with
      ⟨d, H', C', he, hw, hd, rfl, hfree, hC', hcount⟩ | ⟨H', he, hnone⟩
    · left
      obtain ⟨c, cs, hcs⟩ := List.exists_cons_of_ne_nil hfree
      simp only [he, hcs, hC', List.head?_cons, Option.map_some]
      exact ⟨c, _, _, rfl, rfl, hw.counts_takeChunk hd hcs hcount⟩
    · right
      simp only [he, hnone]
      exact ⟨H', rfl, rfl⟩
  · rw [if_neg hshould, if_neg fun hc => hshould (hneed.mpr hc)]
    left
    have hpos : 0 < H.freeCount i := by
      apply Nat.pos_of_ne_zero
      intro h0
      by_cases hid : i = descIdx
      · exact absurd hres (by rw [← hid, h0]; decide)
      · exact hshould (by rw [shouldAllocateZone, h0, if_neg hid])
    obtain ⟨d, hget⟩ := exists_getFreeZone hpos
    obtain ⟨hdl, c, cs, hfree⟩ := getFreeZone_eq_some hget
    have hd : d ∈ H.descs := mem_descs.mpr ⟨i, hi, hdl⟩
    have hcount := h.counts_takeChunk hd hfree hC
    rw [h.idx i hi d hdl] at hcount
    simp only [hget, hfree, List.head?_cons]
    exact ⟨c, _, _, rfl, rfl, hcount⟩

end Heap

/-! ### Every run -/

variable {L : Layout} {r : Group} {a₀ : Pages} {H : Heap} {blocks : List Block}
  {leaked : List Group} {s s' s₀ s₁ : State} {C : Counters} {l : List (ℕ × Bool)}
  {sizes : List ℕ} {ps size k : ℕ}

/-- A heap with the same zones and blocks has the same counters. -/
theorem Serves.counts_unchanged {H' : Heap} (hv : Serves L r a₀ H blocks leaked)
    (hv' : Serves L r a₀ H' blocks leaked) (hu : H.Unchanged H') (hC : H.Counts C) :
    H'.Counts C := by
  have hused := hv'.wf.used
  rw [hu.map_pageGroup] at hused
  have hsum := ((hused.trans hv.wf.used.symm).map Span.size).sum_eq
  have hfree := hv.wf.inv.freeCount_add hv.wf.pages_count_lt
  have hfree' := hv'.wf.inv.freeCount_add hv'.wf.pages_count_lt
  have hcount := hv.wf.count.trans hv'.wf.count.symm
  refine ⟨?_, fun j hj => (hu.freeCount hj).trans (hC.2 j hj)⟩
  rw [← hC.1]
  omega

/-- The allocation of a small block changes the counters as it should. -/
theorem Serves.counts_allocate (hv : Serves L r a₀ H blocks leaked) (A : Arena L r)
    (hpos : 0 < size) (hs : Small L.pageSize size) (hC : H.Counts C) :
    (∃ C', C.allocate L.pageSize (zoneIdx (chunkSize size)) = some C' ∧
      (H.allocate L size).1 ≠ 0 ∧ (H.allocate L size).2.Counts C') ∨
    C.allocate L.pageSize (zoneIdx (chunkSize size)) = none ∧
      (H.allocate L size).1 = 0 ∧ (H.allocate L size).2.Counts C := by
  have hw := hv.wf
  have hlt : classSize (zoneIdx (chunkSize size)) < L.pageSize :=
    (hs.classSize_eq A.pageSize_le).1 ▸ hs.2
  have hcall : H.allocate L size = ((H.allocateChunk L (zoneIdx (chunkSize size))).1.getD 0,
      (H.allocateChunk L (zoneIdx (chunkSize size))).2) := by
    rw [Heap.allocate, if_neg hpos.ne', if_pos hs]
  have hserves := hv.allocate A size
  rw [hcall] at hserves ⊢
  rcases hw.counts_allocateChunk A.sound hv.tight hv.reserve (A.idx_lt hlt) hlt A.descSize_lt hC
    with ⟨c, H', C', he, hC', hcount⟩ | ⟨H', he, hnone⟩
  · left
    have hne : c ≠ 0 := by
      rcases hw.allocateChunk A.sound hv.tight hv.reserve (A.idx_lt hlt) hlt A.descSize_lt with
        ⟨c', H'', he', hm⟩ | ⟨H'', he', -⟩
      · cases he.symm.trans he'
        exact (hv.allocateSmall A hs hm).1
      · cases he.symm.trans he'
    rw [he]
    exact ⟨C', hC', hne, hcount⟩
  · right
    rw [he] at hserves ⊢
    obtain ⟨-, hv', hu⟩ := hserves.resolve_right fun h => h.1 rfl
    exact ⟨hnone, rfl, hv.counts_unchanged hv' hu hC⟩

/-- Requests for blocks, and whether they succeed. -/
inductive State.Requests : State → List (ℕ × Bool) → State → Prop
  | nil {s : State} : State.Requests s [] s
  | cons {s s' s'' : State} {l : List (ℕ × Bool)} {size ptr : ℕ} :
    Liballocator.allocate size s = .ok (ptr, s') → State.Requests s' l s'' →
    State.Requests s ((size, decide (ptr ≠ 0)) :: l) s''

/-- The counters of a state. -/
def State.counters (s : State) : Counters :=
  ⟨fun i => (s.self.zones i).freeChunksCount, s.pages.self.freePagesCount⟩

theorem HeapRep.counts_counters (hr : HeapRep L H s) : H.Counts s.counters :=
  ⟨hr.pages.table.freeCount.symm, fun i hi => (hr.counts i hi).symm⟩

/-- The counters answer the requests for small blocks. -/
theorem State.Requests.answers (hreq : s.Requests l s') (S : Site L r a₀) (hr : HeapRep L H s)
    (hv : Serves L r a₀ H blocks leaked) (hl : ∀ p ∈ l, 0 < p.1 ∧ Small L.pageSize p.1)
    (hC : H.Counts C) : l.map Prod.snd = C.answers L.pageSize (l.map Prod.fst) := by
  induction hreq generalizing H blocks C with
  | nil => rfl
  | @cons s s' s'' l size ptr hcall _ ih =>
    obtain ⟨⟨hpos, hs⟩, hl'⟩ := List.forall_mem_cons.mp hl
    obtain ⟨rfl, hr', -⟩ := (hr.allocate hv S.toArena size).of_run_eq hcall
    rw [List.map_cons, List.map_cons, Counters.answers]
    rcases hv.counts_allocate S.toArena hpos hs hC with ⟨C', hC', hne, hcount⟩ | ⟨hC', h0, hcount⟩
    · have hv' := (hv.allocate S.toArena size).resolve_left fun h => hne h.1
      rw [hC', decide_eq_true hne, ih hr' hv'.2 hl' hcount]
    · have hv' := (hv.allocate S.toArena size).resolve_right fun h => h.1 h0
      rw [hC', decide_eq_false (not_not.mpr h0), ih hr' hv'.2.1 hl' hcount]

/-- Requests are answered. -/
theorem HeapRep.exists_requests (S : Site L r a₀) (hr : HeapRep L H s)
    (hv : Serves L r a₀ H blocks leaked) :
    ∃ l s', s.Requests l s' ∧ l.map Prod.fst = sizes := by
  induction sizes generalizing H s blocks with
  | nil => exact ⟨[], s, .nil, rfl⟩
  | cons size sizes ih =>
    obtain ⟨ptr, s₂, hcall, -, hr', -⟩ := hr.allocate hv S.toArena size
    have hnext : ∃ l s', s₂.Requests l s' ∧ l.map Prod.fst = sizes := by
      rcases hv.allocate S.toArena size with ⟨-, hv', -⟩ | ⟨-, hv'⟩
      · exact ih hr' hv'
      · exact ih hr' hv'
    obtain ⟨l, s', hreq, rfl⟩ := hnext
    exact ⟨_, s', .cons hcall hreq, rfl⟩

/-- A first request, and the other ones. -/
theorem State.requests_cons_iff {p : ℕ × Bool} : s.Requests (p :: l) s' ↔
    ∃ ptr s₂, Liballocator.allocate p.1 s = .ok (ptr, s₂) ∧ decide (ptr ≠ 0) = p.2 ∧
      s₂.Requests l s' := by
  constructor
  · intro h
    generalize hl : p :: l = l' at h
    cases h with
    | nil => cases hl
    | cons hcall h =>
      cases hl
      exact ⟨_, _, hcall, rfl, h⟩
  · obtain ⟨size, ok⟩ := p
    rintro ⟨ptr, s₂, hcall, rfl, h⟩
    exact .cons hcall h

/-- Large blocks take the room of one each. -/
theorem Serves.room_allocate (hv : Serves L r a₀ H blocks leaked) (A : Arena L r)
    (hpos : 0 < size) (hs : ¬Small L.pageSize size) :
    ((H.allocate L size).1 = 0 ∧ H.pages.room ((size + L.pageSize - 1) / L.pageSize) = 0) ∨
      (H.allocate L size).1 ≠ 0 ∧ H.pages.room ((size + L.pageSize - 1) / L.pageSize) =
        (H.allocate L size).2.pages.room ((size + L.pageSize - 1) / L.pageSize) + 1 := by
  have hiff := hv.exists_block_iff A hpos
  rw [if_neg hs] at hiff
  by_cases h0 : (H.allocate L size).1 = 0
  · left
    refine ⟨h0, Pages.room_eq_zero fun g hg => ?_⟩
    by_contra hle
    exact hiff.mpr ⟨g, hg, not_lt.mp hle⟩ h0
  · right
    obtain ⟨g, hg, hle⟩ := hiff.mp h0
    have hg' := hv.wf.inv.size_lt hv.wf.pages_count_lt (Pages.mem_groups.mpr (Or.inr hg))
    have hps := A.sound.pageSize.pos
    have hceil := ceilDiv_eq hps A.pageSize_le
      (((ceilDiv_le_iff hps A.pageSize_le hg').mpr hle).trans_lt hg')
    refine ⟨h0, ?_⟩
    unfold Heap.allocate at h0 ⊢
    rw [if_neg hpos.ne', if_neg hs, hceil] at h0 ⊢
    rcases hal : H.pages.allocate ((size + L.pageSize - 1) / L.pageSize) with ⟨_ | g', a⟩
    · rw [hal] at h0
      exact absurd rfl h0
    · have hroom := hv.wf.inv.room_allocate (g := g') hv.wf.pages_count_lt (by rw [hal])
      rwa [hal] at hroom

/-- Requests for large blocks of one size succeed as long as there is room. -/
theorem Serves.requests_large_iff (S : Site L r a₀) (hr : HeapRep L H s)
    (hv : Serves L r a₀ H blocks leaked) (hpos : 0 < size) (hs : ¬Small L.pageSize size) :
    (∃ s', s.Requests (List.replicate k (size, true)) s') ↔
      k ≤ H.pages.room ((size + L.pageSize - 1) / L.pageSize) := by
  induction k generalizing H s blocks with
  | zero => exact iff_of_true ⟨s, .nil⟩ (Nat.zero_le _)
  | succ k ih =>
    obtain ⟨ptr, s₂, hcall, rfl, hr', -⟩ := hr.allocate hv S.toArena size
    have hnext : (∃ s', s.Requests (List.replicate (k + 1) (size, true)) s') ↔
        (H.allocate L size).1 ≠ 0 ∧ ∃ s', s₂.Requests (List.replicate k (size, true)) s' := by
      simp only [List.replicate_succ, State.requests_cons_iff, decide_eq_true_iff]
      constructor
      · rintro ⟨s', ptr, s₃, hcall', hne, hreq⟩
        cases hcall.symm.trans hcall'
        exact ⟨hne, s', hreq⟩
      · rintro ⟨hne, s', hreq⟩
        exact ⟨s', _, s₂, hcall, hne, hreq⟩
    rw [hnext]
    rcases hv.room_allocate S.toArena hpos hs with ⟨h0, hroom⟩ | ⟨hne, hroom⟩
    · rw [hroom]
      exact iff_of_false (fun h => h.1 h0) (Nat.not_succ_le_zero k)
    · have hv' := (hv.allocate S.toArena size).resolve_left fun h => hne h.1
      rw [hroom, Nat.succ_le_succ_iff, ← ih hr' hv'.2]
      exact and_iff_right hne

/-- The free groups of the table in memory, as a list without duplicates. -/
theorem HeapRep.freeBlocks (S : Site L r a₀) (hr : HeapRep L H s)
    (hv : Serves L r a₀ H blocks leaked) : (H.pages.freeGroups.map (blockOf L)).Nodup ∧
      ∀ b, b ∈ H.pages.freeGroups.map (blockOf L) ↔ FreeGroup s.pages b := by
  constructor
  · exact (List.nodup_append.mp hv.wf.inv.tiles.nodup).2.1.map blockOf_injective
  · intro b
    rw [hr.pages.freeGroup_iff S.small, List.mem_map]
    exact exists_congr fun _ => and_congr_right fun _ => eq_comm

variable {regions : List Region}

/-- In every run the counters determine which requests of a sequence of requests for small blocks
succeed. -/
theorem Run.requests_answered (hg : GoodArguments regions ps) (hps : ps ≤ 4096)
    (hinit : init regions ps s₀ = .ok (true, s₁)) (hrun : Run s₁ s blocks)
    (hl : ∀ p ∈ l, 0 < p.1 ∧ Small ps p.1) (hreq : s.Requests l s') :
    l.map Prod.snd = s.counters.answers ps (l.map Prod.fst) := by
  have S := (hg.usable_of_init hinit).site hg.few hps
  obtain ⟨H, leaked, hr, hv, -⟩ := hg.running hps hinit hrun
  exact hreq.answers S hr hv hl hr.counts_counters

/-- In every run as many blocks of a small size can be allocated one after the other as the counters
say. -/
theorem Run.exists_requests_iff (hg : GoodArguments regions ps) (hps : ps ≤ 4096)
    (hinit : init regions ps s₀ = .ok (true, s₁)) (hrun : Run s₁ s blocks) (hpos : 0 < size)
    (hs : Small ps size) : (∃ s', s.Requests (List.replicate k (size, true)) s') ↔
      k ≤ s.counters.capacity ps (zoneIdx (chunkSize size)) := by
  have S := (hg.usable_of_init hinit).site hg.few hps
  obtain ⟨H, leaked, hr, hv, -⟩ := hg.running hps hinit hrun
  have hsmall : ∀ {l : List (ℕ × Bool)}, l.map Prod.fst = List.replicate k size →
      ∀ p ∈ l, 0 < p.1 ∧ Small ps p.1 := by
    intro l hl p hp
    have hmem := List.mem_map_of_mem (f := Prod.fst) hp
    rw [hl] at hmem
    rw [List.eq_of_mem_replicate hmem]
    exact ⟨hpos, hs⟩
  have hclass : 0 < ps / classSize (zoneIdx (chunkSize size)) :=
    Nat.div_pos ((hs.classSize_eq hps).1 ▸ hs.2.le) (classSize_pos _)
  have hdesc : 2 ≤ ps / classSize descIdx := by
    have htwo := (hv.wf.fits initialZone hv.wf.initial_mem).two_le S.sound
    rwa [ZoneData.chunksCount, hv.wf.idx descIdx descIdx_lt _ hv.wf.grounded.root_mem] at htwo
  have hres : 1 ≤ s.counters.free descIdx :=
    hr.counts_counters.2 descIdx descIdx_lt ▸ hv.reserve
  rw [← Counters.isSome_allocations_iff hdesc hclass hres, ← Counters.answers_replicate]
  constructor
  · rintro ⟨s', hreq⟩
    have hans := hreq.answers S hr hv (hsmall List.map_replicate) hr.counts_counters
    rw [List.map_replicate, List.map_replicate] at hans
    exact hans.symm
  · intro hans
    have hex : ∃ l s', s.Requests l s' ∧ l.map Prod.fst = List.replicate k size :=
      hr.exists_requests S hv
    obtain ⟨l, s', hreq, hfst⟩ := hex
    have hsnd := hreq.answers S hr hv (hsmall hfst) hr.counts_counters
    rw [hfst] at hsnd
    have hlist := List.zip_of_prod hfst (hsnd.trans hans)
    rw [List.zip_replicate'] at hlist
    exact ⟨s', hlist ▸ hreq⟩

/-- In every run as many large blocks of one size can be allocated one after the other as there is
room for in the free groups. -/
theorem Run.exists_large_requests_iff (hg : GoodArguments regions ps) (hps : ps ≤ 4096)
    (hinit : init regions ps s₀ = .ok (true, s₁)) (hrun : Run s₁ s blocks) (hpos : 0 < size)
    (hs : ¬Small ps size) {free : List PageBlock} (hnd : free.Nodup)
    (hfree : ∀ b, b ∈ free ↔ FreeGroup s.pages b) :
    (∃ s', s.Requests (List.replicate k (size, true)) s') ↔
      k ≤ (free.map fun b => b.count / ((size + ps - 1) / ps)).sum := by
  have S := (hg.usable_of_init hinit).site hg.few hps
  obtain ⟨H, leaked, hr, hv, -⟩ := hg.running hps hinit hrun
  obtain ⟨hnd', hfree'⟩ := hr.freeBlocks S hv
  have hperm := (List.perm_ext_iff_of_nodup hnd hnd').mpr fun b => (hfree b).trans (hfree' b).symm
  rw [hv.requests_large_iff S hr hpos hs, (hperm.map _).sum_eq, List.map_map]
  exact Iff.rfl

end Capacity

section Separate

attribute [local instance] lp64

/-- Three requests after `init`. -/
theorem Run.requests_answered_separate : ∃ s₁ l s',
    init separateRegions 256 blankState = .ok (true, s₁) ∧ s₁.Requests l s' ∧
      l.map Prod.fst = [8, 100, 60] ∧
      l.map Prod.snd = s₁.counters.answers 256 (l.map Prod.fst) := by
  obtain ⟨s₁, hinit, hr⟩ := separateRegions_usable.exists_init (by decide) (by decide)
    (show _ = some ⟨2, 1⟩ by decide) blankState
  have S := separateRegions_usable.site (by decide) (by decide)
  have hv := S.serves_initial (g := ⟨2, 1⟩) (Prod.ext (by decide) rfl)
  have hex : ∃ l s', s₁.Requests l s' ∧ l.map Prod.fst = [8, 100, 60] := hr.exists_requests S hv
  obtain ⟨l, s', hreq, hl⟩ := hex
  refine ⟨s₁, l, s', hinit, hreq, hl, Run.requests_answered separateRegions_good (by decide) hinit
    .start (fun p hp => ?_) hreq⟩
  have hall : ∀ size ∈ [8, 100, 60], 0 < size ∧ Small 256 size := by decide
  exact hall p.1 (hl ▸ List.mem_map_of_mem hp)

/-- After `init` two pages are free: there is room for exactly 32 blocks of 8 bytes. -/
theorem Run.exists_requests_iff_separate : ∃ s₁,
    init separateRegions 256 blankState = .ok (true, s₁) ∧
      (∃ s', s₁.Requests (List.replicate 32 (8, true)) s') ∧
      ¬∃ s', s₁.Requests (List.replicate 33 (8, true)) s' := by
  obtain ⟨s₁, hinit, hr⟩ := separateRegions_usable.exists_init (by decide) (by decide)
    (show _ = some ⟨2, 1⟩ by decide) blankState
  have hr : HeapRep (layout separateRegions_fitting) separateHeap s₁ := hr
  have hcount := hr.counts_counters
  have hcap : s₁.counters.capacity 256 (zoneIdx (chunkSize 8)) = 32 := by
    rw [Counters.capacity, ← hcount.1, ← hcount.2 _ descIdx_lt, ← hcount.2 _ (by decide)]
    decide
  have hiff := fun k => Run.exists_requests_iff (k := k) separateRegions_good (by decide) hinit
    .start (show 0 < 8 by decide) (show Small 256 8 by decide)
  exact ⟨s₁, hinit, (hiff 32).mpr hcap.ge, fun h => absurd ((hiff 33).mp h) (by rw [hcap]; decide)⟩

/-- After `init` there is room for exactly two blocks of a page. -/
theorem Run.exists_large_requests_iff_separate : ∃ s₁,
    init separateRegions 256 blankState = .ok (true, s₁) ∧
      (∃ s', s₁.Requests (List.replicate 2 (256, true)) s') ∧
      ¬∃ s', s₁.Requests (List.replicate 3 (256, true)) s' := by
  obtain ⟨s₁, hinit, hr⟩ := separateRegions_usable.exists_init (by decide) (by decide)
    (show _ = some ⟨2, 1⟩ by decide) blankState
  have hr : HeapRep (layout separateRegions_fitting) separateHeap s₁ := hr
  have S := separateRegions_usable.site (by decide) (by decide)
  have hv := S.serves_initial (g := ⟨2, 1⟩) (Prod.ext (by decide) rfl)
  have hblocks := hr.freeBlocks S hv
  have hiff := fun k => Run.exists_large_requests_iff (k := k) separateRegions_good (by decide)
    hinit .start (show 0 < 256 by decide) (show ¬Small 256 256 by decide)
    hblocks.1 hblocks.2
  exact ⟨s₁, hinit, (hiff 2).mpr (by decide), fun h => absurd ((hiff 3).mp h) (by decide)⟩

end Separate

end Liballocator
