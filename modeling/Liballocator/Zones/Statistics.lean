import Liballocator.Zones.WellFormed
import Liballocator.Pages.Totals

/-!
# Statistics

`getStats` reads the lists of zones and the counters.  Its result is a function of the heap and of
the regions (`HeapRep.getStats`); the sums over the classes are accumulated modulo `2 ^ 32`.
-/

namespace Liballocator

open Program LinkedList Tiling

variable [Platform]

/-! ### The numbers of a heap -/

namespace Heap

section Definitions

variable (L : Layout) (H : Heap)

/-- The bytes of the free chunks of all classes. -/
def freeMemory : ℕ := ((List.range maxZoneIdx).map fun i => classSize i * H.freeCount i).sum

/-- What `getStats` of the zone allocator returns. -/
def zoneStats : ZoneAllocator.Stats :=
  let usedMemorySize := Word.mul H.descs.length L.pageSize
  let reservedMemorySize :=
    if H.descs.length > 0 then Word.mul (Word.sub H.descs.length 1) (classSize descIdx) else 0
  { usedMemorySize
    reservedMemorySize
    freeMemorySize := H.freeMemory % 2 ^ 32
    allocatedMemorySize :=
      Word.sub (Word.sub usedMemorySize reservedMemorySize) (H.freeMemory % 2 ^ 32) }

/-- What `getStats` of the page allocator returns. -/
def pageStats : PageAllocator.Stats :=
  { L.config.getStats with
    freeMemorySize := Word.mul H.pages.freeCount L.pageSize
    freePagesCount := H.pages.freeCount }

/-- What `getStats` returns. -/
def stats : Stats := combineStats (H.pageStats L) (H.zoneStats L)

end Definitions

end Heap

variable {L : Layout} {r : Group} {H : Heap} {live : List ℕ} {held : List Group}
  {s : State} {m : Mem} {n idx sum : ℕ}

/-! ### The loops of `getStats` -/

theorem add_mul_mod_32 (a b c : ℕ) : Word.add a (Word.mul b c) % 2 ^ 32 = (a + b * c) % 2 ^ 32 := by
  rw [add_mod_32, Nat.add_mod, Word.mul, Nat.mod_mod_of_dvd _ two_pow_32_dvd, ← Nat.add_mod]

/-- The inner loop counts the zones of a list. -/
theorem countZonesFrom_spec {l : List ℕ} {p q zone k fuel : ℕ} (hl : Seg (links m) p zone l q 0)
    (hfuel : l.length < fuel) : wp (ZoneAllocator.countZonesFrom fuel zone k)
      (fun c m' => c = k + l.length ∧ m' = m) m := by
  induction l generalizing p zone k fuel with
  | nil =>
    obtain ⟨fuel, rfl⟩ := Nat.exists_eq_add_of_lt hfuel
    rw [hl.2]
    simp [ZoneAllocator.countZonesFrom]
  | cons z l ih =>
    obtain ⟨fuel, rfl⟩ := Nat.exists_eq_add_of_lt hfuel
    obtain ⟨rfl, hne, -, hl⟩ := hl
    simp only [ZoneAllocator.countZonesFrom, hne, if_false, wp_bind, ListNode.wp_next, ne_eq,
      not_false_eq_true, true_and]
    apply (ih (k := k + 1) hl (by simp only [List.length_cons]; omega)).mono
    rintro c _ ⟨rfl, rfl⟩
    exact ⟨by rw [List.length_cons]; omega, rfl⟩

/-- The outer loop adds up the numbers of zones. -/
theorem HeapRep.usedZonesCountFrom (h : HeapRep L H s) (hw : H.Wf L r live held)
    (hn : idx + n ≤ maxZoneIdx) (hsum : sum < 2 ^ 32) :
    wp (ZoneAllocator.usedZonesCountFrom n idx sum) (fun c s' =>
      c = (sum + ((List.range' idx n).map fun i => (H.lists i).length).sum) % 2 ^ 32 ∧ s' = s) s := by
  induction n generalizing idx sum with
  | zero =>
    simp only [ZoneAllocator.usedZonesCountFrom, wp_pure, List.range'_zero, List.map_nil,
      List.sum_nil, Nat.add_zero]
    exact ⟨(Nat.mod_eq_of_lt hsum).symm, trivial⟩
  | succ n ih =>
    have hidx : idx < maxZoneIdx := by omega
    obtain ⟨q, hl⟩ := h.lists idx hidx
    simp only [ZoneAllocator.usedZonesCountFrom, wp_bind, ZoneAllocator.wp_zoneInfoAt, wp_liftMem']
    refine ⟨hidx, (countZonesFrom_spec hl (hw.length_list_lt hidx)).mono ?_⟩
    rintro _ _ ⟨rfl, rfl⟩
    apply (ih (by omega) (Nat.mod_lt _ (Nat.two_pow_pos 32))).mono
    rintro _ _ ⟨rfl, rfl⟩
    refine ⟨?_, rfl⟩
    rw [List.range'_succ, List.map_cons, List.sum_cons, add_mod_32, Nat.mod_add_mod, Nat.zero_add,
      Nat.add_assoc]

/-- The loop adds up the bytes of the free chunks. -/
theorem HeapRep.freeMemorySizeFrom (h : HeapRep L H s) (hw : H.Wf L r live held)
    (A : Arena L r) (hn : idx + n ≤ maxZoneIdx) (hsum : sum < 2 ^ 32) :
    wp (ZoneAllocator.freeMemorySizeFrom n idx sum) (fun c s' =>
      c = (sum + ((List.range' idx n).map fun i => classSize i * H.freeCount i).sum) % 2 ^ 32 ∧
        s' = s) s := by
  induction n generalizing idx sum with
  | zero =>
    simp only [ZoneAllocator.freeMemorySizeFrom, wp_pure, List.range'_zero, List.map_nil,
      List.sum_nil, Nat.add_zero]
    exact ⟨(Nat.mod_eq_of_lt hsum).symm, trivial⟩
  | succ n ih =>
    have hidx : idx < maxZoneIdx := by omega
    have hl := h.lists idx hidx
    have hcount := h.counts idx hidx
    simp only [ZoneAllocator.freeMemorySizeFrom, wp_bind, ZoneAllocator.wp_zoneInfoAt]
    refine ⟨hidx, ?_⟩
    rw [List.range'_succ, List.map_cons, List.sum_cons]
    cases hlist : H.lists idx with
    | nil =>
      -- a class without zones has no free chunks
      rw [hlist] at hl
      have hzero : H.freeCount idx = 0 := by
        rw [Heap.freeCount, Heap.freeChunks, hlist]
        rfl
      rw [isList_nil_iff.mp hl, if_pos rfl, hzero, Nat.mul_zero, Nat.zero_add]
      exact ih (by omega) hsum
    | cons z l =>
      rw [hlist] at hl
      have hmem : z ∈ H.lists idx := hlist ▸ List.mem_cons_self
      have hz : z ∈ H.descs := Heap.mem_descs.mpr ⟨idx, hidx, hmem⟩
      have hsize : s.mem (z + 3 * wordBytes) = classSize idx := by
        rw [(h.zones z hz).chunkSize, hw.idx idx hidx z hmem]
      have hne := hw.ne_zero A.sound hz
      rw [hl.head_eq, if_neg hne]
      simp only [wp_bind, wp_liftMem', Zone.wp_chunkSize, hsize, hcount]
      refine ⟨hne, (ih (by omega) (Nat.mod_lt _ (Nat.two_pow_pos 32))).mono ?_⟩
      rintro _ _ ⟨rfl, rfl⟩
      refine ⟨?_, rfl⟩
      rw [add_mul_mod_32, Nat.mod_add_mod, Nat.add_assoc]

omit [Platform] in
/-- Every zone is in one of the lists. -/
theorem Heap.length_descs : H.descs.length = ((List.range maxZoneIdx).map fun i =>
    (H.lists i).length).sum := by
  rw [Heap.descs, List.length_flatMap]

/-! ### `getStats` -/

/-- `getStats` of the zone allocator. -/
theorem HeapRep.zoneStats (h : HeapRep L H s) (hw : H.Wf L r live held) (A : Arena L r) :
    wp ZoneAllocator.getStats (fun st s' => st = H.zoneStats L ∧ s' = s) s := by
  have hlt : H.descs.length < 2 ^ 32 := by
    have h₁ := hw.length_descs_le
    have h₂ := hw.small
    omega
  simp only [ZoneAllocator.getStats, wp_bind]
  apply (h.usedZonesCountFrom hw (Nat.le_of_eq (Nat.zero_add _)) (Nat.two_pow_pos 32)).mono
  rintro _ _ ⟨rfl, rfl⟩
  rw [Nat.zero_add, ← List.range_eq_range', ← Heap.length_descs, Nat.mod_eq_of_lt hlt]
  simp only [wp_get, h.pageSize, h.zoneDescChunkSize]
  apply (h.freeMemorySizeFrom hw A (Nat.le_of_eq (Nat.zero_add _)) (Nat.two_pow_pos 32)).mono
  rintro _ _ ⟨rfl, rfl⟩
  rw [Nat.zero_add, ← List.range_eq_range', wp_pure]
  exact ⟨rfl, rfl⟩

/-- `getStats` of the page allocator depends on the regions and on the number of free pages. -/
theorem HeapRep.pageStats (h : HeapRep L H s) : s.pages.self.getStats = H.pageStats L := by
  rw [Heap.pageStats, ← h.pages.table.freeCount, h.pages.config]
  rfl

/-- `getStats` of the whole allocator. -/
theorem HeapRep.getStats (h : HeapRep L H s) (hw : H.Wf L r live held) (A : Arena L r) :
    wp getStats (fun st s' => st = H.stats L ∧ s' = s) s := by
  simp only [Liballocator.getStats, wp_bind, wp_get]
  apply (h.zoneStats hw A).mono
  rintro _ _ ⟨rfl, rfl⟩
  rw [wp_pure, h.pageStats]
  exact ⟨rfl, rfl⟩

end Liballocator
