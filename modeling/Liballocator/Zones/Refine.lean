import Liballocator.Zones.Represent

/-!
# The operations on zones refine the abstract ones

Each function of the zone allocator, run in a state that represents a heap, returns without a fault,
and the state it ends in represents the heap after the operation of the same name on `Heap`.  No
function writes to memory of somebody else.
-/

namespace Liballocator

open Program LinkedList Tiling

variable [Platform]

variable {L : Layout} {r : Group} {H : Heap} {live : List ℕ} {held : List Group}
  {s s' : State} {d c i x y n k a : ℕ}

omit [Platform] in
/-- The memory is that of the page allocator. -/
@[simp] theorem State.mem_mk {self : ZoneAllocator} {object : PageAllocator} {m : Mem} :
    State.mem ⟨self, ⟨object, m⟩⟩ = m := rfl

namespace ZoneAllocator

/-! ### Accesses to the array of lists -/

omit [Platform] in
/-- The rule for reading an entry of the array. -/
@[simp] theorem wp_zoneInfoAt {idx : ℕ} {Q : ZoneInfo → State → Prop} :
    wp (zoneInfoAt idx) Q s ↔ idx < maxZoneIdx ∧ Q (s.self.zones idx) s := by
  rw [zoneInfoAt]
  by_cases hi : idx ≥ maxZoneIdx
  · simp [hi]
  · simp [hi, Nat.lt_of_not_le hi]

omit [Platform] in
/-- The rule for writing an entry of the array. -/
@[simp] theorem wp_setZoneInfoAt {idx : ℕ} {info : ZoneInfo} {Q : PUnit → State → Prop} :
    wp (setZoneInfoAt idx info) Q s ↔ idx < maxZoneIdx ∧
      Q ⟨⟩ { s with self := { s.self with zones := Function.update s.self.zones idx info } } := by
  rw [setZoneInfoAt]
  by_cases hi : idx ≥ maxZoneIdx
  · simp [hi]
  · simp [hi, Nat.lt_of_not_le hi]

omit [Platform] in
/-- The rule for a call of the page allocator. -/
@[simp] theorem wp_callPageAllocator {α : Type} {z : PageM α} {Q : α → State → Prop} :
    wp (callPageAllocator z) Q s ↔ s.self.pageAllocator = true ∧
      wp z (fun a p => Q a { s with pages := p }) s.pages := by
  rw [callPageAllocator]
  by_cases h : s.self.pageAllocator <;> simp [h]

/-! ### Searching a zone -/

/-- The loop of `getFreeZone` finds the first zone of a list with a free chunk. -/
theorem getFreeZoneFrom_spec {m : Mem} {l : List ℕ} {p x q fuel : ℕ}
    (hl : Seg (links m) p x l q 0)
    (hcount : ∀ d ∈ l, m (d + 5 * wordBytes) = (H.zone d).free.length) (hfuel : l.length < fuel) :
    wp (getFreeZoneFrom fuel x) (fun z m' =>
      z = (l.find? fun d => (H.zone d).free ≠ []).getD 0 ∧ m' = m) m := by
  induction l generalizing p x fuel with
  | nil =>
    obtain ⟨fuel, rfl⟩ := Nat.exists_eq_add_of_lt hfuel
    rw [hl.2]
    simp [getFreeZoneFrom]
  | cons d l ih =>
    obtain ⟨fuel, rfl⟩ := Nat.exists_eq_add_of_lt hfuel
    obtain ⟨rfl, hx0, -, hl⟩ := hl
    simp only [getFreeZoneFrom, hx0, if_false, wp_bind, wp_pure, Zone.wp_freeChunksCount, wp_ite,
      ListNode.wp_next, hcount x List.mem_cons_self, ne_eq, not_false_eq_true, true_and]
    constructor
    · intro hpos
      have hne : (H.zone x).free ≠ [] := List.ne_nil_of_length_pos hpos
      rw [List.find?_cons_of_pos (by simpa using hne)]
      exact ⟨rfl, trivial⟩
    · intro hzero
      have hnil : (H.zone x).free = [] := List.eq_nil_of_length_eq_zero (by omega)
      rw [List.find?_cons_of_neg (by simpa using hnil)]
      exact ih hl (fun y hy => hcount y (List.mem_cons_of_mem _ hy))
        (by simp only [List.length_cons]; omega)

end ZoneAllocator

/-- The traversals of the lists of zones end before the bound on the rounds. -/
theorem Heap.Wf.length_list_lt (hw : H.Wf L r live held) (hi : i < maxZoneIdx) :
    (H.lists i).length < loopBound := by
  have h₁ := (Families.flatMap_perm (f := H.lists) (List.mem_range.mpr hi)).length_eq
  rw [List.length_append] at h₁
  have h₂ : H.descs.length = ((List.range maxZoneIdx).flatMap H.lists).length := rfl
  have h₃ := hw.length_descs_le
  have h₄ := hw.small
  have h₅ := two_pow_32_le
  unfold loopBound
  omega

/-- `getFreeZone` of the code refines `Heap.getFreeZone`. -/
theorem HeapRep.getFreeZone (h : HeapRep L H s) (hw : H.Wf L r live held) (hi : i < maxZoneIdx) :
    wp (ZoneAllocator.getFreeZone i) (fun z s' => z = (H.getFreeZone i).getD 0 ∧ s' = s) s := by
  obtain ⟨q, hl⟩ := h.lists i hi
  simp only [ZoneAllocator.getFreeZone, wp_bind, ZoneAllocator.wp_zoneInfoAt, wp_liftMem']
  refine ⟨hi, (ZoneAllocator.getFreeZoneFrom_spec (H := H) hl (fun d hd => ?_)
    (hw.length_list_lt hi)).mono ?_⟩
  · exact (h.zones d (Heap.mem_descs.mpr ⟨i, hi, hd⟩)).freeChunksCount
  · rintro z _ ⟨rfl, rfl⟩
    exact ⟨rfl, rfl⟩

/-- `shouldAllocateZone` of the code decides `Heap.shouldAllocateZone`. -/
theorem HeapRep.shouldAllocateZone (h : HeapRep L H s) (hi : i < maxZoneIdx) :
    wp (ZoneAllocator.shouldAllocateZone i) (fun b s' =>
      b = decide (H.shouldAllocateZone i) ∧ s' = s) s := by
  simp only [ZoneAllocator.shouldAllocateZone, wp_bind, wp_get, ZoneAllocator.wp_zoneInfoAt, wp_pure,
    h.zoneDescIdx, h.counts i hi]
  exact ⟨hi, rfl, trivial⟩

/-! ### Taking and giving a chunk -/

omit [Platform] in
/-- A new counter of one class does not change the heads of the lists. -/
theorem head_update_count {zones : ℕ → ZoneInfo} (j : ℕ) :
    (Function.update zones i { zones i with freeChunksCount := n } j).head = (zones j).head := by
  by_cases hji : j = i
  · rw [hji, Function.update_self]
  · rw [Function.update_of_ne hji]

/-- The counters after the one of the class of a zone has been adjusted. -/
theorem HeapRep.counts_update {l : List ℕ} (h : HeapRep L H s) (hw : H.Wf L r live held)
    (hn : n = (H.setFree d l).freeCount (H.zone d).idx) :
    ∀ j < maxZoneIdx, (Function.update s.self.zones (H.zone d).idx
      { s.self.zones (H.zone d).idx with freeChunksCount := n } j).freeChunksCount =
      (H.setFree d l).freeCount j := by
  intro j hj
  by_cases hji : j = (H.zone d).idx
  · rw [hji, Function.update_self]
    exact hn
  · rw [Function.update_of_ne hji, h.counts j hj, Heap.freeCount, Heap.freeCount,
      hw.freeChunks_setFree_of_ne hj hji]

/-- `allocateChunk` of the code takes the first free chunk of a zone. -/
theorem HeapRep.takeChunk (h : HeapRep L H s) (hw : H.Wf L r live held) (A : Arena L r)
    (hd : d ∈ H.descs) {cs : List ℕ} (hfree : (H.zone d).free = c :: cs) :
    wp (ZoneAllocator.allocateChunk d) (fun x s' => x = c ∧ HeapRep L (H.takeChunk d) s' ∧
      ∀ a ∈ H.untouched L live held, s'.mem a = s.mem a) s := by
  have hz := h.zones d hd
  have hidx := hw.idx_lt hd
  have hd0 := hw.ne_zero A.sound hd
  have hcount := (hw.freeChunks_takeChunk hd hfree).length_eq
  rw [List.length_cons] at hcount
  have hlt := hw.freeCount_lt A hidx
  have h32 := two_pow_32_le
  have hS : ∀ x ∈ (H.zone d).free, H.Owns L d x ∧ x ∉ H.descs := fun x hx =>
    ⟨hw.free_sub d hd x hx, hw.free_notMem_descs A.sound hd hx⟩
  simp only [ZoneAllocator.allocateChunk, wp_bind, wp_liftMem', Zone.wp_chunkSize, hz.chunkSize,
    zoneIdx_classSize (hidx.trans maxZoneIdx_lt), ZoneAllocator.wp_zoneInfoAt,
    ZoneAllocator.wp_setZoneInfoAt]
  refine ⟨hd0, hidx, hidx, ?_⟩
  have hlen : (H.zone d).free.length < 2 ^ width := by
    have h₁ := hw.free_length_le hd
    have h₂ := Heap.chunksCount_le (L := L) (H.zone d)
    have h₃ := A.pageSize_le
    omega
  refine (Zone.takeChunk_spec hz hd0 hfree (fun x hx =>
    hw.cell_dvd A.sound (Heap.cell_chunk hd (hS x hx).1)) (fun x hx =>
    hw.fieldsApart A.sound hd hd (hS x hx).1 (hS x hx).2) hlen).mono ?_
  rintro x m ⟨rfl, hrep, hfr⟩
  have hcs : (H.zone d).free.tail = cs := by rw [hfree, List.tail_cons]
  refine ⟨rfl, ?_, fun a ha => hfr a (hw.untouched_freeWords A hd (fun x hx => (hS x hx).1) ?_ ha)⟩
  · rw [Heap.takeChunk, hcs] at hcount ⊢
    refine h.setFree hw A hd hS rfl rfl head_update_count (h.counts_update hw ?_) hrep hfr
    rw [h.counts _ hidx, Heap.freeCount, ← hcount, Word.sub_eq (by omega), Nat.add_sub_cancel]
    · rfl
    · unfold Heap.freeCount at hlt
      omega
  · intro x hx
    rcases List.mem_cons.mp hx with rfl | hx
    · exact fun hl => hw.not_desc A.sound hl hd
    · exact hw.free_notMem_live A.sound hd hx

namespace ZoneAllocator

/-- The part of `deallocateChunk` that gives the chunk back to its zone. -/
def returnChunk (zone chunk : ℕ) : ZoneM PUnit := do
  let idx := zoneIdx (← Zone.chunkSize zone)
  let info ← zoneInfoAt idx
  setZoneInfoAt idx { info with freeChunksCount := Word.add info.freeChunksCount 1 }
  ListNode.initListNode chunk
  Zone.giveChunk zone chunk

/-- One turn of `deallocateChunk`. -/
theorem deallocateChunkWithin_succ (fuel chunk : ℕ) :
    deallocateChunkWithin (fuel + 1) chunk = (do
      let zone ← findZone chunk
      if zone = 0 then return false
      returnChunk zone chunk
      if (← Zone.chunksCount zone) = (← Zone.freeChunksCount zone) ∧ zone ≠ initialZone then
        removeZone zone
        clearZone zone
        deallocateChunkWithin fuel zone
      else
        return true) := by
  simp only [deallocateChunkWithin, returnChunk, bind_assoc]

end ZoneAllocator

/-- `returnChunk` gives back a chunk that somebody holds. -/
theorem HeapRep.giveChunk (h : HeapRep L H s) (hw : H.Wf L r live held) (A : Arena L r)
    (hd : d ∈ H.descs) (hown : H.Owns L d c) (hc : c ∈ live) :
    wp (ZoneAllocator.returnChunk d c) (fun _ s' => HeapRep L (H.giveChunk d c) s' ∧
      ∀ a ∈ H.untouched L (live.erase c) held, s'.mem a = s.mem a) s := by
  have hz := h.zones d hd
  have hidx := hw.idx_lt hd
  have hd0 := hw.ne_zero A.sound hd
  have hc0 := hw.cell_ne_zero A.sound (Heap.cell_chunk hd hown)
  have hcount := (hw.freeChunks_giveChunk (c := c) hd).length_eq
  rw [List.length_cons] at hcount
  have hlt := hw.freeCount_lt A hidx
  have h32 := two_pow_32_le
  have hnot : c ∉ (H.zone d).free := fun hf => hw.free_notMem_live A.sound hd hf hc
  have hcd : c ∉ H.descs := hw.not_desc A.sound hc
  have hS : ∀ x ∈ c :: (H.zone d).free, H.Owns L d x ∧ x ∉ H.descs := by
    intro x hx
    rcases List.mem_cons.mp hx with rfl | hx
    · exact ⟨hown, hcd⟩
    · exact ⟨hw.free_sub d hd x hx, hw.free_notMem_descs A.sound hd hx⟩
  have h16 : ∀ x ∈ c :: (H.zone d).free, 16 ∣ x := fun x hx =>
    hw.cell_dvd A.sound (Heap.cell_chunk hd (hS x hx).1)
  have hsep : ∀ x ∈ c :: (H.zone d).free, FieldsApart d x := fun x hx =>
    hw.fieldsApart A.sound hd hd (hS x hx).1 (hS x hx).2
  simp only [ZoneAllocator.returnChunk, wp_bind, wp_liftMem', Zone.wp_chunkSize, hz.chunkSize,
    zoneIdx_classSize (hidx.trans maxZoneIdx_lt), ZoneAllocator.wp_zoneInfoAt,
    ZoneAllocator.wp_setZoneInfoAt]
  refine ⟨hd0, hidx, hidx, (ListNode.initListNode_spec hc0).mono ?_⟩
  rintro _ m₁ ⟨hnext, hprev, hfr₁⟩
  -- the chunk is not yet in the free list of the zone
  have hz₁ : ZoneRep L m₁ d (H.zone d) := by
    refine hz.congr (fun k _ hk => hfr₁ _ (FieldsApart.notMem ?_ hk)) fun x hx => ?_
    · intro x hx
      rw [Set.mem_singleton_iff.mp hx]
      exact hsep c List.mem_cons_self
    · exact links_of_frame (S := {x | x ∈ c :: (H.zone d).free}) (nodesApart_of_dvd h16)
        List.mem_cons_self hfr₁ (List.mem_cons_of_mem c hx) fun e => hnot (e ▸ hx)
  have hlen : (H.zone d).free.length + 1 < 2 ^ width := by
    have h₁ := hw.free_length_le hd
    have h₂ := Heap.chunksCount_le (L := L) (H.zone d)
    have h₃ := A.pageSize_le
    omega
  apply (Zone.giveChunk_spec hz₁ hd0 hc0 hnot h16 hsep hlen hnext hprev).mono
  rintro _ m₂ ⟨hrep, hfr₂⟩
  have hfr : ∀ a ∉ Zone.freeWords d (c :: (H.zone d).free), m₂ a = s.mem a := by
    intro a ha
    refine (hfr₂ a ha).trans (hfr₁ a fun hmem => ha (Or.inl ?_))
    obtain ⟨_, rfl, he⟩ := hmem
    exact ⟨_, List.mem_cons_self, he⟩
  refine ⟨?_, fun a ha => hfr a (hw.untouched_freeWords A hd (fun x hx => (hS x hx).1) ?_ ha)⟩
  · rw [Heap.giveChunk] at hcount ⊢
    refine h.setFree hw A hd hS rfl rfl head_update_count (h.counts_update hw ?_) hrep hfr
    rw [h.counts _ hidx, Heap.freeCount, Heap.freeCount, hcount, Word.add_eq]
    unfold Heap.freeCount at hlt
    omega
  · have hnd := (List.nodup_append.mp (hw.live_nodup A.sound)).2.1
    intro x hx hl
    have hxl := List.mem_of_mem_erase hl
    rcases List.mem_cons.mp hx with rfl | hx
    · exact hw.not_desc A.sound hxl hd
    rcases List.mem_cons.mp hx with rfl | hx
    · exact hnd.not_mem_erase hl
    · exact hw.free_notMem_live A.sound hd hx hxl

/-! ### Adding and removing a zone -/

/-- A zone is described as before when only links of descriptors have changed. -/
theorem Heap.Wf.zoneRep_congr (hw : H.Wf L r live held) (A : Arena L r) {l : List ℕ} {m m' : Mem}
    (hl : ∀ x ∈ l, x ∈ H.descs) (hfr : ∀ a ∉ linkWords {x | x ∈ l}, m' a = m a)
    (hd : d ∈ H.descs) (hz : ZoneRep L m d (H.zone d)) : ZoneRep L m' d (H.zone d) := by
  obtain ⟨-, hdesc, hfree⟩ := hw.linkWords_apart A hl
  refine hz.congr (fun k hk hk' => hfr _ (hdesc d hd k hk' (Or.inr hk))) fun c hc => ⟨?_, ?_⟩
  · simpa using hfr _ (hfree d hd c hc 0 (by omega))
  · simpa using hfr _ (hfree d hd c hc 1 (by omega))

/-- A list of other descriptors is as before when only links of descriptors have changed. -/
theorem Heap.Wf.isList_congr (hw : H.Wf L r live held) (A : Arena L r) {l l' : List ℕ} {head : ℕ}
    {m m' : Mem} (hl : ∀ x ∈ l, x ∈ H.descs) (hfr : ∀ a ∉ linkWords {x | x ∈ l}, m' a = m a)
    (hl' : ∀ x ∈ l', x ∈ H.descs) (hdis : ∀ x ∈ l', x ∉ l) (h : IsList (links m) head l') :
    IsList (links m') head l' := by
  obtain ⟨-, hdesc, -⟩ := hw.linkWords_apart A hl
  refine h.congr (fun x hx => ?_) fun x hx => ?_
  · simpa using hfr _ (hdesc x (hl' x hx) 0 (by omega) (Or.inl (hdis x hx)))
  · simpa using hfr _ (hdesc x (hl' x hx) 1 (by omega) (Or.inl (hdis x hx)))

/-- `addZone` of the code puts a zone in front of the list of its class. -/
theorem HeapRep.addZone {p : ℕ} (h : HeapRep L H s) (A : Arena L r)
    (hw : (H.addZone L d i p).Wf L r live held) (hnot : d ∉ H.descs) (hi : i < maxZoneIdx)
    (hz : ZoneRep L s.mem d ⟨p, i, (ZoneData.chunks L ⟨p, i, []⟩).reverse⟩)
    (hnext : s.mem d = 0) (hprev : s.mem (d + wordBytes) = 0) :
    wp (ZoneAllocator.addZone d) (fun _ s' => HeapRep L (H.addZone L d i p) s' ∧
      ∀ a ∈ (H.addZone L d i p).untouched L live held, s'.mem a = s.mem a) s := by
  have hperm := Heap.descs_addZone (L := L) (H := H) (d := d) (p := p) hi
  have hd : d ∈ (H.addZone L d i p).descs := hperm.mem_iff.mpr List.mem_cons_self
  have hsub : ∀ y ∈ H.descs, y ∈ (H.addZone L d i p).descs := fun y hy =>
    hperm.mem_iff.mpr (List.mem_cons_of_mem _ hy)
  have hd0 := hw.ne_zero A.sound hd
  have hnotl : ∀ j < maxZoneIdx, d ∉ H.lists j := fun j hj hm =>
    hnot (Heap.mem_descs.mpr ⟨j, hj, hm⟩)
  have hzone : (H.addZone L d i p).zone d = ⟨p, i, (ZoneData.chunks L ⟨p, i, []⟩).reverse⟩ :=
    Heap.zone_addZone_self
  have hold : ∀ y ∈ H.descs, (H.addZone L d i p).zone y = H.zone y := fun y hy =>
    Heap.zone_addZone_of_ne fun e => hnot (e ▸ hy)
  have hl : ∀ x ∈ d :: H.lists i, x ∈ (H.addZone L d i p).descs := by
    intro x hx
    rcases List.mem_cons.mp hx with rfl | hx
    · exact hd
    · exact hsub x (Heap.mem_descs.mpr ⟨i, hi, hx⟩)
  have hfive := hz.freeChunksCount
  simp only [ZoneAllocator.addZone, wp_bind, wp_assert, wp_liftMem', Zone.wp_chunkSize, hz.chunkSize,
    zoneIdx_classSize (hi.trans maxZoneIdx_lt), ZoneAllocator.wp_zoneInfoAt,
    ZoneAllocator.wp_setZoneInfoAt, Zone.wp_freeChunksCount]
  refine ⟨hd0, hd0, hi, (ListNode.addToList_isList (h.lists i hi) (nodesApart_of_dvd fun x hx =>
    hw.cell_dvd A.sound (hw.cell_desc (hl x hx))) hd0 (hnotl i hi) hnext hprev).mono ?_⟩
  rintro head m ⟨hhead, hlist, hfr⟩
  subst head
  obtain ⟨htable, hdesc, -⟩ := hw.linkWords_apart A hl
  have hcount : m (d + 5 * wordBytes) = (ZoneData.chunks L ⟨p, i, []⟩).reverse.length :=
    (hfr _ (hdesc d hd 5 (by omega) (Or.inr (by omega)))).trans hfive
  refine ⟨hi, hi, hd0, hi, hi, ⟨h.pages.congr rfl fun a ha => hfr a (htable a ha), ?_,
    fun j hj => ?_, fun j hj => ?_, fun y hy => ?_⟩, fun a ha => hfr a ?_⟩
  · rw [h.config]
    rfl
  · by_cases hji : j = i
    · subst hji
      have hlt := hw.freeCount_lt A hj
      have h32 := two_pow_32_le
      rw [Heap.freeCount, Heap.freeChunks_addZone_self hnot hj, List.length_append] at hlt ⊢
      simp only [Function.update_self, h.counts j hj, State.mem_mk, hcount]
      rw [Word.add_eq]
      · exact Nat.add_comm _ _
      · unfold Heap.freeCount
        omega
    · simp only [Function.update_of_ne hji]
      rw [h.counts j hj, Heap.freeCount, Heap.freeCount, Heap.freeChunks_addZone_of_ne hnot hj hji]
  · by_cases hji : j = i
    · subst hji
      simp only [Heap.addZone, Function.update_self]
      exact hlist
    · simp only [Heap.addZone, Function.update_of_ne hji]
      refine hw.isList_congr A hl hfr (fun x hx => hsub x (Heap.mem_descs.mpr ⟨j, hj, hx⟩))
        (fun x hx hmem => ?_) (h.lists j hj)
      rcases List.mem_cons.mp hmem with rfl | hmem
      · exact hnotl j hj hx
      · have h₁ := hw.idx i hi x (by
          simp only [Heap.addZone, Function.update_self]
          exact List.mem_cons_of_mem _ hmem)
        have h₂ := hw.idx j hj x (by simpa only [Heap.addZone, Function.update_of_ne hji] using hx)
        exact hji (h₂.symm.trans h₁)
  · apply hw.zoneRep_congr A hl hfr hy
    rcases List.mem_cons.mp (hperm.mem_iff.mp hy) with rfl | hy
    · rw [hzone]
      exact hz
    · rw [hold y hy]
      exact h.zones y hy
  · exact hw.untouched_linkWords A hl (fun x hx hxl => hw.not_desc A.sound hxl (hl x hx)) ha

/-- `removeZone` of the code takes a zone out of the list of its class. -/
theorem HeapRep.removeZone (h : HeapRep L H s) (hw : H.Wf L r live held) (A : Arena L r)
    (hd : d ∈ H.descs) (hne : d ≠ initialZone) :
    wp (ZoneAllocator.removeZone d) (fun _ s' => HeapRep L (H.removeZone d) s' ∧
      ZoneRep L s'.mem d (H.zone d) ∧
      ∀ a ∈ H.untouched L live held, s'.mem a = s.mem a) s := by
  have hz := h.zones d hd
  have hidx := hw.idx_lt hd
  have hd0 := hw.ne_zero A.sound hd
  have hmem := hw.mem_list hd
  have hperm := Heap.descs_removeZone hw hd
  have hl : ∀ x ∈ H.lists (H.zone d).idx, x ∈ H.descs := fun x hx =>
    Heap.mem_descs.mpr ⟨_, hidx, hx⟩
  obtain ⟨xs, ys, hsplit⟩ := List.append_of_mem hmem
  have hlist := h.lists _ hidx
  have h16 : ∀ x ∈ H.lists (H.zone d).idx, 16 ∣ x := fun x hx =>
    hw.cell_dvd A.sound (hw.cell_desc (hl x hx))
  have herase : (H.lists (H.zone d).idx).erase d = xs ++ ys := by
    have hnd := hw.nodup_list hidx
    rw [hsplit] at hnd ⊢
    have hx : d ∉ xs := fun hm => (List.nodup_append.mp hnd).2.2 d hm d (by simp) rfl
    rw [List.erase_append_right _ hx, List.erase_cons_head]
  rw [hsplit] at hlist h16
  simp only [ZoneAllocator.removeZone, wp_bind, wp_assert, wp_liftMem', Zone.wp_chunkSize,
    hz.chunkSize, zoneIdx_classSize (hidx.trans maxZoneIdx_lt), ZoneAllocator.wp_zoneInfoAt,
    ZoneAllocator.wp_setZoneInfoAt, Zone.wp_freeChunksCount]
  refine ⟨hd0, hne, hd0, hidx, (ListNode.removeFromList_isList hlist
    (nodesApart_of_dvd h16)).mono ?_⟩
  rintro head m ⟨hlist', -, -, hfr⟩
  rw [← hsplit] at hfr
  obtain ⟨htable, hdesc, -⟩ := hw.linkWords_apart A hl
  have hcount : m (d + 5 * wordBytes) = (H.zone d).free.length :=
    (hfr _ (hdesc d hd 5 (by omega) (Or.inr (by omega)))).trans hz.freeChunksCount
  refine ⟨hidx, hidx, hd0, hidx, hidx, ⟨h.pages.congr rfl fun a ha => hfr a (htable a ha), ?_,
    fun j hj => ?_, fun j hj => ?_, fun y hy => ?_⟩, ?_, fun a ha => hfr a ?_⟩
  · rw [h.config]
    rfl
  · by_cases hji : j = (H.zone d).idx
    · subst hji
      have hsum := (hw.freeChunks_removeZone hd).length_eq
      have hlt := hw.freeCount_lt A hj
      have h32 := two_pow_32_le
      rw [List.length_append] at hsum
      simp only [Function.update_self, h.counts _ hj, State.mem_mk, hcount]
      unfold Heap.freeCount at hlt ⊢
      rw [Word.sub_eq (by omega) (by omega)]
      omega
    · simp only [Function.update_of_ne hji]
      rw [h.counts j hj, Heap.freeCount, Heap.freeCount, Heap.freeChunks_removeZone_of_ne hji]
  · by_cases hji : j = (H.zone d).idx
    · subst hji
      simp only [Heap.removeZone, Function.update_self, herase]
      exact hlist'
    · simp only [Heap.removeZone, Function.update_of_ne hji]
      refine hw.isList_congr A hl hfr (fun x hx => Heap.mem_descs.mpr ⟨j, hj, hx⟩)
        (fun x hx hmem => ?_) (h.lists j hj)
      exact hji ((hw.idx j hj x hx).symm.trans (hw.idx _ hidx x hmem))
  · have hy' : y ∈ H.descs := hperm.mem_iff.mp (List.mem_cons_of_mem _ hy)
    exact hw.zoneRep_congr A hl hfr hy' (h.zones y hy')
  · exact hw.zoneRep_congr A hl hfr hd hz
  · exact hw.untouched_linkWords A hl (fun x hx hxl => hw.not_desc A.sound hxl (hl x hx)) ha

/-! ### Pages for zones -/

/-- The page allocator works on its own fields and on the table. -/
theorem HeapRep.withPages {b : Pages} (h : HeapRep L H s) (hw : H.Wf L r live held) (A : Arena L r)
    (hself : s'.self = s.self) (hp : PageRep L b s'.pages)
    (hfr : ∀ x ∈ H.words L, x ∉ L.table → s'.mem x = s.mem x) :
    HeapRep L (H.withPages b) s' := by
  have hdesc : ∀ d ∈ H.descs, ∀ k < 7, s'.mem (d + k * wordBytes) = s.mem (d + k * wordBytes) :=
    fun d hd k hk => hfr _ (Or.inr (Or.inl ⟨d, hd, k, hk, rfl⟩))
      (hw.cell_table A (hw.cell_desc hd) (field_mem hk))
  refine ⟨hp, hself ▸ h.config, hself ▸ h.counts, fun i hi => ?_, fun d hd => ?_⟩
  · rw [hself]
    refine (h.lists i hi).congr (fun d hd => ?_) fun d hd => ?_
    · simpa using hdesc d (Heap.mem_descs.mpr ⟨i, hi, hd⟩) 0 (by omega)
    · simpa using hdesc d (Heap.mem_descs.mpr ⟨i, hi, hd⟩) 1 (by omega)
  · refine (h.zones d hd).congr (fun k _ hk => hdesc d hd k hk) fun c hc => ?_
    have hlink : ∀ j < 2, s'.mem (c + j * wordBytes) = s.mem (c + j * wordBytes) := fun j hj =>
      hfr _ (Or.inr (Or.inr ⟨d, hd, mem_linkWords_iff.mpr ⟨c, hc, j, hj, rfl⟩⟩))
        (hw.cell_table A (Heap.cell_chunk hd (hw.free_sub d hd c hc)) (link_mem hj))
    exact ⟨by simpa using hlink 0 (by omega), by simpa using hlink 1 (by omega)⟩

/-- `initZone` without a free page. -/
theorem initZone_none {b b' : Pages} (hp : PageRep L b s.pages)
    (hself : s.self.pageAllocator = true) (hd : d ≠ 0) (hal : b.allocate 1 = (none, b')) :
    wp (ZoneAllocator.initZone d n) (fun ok s' => ok = false ∧ s'.self = s.self ∧
      PageRep L b' s'.pages ∧ ∀ a ∉ L.table, s'.mem a = s.mem a) s := by
  simp only [ZoneAllocator.initZone, wp_bind, wp_assert, ZoneAllocator.wp_callPageAllocator]
  refine ⟨hd, hself, hp.allocate.mono ?_⟩
  rintro _ p ⟨rfl, hp', hk⟩
  rw [hal] at hp'
  simp only [hal, groupPtr, ne_eq, not_true_eq_false, if_false, wp_pure]
  exact ⟨trivial, trivial, hp', hk.frame⟩

/-- `initZone` with a free page. -/
theorem initZone_some {b b' : Pages} {g : Group} (hp : PageRep L b s.pages) (hL : L.Sound)
    (hself : s.self.pageAllocator = true) (hps : s.self.pageSize = L.pageSize) (hd : d ≠ 0)
    (hal : b.allocate 1 = (some g, b')) (hz : ZoneData.Fits L ⟨g.first, i, []⟩)
    (htable : ∀ k < 7, d + k * wordBytes ∉ L.table)
    (hchunks : ∀ x ∈ ZoneData.chunks L ⟨g.first, i, []⟩, ∀ j < 2, x + j * wordBytes ∉ L.table)
    (hsep : ∀ x ∈ ZoneData.chunks L ⟨g.first, i, []⟩, FieldsApart d x) :
    wp (ZoneAllocator.initZone d (classSize i)) (fun ok s' => ok = true ∧ s'.self = s.self ∧
      PageRep L b' s'.pages ∧
      ZoneRep L s'.mem d ⟨g.first, i, (ZoneData.chunks L ⟨g.first, i, []⟩).reverse⟩ ∧
      s'.mem d = 0 ∧ s'.mem (d + wordBytes) = 0 ∧
      ∀ a ∉ L.table, (∀ k < 7, a ≠ d + k * wordBytes) →
        a ∉ linkWords {x | x ∈ ZoneData.chunks L ⟨g.first, i, []⟩} → s'.mem a = s.mem a) s := by
  simp only [ZoneAllocator.initZone, wp_bind, wp_assert, ZoneAllocator.wp_callPageAllocator]
  refine ⟨hd, hself, hp.allocate.mono ?_⟩
  rintro _ p ⟨rfl, hp', hk⟩
  rw [hal] at hp'
  simp only [hal, groupPtr, ne_eq, Layout.pageAt_ne_zero, not_false_eq_true, if_true, wp_bind, wp_get,
    wp_liftMem', wp_pure, hps]
  have haddr : p.mem (L.pageAt g.first + 2 * wordBytes) = L.addr g.first :=
    hp'.table.addr _ (hp'.count ▸ hz.page_lt)
  refine (Zone.init_spec hz hL hd haddr (fun k hk he => ?_) hsep).mono ?_
  · exact htable k hk (he ▸ Layout.field_mem_table hz.page_lt (by omega))
  rintro _ m ⟨hrep, hnext, hprev, hfr⟩
  refine ⟨trivial, trivial, hp'.congr rfl fun x hx => hfr x (fun k hk he => ?_) fun hmem => ?_, hrep,
    hnext, hprev, fun a ha hka hca => (hfr a hka hca).trans (hk.frame a ha)⟩
  · exact htable k hk (he ▸ hx)
  · obtain ⟨y, hy, j, hj, rfl⟩ := mem_linkWords_iff.mp hmem
    exact hchunks y hy j hj hx

end Liballocator
