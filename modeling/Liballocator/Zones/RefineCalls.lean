import Liballocator.Zones.Cascade

/-!
# Allocating and releasing chunks refine the abstract operations

`deallocateChunk` of the code refines `Heap.deallocate` and `allocateZone` refines
`Heap.allocateZone`.  Both functions of the code are recursive: a zone that becomes entirely free
gives back the chunk of its descriptor, and a new zone may need a zone for descriptors first.
-/

namespace Liballocator

open Program LinkedList Tiling

variable [Platform]

variable {L : Layout} {r : Group} {H : Heap} {live : List ℕ} {held : List Group}
  {s s' : State} {d c i x y n k a : ℕ}

/-! ### Finding the zone of a chunk -/

/-- The page of a chunk. -/
theorem ZoneData.ChunkAt.alignDown_eq {z : ZoneData} (h : ZoneData.ChunkAt L z c) (hL : L.Sound)
    (hz : z.Fits L) : alignDown c L.pageSize = L.addr z.page := by
  have hps := hL.pageSize.pos
  have hpos := classSize_pos z.idx
  obtain ⟨k, hk⟩ := hL.addr_dvd _ hz.page_lt
  have hge := h.ge
  have hle := h.le
  have hlt := h.lt
  rw [Liballocator.alignDown_eq hL.pageSize (by omega), hk, Nat.mul_comm L.pageSize k]
  congr 1
  rw [hk] at hge hle
  refine Nat.div_eq_of_lt_le ?_ ?_
  · rw [Nat.mul_comm]
    exact hge
  · rw [Nat.succ_mul, Nat.mul_comm k]
    omega

/-- The inner loop of `findZone` finds the zone of a list that the chunk belongs to. -/
theorem findZoneFrom_spec {l : List ℕ} {p q fuel : ℕ} (h : HeapRep L H s)
    (hw : H.Wf L r live held) (hL : L.Sound) (hl : Seg (links s.mem) p x l q 0)
    (hsub : ∀ d ∈ l, d ∈ H.descs) (hfuel : l.length < fuel) :
    wp (ZoneAllocator.findZoneFrom c (alignDown c L.pageSize) fuel x) (fun z m =>
      z = (l.find? fun d => c ∈ (H.zone d).chunks L).getD 0 ∧ m = s.mem) s.mem := by
  induction l generalizing p x fuel with
  | nil =>
    obtain ⟨fuel, rfl⟩ := Nat.exists_eq_add_of_lt hfuel
    rw [hl.2]
    simp [ZoneAllocator.findZoneFrom]
  | cons d l ih =>
    obtain ⟨fuel, rfl⟩ := Nat.exists_eq_add_of_lt hfuel
    obtain ⟨rfl, hx0, -, hl⟩ := hl
    have hx := hsub x List.mem_cons_self
    have hz := h.zones x hx
    have hfits := hw.fits x hx
    have haddr : s.mem (L.pageAt (H.zone x).page + 2 * wordBytes) = _ := h.pages.addr hfits.page_lt
    have hlen : l.length < (x :: l).length + fuel := by
      rw [List.length_cons]
      omega
    have hrec := ih hl (fun y hy => hsub y (List.mem_cons_of_mem _ hy)) hlen
    have hskip : c ∉ (H.zone x).chunks L → List.find? (fun d => decide (c ∈ (H.zone d).chunks L))
        (x :: l) = l.find? fun d => decide (c ∈ (H.zone d).chunks L) := fun hc =>
      List.find?_cons_of_neg (by simpa using hc)
    simp only [ZoneAllocator.findZoneFrom, hx0, if_false, wp_bind, Zone.wp_page, Page.wp_address,
      hz.page, haddr, wp_ite]
    refine ⟨hx0, Layout.pageAt_ne_zero _, fun hpage => ?_, fun hpage => ?_⟩
    · apply (Zone.isValidChunk_spec (c := c) hz hfits hL hx0 haddr).mono
      rintro b _ ⟨rfl, hb⟩
      refine ⟨fun hbt => ?_, fun hbf => ?_⟩
      · rw [List.find?_cons_of_pos (by simpa using hb.mp hbt)]
        simp
      · simp only [ListNode.wp_next]
        rw [hskip fun hc => hbf (hb.mpr hc)]
        exact ⟨hx0, hrec⟩
    · simp only [ListNode.wp_next]
      rw [hskip fun hc => hpage ((hfits.chunkAt hL hc).alignDown_eq hL hfits).symm]
      exact ⟨hx0, hrec⟩

/-- The outer loop of `findZone`. -/
theorem findZoneIn_spec {j : ℕ} (h : HeapRep L H s) (hw : H.Wf L r live held) (hL : L.Sound)
    (hj : j + n = maxZoneIdx) :
    wp (ZoneAllocator.findZoneIn c (alignDown c L.pageSize) n j) (fun z s' =>
      z = (((List.range' j n).flatMap H.lists).find? fun d => c ∈ (H.zone d).chunks L).getD 0 ∧
      s' = s) s := by
  induction n generalizing j with
  | zero => simp [ZoneAllocator.findZoneIn]
  | succ n ih =>
    have hjlt : j < maxZoneIdx := by omega
    obtain ⟨q, hl⟩ := h.lists j hjlt
    have hsub : ∀ d ∈ H.lists j, d ∈ H.descs := fun d hd => Heap.mem_descs.mpr ⟨j, hjlt, hd⟩
    simp only [ZoneAllocator.findZoneIn, wp_bind, ZoneAllocator.wp_zoneInfoAt, wp_liftMem']
    refine ⟨hjlt, (findZoneFrom_spec (c := c) h hw hL hl hsub (hw.length_list_lt hjlt)).mono ?_⟩
    rintro _ m ⟨rfl, rfl⟩
    rw [List.range'_succ, List.flatMap_cons, List.find?_append]
    cases hf : (H.lists j).find? fun d => decide (c ∈ (H.zone d).chunks L) with
    | none =>
      simp only [Option.getD_none, ne_eq, not_true_eq_false, if_false, Option.none_or]
      exact ih (by omega)
    | some d =>
      have hd0 := hw.ne_zero hL (hsub d (List.mem_of_find?_eq_some hf))
      simp only [Option.getD_some, ne_eq, hd0, not_false_eq_true, if_true, wp_pure, Option.some_or,
        true_and]
      rfl

/-- `findZone` of the code refines `Heap.findZone`. -/
theorem HeapRep.findZone (h : HeapRep L H s) (hw : H.Wf L r live held) (hL : L.Sound) (hc : c ≠ 0) :
    wp (ZoneAllocator.findZone c) (fun z s' => z = (H.findZone L c).getD 0 ∧ s' = s) s := by
  simp only [ZoneAllocator.findZone, wp_bind, wp_assert, wp_get, h.pageSize]
  refine ⟨hc, (findZoneIn_spec (c := c) h hw hL (Nat.zero_add _)).mono ?_⟩
  rintro _ _ ⟨rfl, rfl⟩
  rw [Heap.findZone, Heap.descs, List.range_eq_range']
  exact ⟨rfl, rfl⟩

/-! ### Giving up a zone -/

/-- `clearZone` of the code releases the page of a zone that is no longer listed. -/
theorem HeapRep.clearZone {z : ZoneData} (h : HeapRep L H s) (A : Arena L r)
    (hw : H.Wf L r (d :: live) (⟨z.page, 1⟩ :: held)) (hcl : H.HasClass L d descIdx)
    (hz : ZoneRep L s.mem d z) :
    wp (ZoneAllocator.clearZone d) (fun _ s' =>
      HeapRep L (H.withPages (H.pages.release L ⟨z.page, 1⟩)) s' ∧
      ∀ a ∈ H.untouched L live held, s'.mem a = s.mem a) s := by
  have hg := hw.held_mem (g := ⟨z.page, 1⟩) List.mem_cons_self
  have hd0 : d ≠ 0 := by
    obtain ⟨y, hy, hyd, -⟩ := hcl
    exact hw.cell_ne_zero A.sound (Heap.cell_chunk hy hyd)
  have hnot : d ∉ live :=
    (List.nodup_cons.mp (List.nodup_append.mp (hw.live_nodup A.sound)).2.1).1
  have hw₁ := hw.releasePages (g := ⟨z.page, 1⟩) List.mem_cons_self
  have hcell : H.Cell L d sizeofZone := by
    obtain ⟨y, hy, hyd, hidx⟩ := hcl
    exact Or.inl ⟨y, hy, hyd, hidx ▸ sizeofZone_le⟩
  have hown : ∀ k < 7, d + k * wordBytes ∈
      (H.withPages (H.pages.release L ⟨z.page, 1⟩)).foreign L [d] held := fun k hk =>
    Or.inl ⟨d, List.mem_singleton_self d, descIdx, hcl, (field_mem hk).1,
      (field_mem hk).2.trans_le (Nat.add_le_add_left sizeofZone_le d)⟩
  simp only [ZoneAllocator.clearZone, wp_bind, wp_assert, wp_liftMem', Zone.wp_page, hz.page,
    ZoneAllocator.wp_callPageAllocator]
  refine ⟨hd0, hd0, h.pageAllocator, (h.pages.release hg).mono ?_⟩
  rintro _ p ⟨hp, hk⟩
  have h₁ : HeapRep L _ { s with pages := p } := h.withPages hw A rfl hp fun x _ => hk.frame x
  apply (Zone.clear_spec hd0).mono
  rintro _ m ⟨-, hfr⟩
  rw [List.erase_cons_head] at hw₁
  refine ⟨h₁.congr fun a ha => hfr a ?_, fun a ha => ?_⟩
  · rintro k hk rfl
    exact hw₁.foreign_words A (by simp) (hown k hk) ha
  · obtain ⟨htable, hcells⟩ := hw.untouched_apart A (Heap.untouched_cons ⟨z.page, 1⟩ ha)
    have hne : ∀ k < 7, a ≠ d + k * wordBytes := by
      rintro k hk rfl
      exact hcells d _ hcell hnot (field_mem hk)
    exact (hfr a hne).trans (hk.frame a htable)

/-! ### Giving back a chunk -/

/-- The rounds of `deallocateChunk` refine `Heap.deallocateWithin`; they remove the zones that are
missing afterwards. -/
theorem HeapRep.cascade (h : HeapRep L H s) (hw : H.Wf L r live held) (A : Arena L r)
    (hc : c ∈ live) (hn : H.descs.length ≤ n) :
    ∃ zones s', ZoneAllocator.Cascade s c zones s' ∧ (H.deallocateWithin L n c).1 = true ∧
      H.descs.Perm (zones ++ (H.deallocateWithin L n c).2.descs) ∧
      HeapRep L (H.deallocateWithin L n c).2 s' ∧
      ∀ a ∈ H.untouched L (live.erase c) held, s'.mem a = s.mem a := by
  induction n generalizing H live s c with
  | zero =>
    have := List.length_pos_of_mem hw.initial_mem
    omega
  | succ n ih =>
    obtain ⟨d, hd, hcd⟩ := hw.exists_zone hc
    have hown : H.Owns L d c := (ZoneData.mem_taken.mp hcd).1
    have hfind := hw.findZone_eq A.sound hd hown
    have hc0 := hw.cell_ne_zero A.sound (Heap.cell_chunk hd hown)
    have hd0 := hw.ne_zero A.sound hd
    have hw₁ := hw.giveChunk A.sound hd hown hc
    have hfr₁ : ∀ {a}, a ∈ H.untouched L (live.erase c) held →
        a ∈ (H.giveChunk d c).untouched L (live.erase c) held :=
      Heap.untouched_mono (fun c' hc' => ⟨hc', fun i hi => Heap.hasClass_setFree.mpr hi⟩)
        fun g hg => hg
    obtain ⟨_, _, hcall, rfl, rfl⟩ := h.findZone hw A.sound hc0
    rw [hfind, Option.getD_some] at hcall
    obtain ⟨_, s₁, hcall₁, h₁, hk₁⟩ := h.giveChunk hw A hd hown hc
    have hz₁ := h₁.zones d hd
    have hcounts : s₁.mem (d + 4 * wordBytes) = s₁.mem (d + 5 * wordBytes) ↔
        ((H.giveChunk d c).zone d).free.length = ((H.giveChunk d c).zone d).chunksCount L := by
      rw [hz₁.chunksCount, hz₁.freeChunksCount, eq_comm]
    simp only [Heap.deallocateWithin, hfind]
    by_cases hall : ((H.giveChunk d c).zone d).free.length =
        ((H.giveChunk d c).zone d).chunksCount L ∧ d ≠ initialZone
    · have hfree := (hw₁.free_length_eq_iff hd).mp hall.1
      rw [if_pos hall]
      obtain ⟨_, s₂, hcall₂, h₂, hz₂, hk₂⟩ := h₁.removeZone hw₁ A hd hall.2
      have hw₂ := hw₁.removeZone A.sound hd hall.2 hfree
      have hcl := (hw₁.hasClass_desc hd hall.2).removeZone hw₁ A.sound hd hfree
        (hw₁.desc_taken hd hall.2)
      obtain ⟨_, s₃, hcall₃, h₃, hk₃⟩ := h₂.clearZone A hw₂ hcl hz₂
      have hw₃ := hw₁.clearZone A.sound hd hall.2 hfree
      have hperm : (d :: ((H.giveChunk d c).clearZone L d).descs).Perm H.descs :=
        Heap.descs_removeZone hw₁ hd
      have hlen : ((H.giveChunk d c).clearZone L d).descs.length ≤ n := by
        have := hperm.length_eq
        rw [List.length_cons] at this
        exact Nat.le_of_succ_le_succ (this.trans_le hn)
      obtain ⟨zones, s₄, hcas, hb, hperm₄, h₄, hk₄⟩ := ih h₃ hw₃ List.mem_cons_self hlen
      refine ⟨d :: zones, s₄, .next hcall hd0 hcall₁ (hcounts.mpr hall.1) hall.2 hcall₂ hcall₃ hcas,
        hb, hperm.symm.trans (hperm₄.cons d), h₄, fun a ha => ?_⟩
      -- the classes of the chunks of somebody else stay
      have ha₂ : a ∈ ((H.giveChunk d c).removeZone d).untouched L (live.erase c) held :=
        Heap.untouched_mono (fun c' hc' => ⟨hc', fun i hi => hi.removeZone hw₁ A.sound hd hfree
          (hw₁.exists_zone hc')⟩) (fun g hg => hg) (hfr₁ ha)
      have ha₄ : a ∈ ((H.giveChunk d c).clearZone L d).untouched L
          ((d :: live.erase c).erase d) held := by
        rw [List.erase_cons_head]
        exact ha₂
      rw [hk₄ a ha₄, hk₃ a ha₂, hk₂ a (hfr₁ ha), hk₁ a ha]
    · rw [if_neg hall]
      exact ⟨[], s₁, .stop hcall hd0 hcall₁ fun hall' => hall ⟨hcounts.mp hall'.1, hall'.2⟩, rfl,
        List.Perm.refl _, h₁, hk₁⟩

/-- `deallocateChunk` of the code refines `Heap.deallocateWithin`. -/
theorem HeapRep.deallocateWithin {fuel : ℕ} (h : HeapRep L H s) (hw : H.Wf L r live held)
    (A : Arena L r) (hc : c ∈ live) (hn : H.descs.length ≤ n) (hf : n < fuel) :
    wp (ZoneAllocator.deallocateChunkWithin fuel c) (fun b s' =>
      b = (H.deallocateWithin L n c).1 ∧ HeapRep L (H.deallocateWithin L n c).2 s' ∧
      ∀ a ∈ H.untouched L (live.erase c) held, s'.mem a = s.mem a) s := by
  obtain ⟨zones, s', hcas, hb, hperm, h', hk⟩ := h.cascade hw A hc hn
  have hlen := hperm.length_eq
  rw [List.length_append] at hlen
  exact wp_of_run_eq (hcas.run (by omega)) ⟨hb.symm, h', hk⟩

theorem Heap.Wf.length_descs_lt (hw : H.Wf L r live held) : H.descs.length < loopBound := by
  have h₁ := hw.length_descs_le
  have h₂ := hw.small
  have h₃ := two_pow_32_le
  unfold loopBound
  omega

/-- `deallocateChunk` of the code refines `Heap.deallocate`. -/
theorem HeapRep.deallocate (h : HeapRep L H s) (hw : H.Wf L r live held) (A : Arena L r)
    (hc : c ∈ live) :
    wp (ZoneAllocator.deallocateChunk c) (fun b s' =>
      b = (H.deallocate L c).1 ∧ HeapRep L (H.deallocate L c).2 s' ∧
      ∀ a ∈ H.untouched L (live.erase c) held, s'.mem a = s.mem a) s :=
  h.deallocateWithin hw A hc le_rfl hw.length_descs_lt

/-! ### A new zone -/

namespace ZoneAllocator

/-- The part of `allocateZone` behind its recursive call. -/
def newZone (zoneDescIdx chunkSize : ℕ) : ZoneM ℕ := do
  let zone ← getFreeZone zoneDescIdx
  assert (zone ≠ 0)
  let newZone ← allocateChunk zone
  assert (newZone ≠ 0)
  if !(← initZone newZone chunkSize) then
    let _ ← deallocateChunk newZone
    return 0
  addZone newZone
  return newZone

theorem allocateZoneWithin_succ (fuel chunkSize : ℕ) :
    allocateZoneWithin (fuel + 1) chunkSize = (do
      let self := (← get).self
      if chunkSize ≠ self.zoneDescChunkSize ∧ (← shouldAllocateZone self.zoneDescIdx) = true then
        if (← allocateZoneWithin fuel self.zoneDescChunkSize) = 0 then return 0
        newZone self.zoneDescIdx chunkSize
      else
        newZone self.zoneDescIdx chunkSize) := rfl

end ZoneAllocator

/-- Without a free page the chunk for the descriptor is given back. -/
theorem HeapRep.newZone_none {b : Pages} (h : HeapRep L H s) (hw : H.Wf L r (d :: live) held)
    (A : Arena L r) (hd : d ≠ 0) (hal : H.pages.allocate 1 = (none, b)) :
    wp (do
      if !(← ZoneAllocator.initZone d n) then
        let _ ← ZoneAllocator.deallocateChunk d
        return 0
      ZoneAllocator.addZone d
      return d) (fun x s' => x = 0 ∧ HeapRep L (H.deallocate L d).2 s' ∧
        ∀ a ∈ H.untouched L live held, s'.mem a = s.mem a) s := by
  have hb : b = H.pages := by
    rcases H.pages.allocate_cases 1 with he | ⟨g, -, -, -, -, he⟩ <;> rw [hal] at he <;> cases he
    rfl
  subst hb
  rw [wp_bind]
  apply (initZone_none h.pages h.pageAllocator hd hal).mono
  rintro _ s₁ ⟨rfl, hs₁, hp₁, hk₁⟩
  have h₁ : HeapRep L H s₁ := h.withPages hw A hs₁ hp₁ fun x _ => hk₁ x
  simp only [Bool.not_false, if_true, wp_bind, wp_pure]
  apply (h₁.deallocate hw A List.mem_cons_self).mono
  rintro _ s₂ ⟨-, h₂, hk₂⟩
  rw [List.erase_cons_head] at hk₂
  refine ⟨trivial, h₂, fun a ha => (hk₂ a ha).trans (hk₁ a ?_)⟩
  exact (hw.untouched_apart A ha).1

/-- With a free page the zone is set up and added. -/
theorem HeapRep.newZone_some {b : Pages} {g : Group} (h : HeapRep L H s)
    (hw : H.Wf L r (d :: live) held) (A : Arena L r) (hi : i < maxZoneIdx)
    (hsize : classSize i < L.pageSize) (hcl : H.HasClass L d descIdx)
    (hal : H.pages.allocate 1 = (some g, b)) (hg : g.size = 1)
    (hw₂ : (H.withPages b).Wf L r (d :: live) (g :: held))
    (hw₃ : ((H.withPages b).addZone L d i g.first).Wf L r live held) :
    wp (do
      if !(← ZoneAllocator.initZone d (classSize i)) then
        let _ ← ZoneAllocator.deallocateChunk d
        return 0
      ZoneAllocator.addZone d
      return d) (fun x s' => x = d ∧ HeapRep L ((H.withPages b).addZone L d i g.first) s' ∧
        ∀ a ∈ H.untouched L live held, s'.mem a = s.mem a) s := by
  have hnot : d ∉ live :=
    (List.nodup_cons.mp (List.nodup_append.mp (hw.live_nodup A.sound)).2.1).1
  have hcell : (H.withPages b).Cell L d sizeofZone := by
    obtain ⟨y, hy, hyd, hidx⟩ := hcl
    exact Or.inl ⟨y, hy, hyd, hidx ▸ sizeofZone_le⟩
  have hcov : g.Covers g.first := ⟨le_rfl, by omega⟩
  obtain ⟨hlt, hres, -⟩ := hw₂.held_page List.mem_cons_self hcov
  have hz : ZoneData.Fits L ⟨g.first, i, []⟩ := ⟨hlt, hsize⟩
  -- the words that are written belong to the new descriptor and to the new page
  have hdesc : ∀ k < 7, d + k * wordBytes ∈ (H.withPages b).foreign L [d] (g :: held) := fun k hk =>
    Or.inl ⟨d, List.mem_singleton_self d, descIdx, hcl, (field_mem hk).1,
      (field_mem hk).2.trans_le (Nat.add_le_add_left sizeofZone_le d)⟩
  have hbyte : ∀ x ∈ ZoneData.chunks L ⟨g.first, i, []⟩, ∀ j < 2,
      L.addr g.first ≤ x + j * wordBytes ∧ x + j * wordBytes < L.addr g.first + L.pageSize := by
    intro x hx j hj
    have hat := hz.chunkAt A.sound hx
    have h₁ := hat.ge
    have h₂ := hat.le
    have h₃ := classSize_ge i
    have h₄ := link_mem (x := x) hj
    simp only at h₁ h₂
    omega
  have hpage : ∀ x ∈ ZoneData.chunks L ⟨g.first, i, []⟩, ∀ j < 2,
      x + j * wordBytes ∈ (H.withPages b).foreign L [] (g :: held) := fun x hx j hj =>
    Or.inr ⟨g, List.mem_cons_self, g.first, hcov, hbyte x hx j hj⟩
  have hd0 := hw₂.cell_ne_zero A.sound hcell
  rw [wp_bind]
  refine (initZone_some h.pages A.sound h.pageAllocator h.pageSize hd0 hal hz
    (fun k hk => (hw₂.foreign_apart A (hdesc k hk)).1)
    (fun x hx j hj => (hw₂.foreign_apart A (hpage x hx j hj)).1)
    (fun x hx k hk j hj he => (hw₂.foreign_apart A (hpage x hx j hj)).2 d _ hcell List.not_mem_nil
      (he ▸ field_mem hk))).mono ?_
  rintro _ s₂ ⟨rfl, hs₂, hp₂, hrep, hnext, hprev, hk₂⟩
  have h₂ : HeapRep L (H.withPages b) s₂ := by
    refine h.withPages hw A hs₂ hp₂ fun x hx hxt => hk₂ x hxt (fun k hk he => ?_) fun hmem => ?_
    · exact hw₂.foreign_words A (by simp) (hdesc k hk) (he ▸ hx)
    · obtain ⟨y, hy, j, hj, rfl⟩ := mem_linkWords_iff.mp hmem
      exact hw₂.foreign_words A (List.nil_subset _) (hpage y hy j hj) hx
  have hnd : d ∉ (H.withPages b).descs := hw₂.not_desc A.sound List.mem_cons_self
  simp only [Bool.not_true, Bool.false_eq_true, if_false, wp_bind, wp_pure]
  apply (h₂.addZone A hw₃ hnd hi hrep hnext hprev).mono
  rintro _ s₃ ⟨h₃, hk₃⟩
  refine ⟨trivial, h₃, fun a ha => ?_⟩
  have ha₂ : a ∈ (H.withPages b).untouched L live (g :: held) := Heap.untouched_cons g ha
  obtain ⟨htable, hcells⟩ := hw₂.untouched_apart A ha₂
  have ha₃ : a ∈ ((H.withPages b).addZone L d i g.first).untouched L live held :=
    Heap.untouched_mono (fun c hc => ⟨hc, fun _ hci => Heap.HasClass.addZone hci hnd hi⟩)
      (fun g hg => hg) ha
  refine (hk₃ a ha₃).trans (hk₂ a htable (fun k hk he => ?_) fun hmem => ?_)
  · exact hcells d _ hcell hnot (he ▸ field_mem hk)
  · obtain ⟨y, hy, j, hj, rfl⟩ := mem_linkWords_iff.mp hmem
    exact hw₂.untouched_page A hcov ha (hbyte y hy j hj)

/-- `newZone` refines `Heap.newZone`. -/
theorem HeapRep.newZone (h : HeapRep L H s) (hw : H.Wf L r live held) (A : Arena L r)
    (hi : i < maxZoneIdx) (hsize : classSize i < L.pageSize) (hres : 1 ≤ H.freeCount descIdx) :
    wp (ZoneAllocator.newZone descIdx (classSize i)) (fun x s' =>
      x = (H.newZone L i).1.getD 0 ∧ HeapRep L (H.newZone L i).2 s' ∧
      ∀ a ∈ H.untouched L live held, s'.mem a = s.mem a) s := by
  obtain ⟨z, hget⟩ := Heap.exists_getFreeZone hres
  obtain ⟨hzl, d, cs, hfree⟩ := Heap.getFreeZone_eq_some hget
  have hz := Heap.Wf.mem_descs_of_list hzl
  have hz0 := hw.ne_zero A.sound hz
  have hown : H.Owns L z d := hw.free_sub z hz d (hfree ▸ List.mem_cons_self)
  have hd0 := hw.cell_ne_zero A.sound (Heap.cell_chunk hz hown)
  have hw₁ := hw.takeChunk hz hfree
  have hcl : (H.takeChunk z).HasClass L d descIdx :=
    Heap.hasClass_setFree.mpr ⟨z, hz, hown, hw.idx descIdx descIdx_lt z hzl⟩
  simp only [ZoneAllocator.newZone]
  rw [wp_bind]
  apply (h.getFreeZone hw descIdx_lt).mono
  rintro _ _ ⟨rfl, rfl⟩
  rw [hget, Option.getD_some, wp_bind, wp_assert, wp_bind]
  refine ⟨hz0, (h.takeChunk hw A hz hfree).mono ?_⟩
  rintro x s₁ ⟨hx, h₁, hk₁⟩
  subst x
  rw [wp_bind, wp_assert]
  refine ⟨hd0, ?_⟩
  have hfr : ∀ {a}, a ∈ H.untouched L live held → a ∈ (H.takeChunk z).untouched L live held :=
    Heap.untouched_mono (fun c hc => ⟨hc, fun _ hci => Heap.hasClass_setFree.mpr hci⟩) fun g hg => hg
  rcases hal : H.pages.allocate 1 with ⟨_ | g, b⟩
  · apply (h₁.newZone_none hw₁ A hd0 hal).mono
    rintro x s₂ ⟨rfl, h₂, hk₂⟩
    simp only [Heap.newZone, hget, hfree, hal, List.headD_cons]
    exact ⟨rfl, h₂, fun a ha => (hk₂ a (hfr ha)).trans (hk₁ a ha)⟩
  · obtain ⟨hg, hw₂, hw₃⟩ := hw.newZone_steps A.sound hi hsize hzl hfree hal
    apply (h₁.newZone_some hw₁ A hi hsize hcl hal hg hw₂ hw₃).mono
    rintro x s₂ ⟨rfl, h₂, hk₂⟩
    simp only [Heap.newZone, hget, hfree, hal, List.headD_cons]
    exact ⟨rfl, h₂, fun a ha => (hk₂ a (hfr ha)).trans (hk₁ a ha)⟩

/-- A new zone for descriptors is made without a further one. -/
theorem HeapRep.allocateZone_desc {fuel : ℕ} (h : HeapRep L H s) (hw : H.Wf L r live held)
    (A : Arena L r) (hres : 1 ≤ H.freeCount descIdx) :
    wp (ZoneAllocator.allocateZoneWithin (fuel + 1) (classSize descIdx)) (fun x s' =>
      x = (H.newZone L descIdx).1.getD 0 ∧ HeapRep L (H.newZone L descIdx).2 s' ∧
      ∀ a ∈ H.untouched L live held, s'.mem a = s.mem a) s := by
  rw [ZoneAllocator.allocateZoneWithin_succ]
  simp only [wp_bind, wp_get, h.zoneDescIdx, h.zoneDescChunkSize]
  apply (h.shouldAllocateZone descIdx_lt).mono
  rintro b _ ⟨-, rfl⟩
  rw [if_neg fun hc => hc.1 rfl]
  exact h.newZone hw A descIdx_lt A.descSize_lt hres

/-- `allocateZone` of the code refines `Heap.allocateZone`. -/
theorem HeapRep.allocateZone (h : HeapRep L H s) (hw : H.Wf L r live held) (A : Arena L r)
    (ht : H.Tight L) (hi : i < maxZoneIdx) (hsize : classSize i < L.pageSize)
    (hres : 1 ≤ H.freeCount descIdx) :
    wp (ZoneAllocator.allocateZone (classSize i)) (fun x s' =>
      x = (H.allocateZone L i).1.getD 0 ∧ HeapRep L (H.allocateZone L i).2 s' ∧
      ∀ a ∈ H.untouched L live held, s'.mem a = s.mem a) s := by
  obtain ⟨fuel, hfuel⟩ : ∃ n, loopBound = n + 2 := by
    have := two_pow_32_le
    exact ⟨loopBound - 2, by unfold loopBound; omega⟩
  rw [ZoneAllocator.allocateZone, hfuel, ZoneAllocator.allocateZoneWithin_succ]
  simp only [wp_bind, wp_get, h.zoneDescIdx, h.zoneDescChunkSize]
  apply (h.shouldAllocateZone descIdx_lt).mono
  rintro b _ ⟨rfl, rfl⟩
  have hcond : (classSize i ≠ classSize descIdx ∧ decide (H.shouldAllocateZone descIdx) = true) ↔
      (i ≠ descIdx ∧ H.shouldAllocateZone descIdx) := by
    rw [ne_eq, classSize_inj, decide_eq_true_iff]
  unfold Heap.allocateZone
  by_cases hfirst : i ≠ descIdx ∧ H.shouldAllocateZone descIdx
  · rw [if_pos (hcond.mpr hfirst), if_pos hfirst]
    simp only [wp_bind]
    apply (h.allocateZone_desc hw A hres).mono
    rintro _ s₁ ⟨rfl, h₁, hk₁⟩
    obtain ⟨z, hget⟩ := Heap.exists_getFreeZone hres
    obtain ⟨hzl, d, cs, hfree⟩ := Heap.getFreeZone_eq_some hget
    rcases hal : H.pages.allocate 1 with ⟨_ | g, a⟩
    · obtain ⟨he, -⟩ := hw.newZone_undone (i := descIdx) A.sound ht hget hal
      rw [he] at h₁ ⊢
      simp only [Option.getD_none, if_true, wp_pure]
      exact ⟨trivial, h₁, hk₁⟩
    · obtain ⟨he, hm⟩ := hw.newZone_some A.sound descIdx_lt A.descSize_lt hget
        (fun y hy hne _ => ht y hy hne) hfree hal
      have hd0 := hm.wf.ne_zero A.sound hm.mem
      rw [he] at h₁ ⊢
      rw [if_pos rfl] at hm
      simp only [Option.getD_some, hd0, if_false]
      apply (h₁.newZone hm.wf A hi hsize (Nat.le_of_succ_le hm.reserve)).mono
      rintro _ s₂ ⟨rfl, h₂, hk₂⟩
      refine ⟨rfl, h₂, fun a ha => (hk₂ a ?_).trans (hk₁ a ha)⟩
      exact Heap.untouched_mono (fun c hc => ⟨hc, fun i hi => hm.hasClass c i hi⟩) (fun g hg => hg) ha
  · rw [if_neg (hcond.not.mpr hfirst), if_neg hfirst]
    exact h.newZone hw A hi hsize hres

/-! ### A chunk -/

namespace ZoneAllocator

/-- The part of `allocate` for sizes that are served from zones. -/
def allocateSmall (allocSize : ℕ) : ZoneM ℕ := do
  let idx := zoneIdx allocSize
  let zone ← if (← shouldAllocateZone idx) then allocateZone allocSize else getFreeZone idx
  if zone = 0 then return 0
  allocateChunk zone

end ZoneAllocator

/-- `allocate` of the code, for a size that is served from zones, refines `Heap.allocateChunk`. -/
theorem HeapRep.allocateSmall (h : HeapRep L H s) (hw : H.Wf L r live held) (A : Arena L r)
    (ht : H.Tight L) (hsize : classSize i < L.pageSize) (hres : 1 ≤ H.freeCount descIdx) :
    wp (ZoneAllocator.allocateSmall (classSize i)) (fun x s' =>
      x = (H.allocateChunk L i).1.getD 0 ∧ HeapRep L (H.allocateChunk L i).2 s' ∧
      ∀ a ∈ H.untouched L live held, s'.mem a = s.mem a) s := by
  have hi := A.idx_lt hsize
  simp only [ZoneAllocator.allocateSmall, wp_bind, zoneIdx_classSize (hi.trans maxZoneIdx_lt)]
  apply (h.shouldAllocateZone hi).mono
  rintro b _ ⟨rfl, rfl⟩
  unfold Heap.allocateChunk
  by_cases hshould : H.shouldAllocateZone i
  · simp only [hshould, decide_true, if_true, wp_bind]
    apply (h.allocateZone hw A ht hi hsize hres).mono
    rintro _ s₁ ⟨rfl, h₁, hk₁⟩
    rcases hw.allocateZone A.sound ht hres hi hsize A.descSize_lt with ⟨d, H', he, hm⟩ | ⟨H', he, hu⟩
    · obtain ⟨c, cs, hfree⟩ := List.exists_cons_of_ne_nil hm.free
      have hd0 := hm.wf.ne_zero A.sound hm.mem
      rw [he] at h₁ ⊢
      simp only [Option.getD_some, hd0, if_false]
      apply (h₁.takeChunk hm.wf A hm.mem hfree).mono
      rintro x s₂ ⟨rfl, h₂, hk₂⟩
      refine ⟨by rw [hfree]; rfl, h₂, fun a ha => (hk₂ a ?_).trans (hk₁ a ha)⟩
      exact Heap.untouched_mono (fun c hc => ⟨hc, fun i hi => hm.hasClass c i hi⟩) (fun g hg => hg) ha
    · rw [he] at h₁ ⊢
      simp only [Option.getD_none, if_true, wp_pure]
      exact ⟨trivial, h₁, hk₁⟩
  · simp only [hshould, decide_false, Bool.false_eq_true, if_false, wp_bind]
    apply (h.getFreeZone hw hi).mono
    rintro _ _ ⟨rfl, rfl⟩
    cases hget : H.getFreeZone i with
    | none =>
      simp only [Option.getD_none, if_true, wp_pure]
      exact ⟨trivial, h, fun _ _ => trivial⟩
    | some d =>
      obtain ⟨hdl, c, cs, hfree⟩ := Heap.getFreeZone_eq_some hget
      have hd : d ∈ H.descs := Heap.mem_descs.mpr ⟨i, hi, hdl⟩
      have hd0 := hw.ne_zero A.sound hd
      simp only [Option.getD_some, hd0, if_false]
      apply (h.takeChunk hw A hd hfree).mono
      rintro x s₂ ⟨rfl, h₂, hk₂⟩
      exact ⟨by rw [hfree]; rfl, h₂, hk₂⟩

end Liballocator
