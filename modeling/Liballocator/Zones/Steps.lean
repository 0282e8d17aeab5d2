import Liballocator.Zones.Heap

/-!
# The steps of the zone allocator

Taking and giving a chunk, adding and removing a zone, and allocating and releasing pages keep the
invariant.  What is taken out of a zone or out of the page allocator is held by somebody else until
it becomes a descriptor, a block of the user or a page of a zone.
-/

namespace Liballocator

open Tiling Families Ownership

variable [Platform]

namespace Heap

variable {L : Layout} {r : Group} {H : Heap} {live : List ℕ} {held : List Group} {d c i p : ℕ}
  {l : List ℕ}

/-! ### The free chunks of one zone -/

section SetFree

omit [Platform] in
/-- The zone gets the new free chunks and is otherwise as before. -/
@[simp] theorem zone_setFree_self : (H.setFree d l).zone d = { H.zone d with free := l } :=
  Function.update_self _ _ _

omit [Platform] in
/-- The other zones keep their free chunks. -/
theorem zone_setFree_of_ne {y : ℕ} (hy : y ≠ d) : (H.setFree d l).zone y = H.zone y :=
  Function.update_of_ne hy _ _

omit [Platform] in
/-- No zone moves to another page. -/
@[simp] theorem page_setFree (y : ℕ) : ((H.setFree d l).zone y).page = (H.zone y).page := by
  by_cases hy : y = d
  · rw [hy, zone_setFree_self]
  · rw [zone_setFree_of_ne hy]

omit [Platform] in
/-- No zone changes its class. -/
@[simp] theorem idx_setFree (y : ℕ) : ((H.setFree d l).zone y).idx = (H.zone y).idx := by
  by_cases hy : y = d
  · rw [hy, zone_setFree_self]
  · rw [zone_setFree_of_ne hy]

/-- Free chunks do not matter for the chunks that a zone has. -/
@[simp] theorem chunks_setFree (y : ℕ) :
    ((H.setFree d l).zone y).chunks L = (H.zone y).chunks L :=
  ZoneData.chunks_congr (page_setFree y) (idx_setFree y)

omit [Platform] in
/-- What is read from the zones changes at the one zone only. -/
theorem map_zone_setFree {α : Type*} (f : ZoneData → α) :
    (fun y => f ((H.setFree d l).zone y)) =
      Function.update (fun y => f (H.zone y)) d (f { H.zone d with free := l }) := by
  funext y
  by_cases hy : y = d
  · rw [hy, zone_setFree_self, Function.update_self]
  · rw [zone_setFree_of_ne hy, Function.update_of_ne hy]

/-- The taken chunks are those of the other zones and the ones that the zone now has. -/
theorem taken_setFree : (H.setFree d l).taken L =
    H.descs.flatMap (Function.update (fun y => (H.zone y).taken L) d
      (ZoneData.taken L { H.zone d with free := l })) :=
  congrArg (List.flatMap · H.descs) (map_zone_setFree (ZoneData.taken L))

/-- Replacing the free chunks of a zone. -/
theorem Wf.setFree (h : H.Wf L r live held) (hnd : l.Nodup)
    (hsub : ∀ c ∈ l, c ∈ (H.zone d).chunks L) {live' : List ℕ}
    (htaken : ((H.setFree d l).taken L).Perm (H.descs.erase initialZone ++ live')) :
    (H.setFree d l).Wf L r live' held := by
  have hgroup : (H.setFree d l).pageGroup = H.pageGroup := by
    funext y
    rw [pageGroup, page_setFree, pageGroup]
  have howns : (H.setFree d l).Owns L = H.Owns L := by
    funext y x
    rw [Owns, chunks_setFree, Owns]
  refine ⟨h.inv, h.count, h.small, h.nodup, fun i hi y hy => ?_, fun y hy => ?_, fun y hy => ?_,
    fun y hy x hx => ?_, ?_, htaken, ?_, fun y hy hne => ?_⟩
  · rw [idx_setFree]
    exact h.idx i hi y hy
  · obtain ⟨h₁, h₂⟩ := h.fits y hy
    exact ⟨by rwa [page_setFree], by rwa [idx_setFree]⟩
  · by_cases hyd : y = d
    · rw [hyd, zone_setFree_self]
      exact hnd
    · rw [zone_setFree_of_ne hyd]
      exact h.free_nodup y hy
  · rw [chunks_setFree]
    by_cases hyd : y = d
    · rw [hyd, zone_setFree_self] at hx
      exact hyd ▸ hsub x hx
    · rw [zone_setFree_of_ne hyd] at hx
      exact h.free_sub y hy x hx
  · rw [hgroup]
    exact h.used
  · rw [howns]
    exact h.grounded
  · rw [howns]
    exact h.owned y hy hne

/-- A free chunk is taken. -/
theorem Wf.takeChunk (h : H.Wf L r live held) (hd : d ∈ H.descs) {cs : List ℕ}
    (hfree : (H.zone d).free = c :: cs) : (H.takeChunk d).Wf L r (c :: live) held := by
  have hnd := h.free_nodup d hd
  have hsub := h.free_sub d hd
  have hcs : (H.zone d).free.tail = cs := by rw [hfree, List.tail_cons]
  rw [Heap.takeChunk, hcs]
  refine h.setFree ?_ (fun x hx => hsub x (hfree ▸ List.mem_cons_of_mem _ hx)) ?_
  · rw [hfree] at hnd
    exact (List.nodup_cons.mp hnd).2
  · rw [taken_setFree]
    refine (flatMap_update_cons (f := fun y => (H.zone y).taken L) h.nodup hd
      (ZoneData.taken_tail hsub hnd hfree)).trans ?_
    exact (h.taken.cons c).trans List.perm_middle.symm

/-- A chunk that somebody holds is given back to its zone. -/
theorem Wf.giveChunk (h : H.Wf L r live held) (hL : L.Sound) (hd : d ∈ H.descs)
    (hc : H.Owns L d c) (hl : c ∈ live) : (H.giveChunk d c).Wf L r (live.erase c) held := by
  have htaken : c ∈ (H.zone d).taken L := by
    obtain ⟨y, hy, hcy⟩ := h.exists_zone hl
    rwa [h.eq_of_owns hL hd hy hc (ZoneData.mem_taken.mp hcy).1]
  have hnot := (ZoneData.mem_taken.mp htaken).2
  refine h.setFree (List.nodup_cons.mpr ⟨hnot, h.free_nodup d hd⟩) (fun x hx => ?_) ?_
  · rcases List.mem_cons.mp hx with rfl | hx
    · exact hc
    · exact h.free_sub d hd x hx
  · have hperm := flatMap_update_uncons (f := fun y => (H.zone y).taken L) h.nodup hd
      (ZoneData.taken_cons htaken)
    rw [taken_setFree]
    refine List.Perm.cons_inv (a := c) (hperm.trans (h.taken.trans ?_))
    exact ((List.perm_cons_erase hl).append_left _).trans List.perm_middle

end SetFree

/-! ### The list of zones -/

section AddZone

/-- In a new zone all chunks are free. -/
theorem zone_addZone_self : (H.addZone L d i p).zone d =
    ⟨p, i, (ZoneData.chunks L ⟨p, i, []⟩).reverse⟩ := Function.update_self _ _ _

/-- The other zones stay as they are. -/
theorem zone_addZone_of_ne {y : ℕ} (hy : y ≠ d) : (H.addZone L d i p).zone y = H.zone y :=
  Function.update_of_ne hy _ _

/-- A new zone is one more descriptor in the lists. -/
theorem descs_addZone (hi : i < maxZoneIdx) : (H.addZone L d i p).descs.Perm (d :: H.descs) :=
  flatMap_update_cons List.nodup_range (List.mem_range.mpr hi) (List.Perm.refl _)

/-- A zone whose free chunks are all its chunks. -/
theorem taken_fresh : ZoneData.taken L ⟨p, i, (ZoneData.chunks L ⟨p, i, []⟩).reverse⟩ = [] := by
  rw [List.eq_nil_iff_forall_not_mem]
  intro x hx
  obtain ⟨h₁, h₂⟩ := ZoneData.mem_taken.mp hx
  exact h₂ (List.mem_reverse.mpr h₁)

/-- A chunk and a page that somebody holds become the descriptor and the page of a new zone. -/
theorem Wf.addZone (h : H.Wf L r live held) (hL : L.Sound) (hd : d ∈ live)
    (hg : (⟨p, 1⟩ : Group) ∈ held) (hi : i < maxZoneIdx) (hsize : classSize i < L.pageSize)
    (hown : ∃ y ∈ H.lists descIdx, H.Owns L y d) :
    (H.addZone L d i p).Wf L r (live.erase d) (held.erase ⟨p, 1⟩) := by
  have hnot : d ∉ H.descs := h.not_desc hL hd
  have hperm := descs_addZone (L := L) (H := H) (d := d) (p := p) hi
  have hmem : ∀ {y}, y ∈ (H.addZone L d i p).descs → y = d ∨ y ∈ H.descs := fun hy =>
    List.mem_cons.mp (hperm.mem_iff.mp hy)
  have hold : ∀ {y}, y ∈ H.descs → (H.addZone L d i p).zone y = H.zone y := fun hy =>
    zone_addZone_of_ne fun e => hnot (e ▸ hy)
  have hp : p < L.count := by
    have := h.inv.tiles.lt_of_covers (Pages.mem_groups.mpr (Or.inl (h.held_mem hg)))
      (i := p) ⟨le_rfl, Nat.lt_succ_self p⟩
    exact h.count ▸ this
  have hdinit : d ≠ initialZone := by
    obtain ⟨y, hy, hyd⟩ := hown
    exact h.chunk_ne_initial hL (Wf.mem_descs_of_list hy) hyd
  have howns : ∀ y ∈ H.descs, ∀ x, H.Owns L y x → (H.addZone L d i p).Owns L y x := by
    intro y hy x hyx
    rwa [Owns, hold hy]
  refine ⟨h.inv, h.count, h.small, ?_, fun j hj y hy => ?_, fun y hy => ?_, fun y hy => ?_,
    fun y hy x hx => ?_, ?_, ?_, ?_, fun y hy hne => ?_⟩
  · exact hperm.nodup_iff.mpr (List.nodup_cons.mpr ⟨hnot, h.nodup⟩)
  · by_cases hji : j = i
    · subst hji
      simp only [Heap.addZone, Function.update_self] at hy
      rcases List.mem_cons.mp hy with rfl | hy
      · rw [zone_addZone_self]
      · rw [hold (mem_descs.mpr ⟨j, hj, hy⟩)]
        exact h.idx j hj y hy
    · simp only [Heap.addZone, Function.update_of_ne hji] at hy
      rw [hold (mem_descs.mpr ⟨j, hj, hy⟩)]
      exact h.idx j hj y hy
  · rcases hmem hy with rfl | hy
    · rw [zone_addZone_self]
      exact ⟨hp, hsize⟩
    · rw [hold hy]
      exact h.fits y hy
  · rcases hmem hy with rfl | hy
    · rw [zone_addZone_self]
      exact List.nodup_reverse.mpr ZoneData.nodup_chunks
    · rw [hold hy]
      exact h.free_nodup y hy
  · rcases hmem hy with rfl | hy
    · rw [zone_addZone_self] at hx ⊢
      exact List.mem_reverse.mp hx
    · rw [hold hy] at hx ⊢
      exact h.free_sub y hy x hx
  · -- the page passes from the holder to the zones
    have hmap : ((H.addZone L d i p).descs.map (H.addZone L d i p).pageGroup).Perm
        (⟨p, 1⟩ :: H.descs.map H.pageGroup) := by
      refine (hperm.map _).trans (List.Perm.of_eq ?_)
      rw [List.map_cons, pageGroup, zone_addZone_self]
      exact congrArg _ (List.map_congr_left fun y hy => by rw [pageGroup, hold hy, pageGroup])
    refine h.used.trans (List.Perm.cons _ ?_)
    apply ((List.perm_cons_erase hg).append_left _).trans
    exact List.perm_middle.trans (hmap.symm.append_right _)
  · -- the chunk passes from the holder to the descriptors
    have htaken : ((H.addZone L d i p).taken L).Perm (H.taken L) := by
      refine (hperm.flatMap_right _).trans (List.Perm.of_eq ?_)
      rw [List.flatMap_cons, zone_addZone_self, taken_fresh, List.nil_append]
      exact List.flatMap_congr fun y hy => by rw [hold hy]
    have herase := hperm.erase initialZone
    rw [List.erase_cons_tail (by simpa using hdinit)] at herase
    refine htaken.trans (h.taken.trans ?_)
    apply ((List.perm_cons_erase hd).append_left _).trans
    exact List.perm_middle.trans (herase.symm.append_right _)
  · have hg' : Grounded ((H.addZone L d i p).Owns L) initialZone (H.lists descIdx) :=
      h.grounded.mono fun y hy x _ => howns y (Wf.mem_descs_of_list hy) x
    by_cases hdi : descIdx = i
    · have hl : (H.addZone L d i p).lists descIdx = d :: H.lists descIdx := by
        rw [hdi]
        exact Function.update_self _ _ _
      obtain ⟨y, hy, hyd⟩ := hown
      rw [hl]
      exact hg'.push hy (howns y (Wf.mem_descs_of_list hy) d hyd)
    · have hl : (H.addZone L d i p).lists descIdx = H.lists descIdx :=
        Function.update_of_ne hdi _ _
      rwa [hl]
  · have hsub : ∀ z ∈ H.lists descIdx, z ∈ (H.addZone L d i p).lists descIdx := by
      intro z hz
      by_cases hdi : descIdx = i
      · subst hdi
        simp only [Heap.addZone, Function.update_self]
        exact List.mem_cons_of_mem _ hz
      · simp only [Heap.addZone, Function.update_of_ne hdi]
        exact hz
    have howner : ∃ z ∈ H.lists descIdx, H.Owns L z y := by
      rcases hmem hy with rfl | hy
      · exact hown
      · exact h.owned y hy hne
    obtain ⟨z, hz, hzy⟩ := howner
    exact ⟨z, hsub z hz, howns z (Wf.mem_descs_of_list hz) y hzy⟩

end AddZone

section RemoveZone

/-- A removed zone is one descriptor less in the lists. -/
theorem descs_removeZone (h : H.Wf L r live held) (hd : d ∈ H.descs) :
    (d :: (H.removeZone d).descs).Perm H.descs :=
  flatMap_update_uncons List.nodup_range (List.mem_range.mpr (h.idx_lt hd))
    (List.perm_cons_erase (h.mem_list hd)).symm

omit [Platform] in
/-- What is in a list after a removal was there before. -/
theorem mem_of_mem_removeZone {y j : ℕ} (hy : y ∈ (H.removeZone d).lists j) : y ∈ H.lists j := by
  by_cases hj : j = (H.zone d).idx
  · subst hj
    simp only [Heap.removeZone, Function.update_self] at hy
    exact List.mem_of_mem_erase hy
  · simpa only [Heap.removeZone, Function.update_of_ne hj] using hy

omit [Platform] in
/-- The other descriptors stay in their lists. -/
theorem mem_removeZone {y j : ℕ} (hy : y ∈ H.lists j) (hne : y ≠ d) :
    y ∈ (H.removeZone d).lists j := by
  by_cases hj : j = (H.zone d).idx
  · subst hj
    simp only [Heap.removeZone, Function.update_self]
    exact (List.mem_erase_of_ne hne).mpr hy
  · simpa only [Heap.removeZone, Function.update_of_ne hj] using hy

/-- A zone without a taken chunk is given up: somebody else holds its descriptor and its page. -/
theorem Wf.removeZone (h : H.Wf L r live held) (hL : L.Sound) (hd : d ∈ H.descs)
    (hne : d ≠ initialZone) (hfree : (H.zone d).taken L = []) :
    (H.removeZone d).Wf L r (d :: live) (H.pageGroup d :: held) := by
  have hperm := descs_removeZone h hd
  have hmem : ∀ {y}, y ∈ (H.removeZone d).descs → y ∈ H.descs := fun hy =>
    hperm.mem_iff.mp (List.mem_cons_of_mem _ hy)
  -- no descriptor is a chunk of the zone
  have hnone : ∀ y ∈ H.descs, ¬H.Owns L d y := by
    intro y hy hdy
    obtain ⟨z, hz, hyz⟩ := h.desc_taken hy (h.chunk_ne_initial hL hd hdy)
    have hzd : z = d := h.eq_of_owns hL hz hd (ZoneData.mem_taken.mp hyz).1 hdy
    subst hzd
    rw [hfree] at hyz
    exact absurd hyz List.not_mem_nil
  refine ⟨h.inv, h.count, h.small, ?_, fun j hj y hy => h.idx j hj y (mem_of_mem_removeZone hy),
    fun y hy => h.fits y (hmem hy), fun y hy => h.free_nodup y (hmem hy),
    fun y hy => h.free_sub y (hmem hy), ?_, ?_, ?_, fun y hy hyne => ?_⟩
  · exact (List.nodup_cons.mp (hperm.nodup_iff.mpr h.nodup)).2
  · refine h.used.trans (List.Perm.cons _ ?_)
    have hmap := hperm.symm.map H.pageGroup
    rw [List.map_cons] at hmap
    exact (hmap.append_right held).trans List.perm_middle.symm
  · have htaken : (H.taken L).Perm ((H.removeZone d).taken L) := by
      refine (hperm.symm.flatMap_right _).trans (List.Perm.of_eq ?_)
      rw [List.flatMap_cons, hfree, List.nil_append]
      rfl
    have herase := hperm.erase initialZone
    rw [List.erase_cons_tail (by simpa using hne)] at herase
    refine htaken.symm.trans (h.taken.trans ?_)
    exact (herase.symm.append_right live).trans List.perm_middle.symm
  · by_cases hdi : descIdx = (H.zone d).idx
    · have hl : (H.removeZone d).lists descIdx = (H.lists descIdx).erase d := by
        rw [hdi]
        exact Function.update_self _ _ _
      rw [hl]
      exact h.grounded.erase hne fun z hz => hnone z (Wf.mem_descs_of_list hz)
    · have hl : (H.removeZone d).lists descIdx = H.lists descIdx :=
        Function.update_of_ne hdi _ _
      rw [hl]
      exact h.grounded
  · obtain ⟨z, hz, hzy⟩ := h.owned y (hmem hy) hyne
    refine ⟨z, mem_removeZone hz ?_, hzy⟩
    rintro rfl
    exact hnone y (hmem hy) hzy

end RemoveZone

/-! ### Pages -/

/-- Pages are allocated for somebody. -/
theorem Wf.allocatePages (h : H.Wf L r live held) (n : ℕ) :
    (H.withPages (H.pages.allocate n).2).Wf L r live
      ((H.pages.allocate n).1.toList ++ held) := by
  refine { h with
    inv := h.inv.allocate
    count := Pages.count_allocate.trans h.count
    used := ?_ }
  change (H.pages.allocate n).2.used.Perm (r :: (H.descs.map H.pageGroup ++ _))
  rw [Pages.used_allocate h.inv]
  refine (h.used.append_left _).trans (List.perm_middle.trans (List.Perm.cons _ ?_))
  rw [← List.append_assoc, ← List.append_assoc]
  exact List.perm_append_comm.append_right held

/-- Pages that somebody holds are released. -/
theorem Wf.releasePages (h : H.Wf L r live held) {g : Group} (hg : g ∈ held) :
    (H.withPages (H.pages.release L g)).Wf L r live (held.erase g) := by
  have hgu := h.held_mem hg
  refine { h with
    inv := h.inv.release hgu
    count := (h.inv.count_release hgu).trans h.count
    used := ?_ }
  refine (h.inv.used_release hgu).trans ((h.used.erase g).trans ?_)
  have hne : r ≠ g := by
    rintro rfl
    exact (List.nodup_cons.mp h.used_nodup).1 (List.mem_append_right _ hg)
  have hnot : g ∉ H.descs.map H.pageGroup := fun hm =>
    (List.nodup_append.mp (List.nodup_cons.mp h.used_nodup).2).2.2 g hm g hg rfl
  rw [List.erase_cons_tail (by simpa using hne), List.erase_append_right _ hnot]
  exact List.Perm.refl _

/-- The page allocator has been called, and the initial zone has kept its page. -/
structure Moves (L : Layout) (r : Group) (H H' : Heap) : Prop where
  steps : Pages.Steps L r H.pages H'.pages
  page : (H'.zone initialZone).page = (H.zone initialZone).page

/-- One sequence of calls after the other. -/
theorem Moves.trans {H' H'' : Heap} (h₁ : Moves L r H H') (h₂ : Moves L r H' H'') :
    Moves L r H H'' := ⟨h₁.steps.trans h₂.steps, h₂.page.trans h₁.page⟩

/-- New free chunks need no pages. -/
theorem moves_setFree : Moves L r H (H.setFree d l) := ⟨.refl, page_setFree _⟩

/-! ### Counting free chunks -/

/-- A list names no zone twice. -/
theorem Wf.nodup_list (h : H.Wf L r live held) (hi : i < maxZoneIdx) : (H.lists i).Nodup :=
  ((flatMap_perm (f := H.lists) (List.mem_range.mpr hi)).nodup_iff.mp h.nodup).of_append_left

/-- A zone is in no list but that of its class. -/
theorem Wf.notMem_list (h : H.Wf L r live held) (hi : i < maxZoneIdx)
    (hne : i ≠ (H.zone d).idx) : d ∉ H.lists i := fun hd => hne (h.idx i hi d hd).symm

omit [Platform] in
/-- The free chunks of a class, of which one zone has got new ones. -/
theorem freeChunks_setFree (i : ℕ) : (H.setFree d l).freeChunks i =
    (H.lists i).flatMap (Function.update (fun y => (H.zone y).free) d l) :=
  congrArg (List.flatMap · (H.lists i)) (map_zone_setFree ZoneData.free)

/-- The free chunks of the other classes stay. -/
theorem Wf.freeChunks_setFree_of_ne (h : H.Wf L r live held) (hi : i < maxZoneIdx)
    (hne : i ≠ (H.zone d).idx) : (H.setFree d l).freeChunks i = H.freeChunks i := by
  rw [freeChunks_setFree]
  exact flatMap_update_of_notMem (h.notMem_list hi hne) l

/-- A class has one free chunk less when one is taken. -/
theorem Wf.freeChunks_takeChunk (h : H.Wf L r live held) (hd : d ∈ H.descs) {cs : List ℕ}
    (hfree : (H.zone d).free = c :: cs) :
    (c :: (H.takeChunk d).freeChunks (H.zone d).idx).Perm (H.freeChunks (H.zone d).idx) := by
  rw [Heap.takeChunk, freeChunks_setFree, hfree]
  exact flatMap_update_uncons (h.nodup_list (h.idx_lt hd)) (h.mem_list hd)
    (List.Perm.of_eq hfree.symm)

/-- A class has one free chunk more when one is given back. -/
theorem Wf.freeChunks_giveChunk (h : H.Wf L r live held) (hd : d ∈ H.descs) :
    ((H.giveChunk d c).freeChunks (H.zone d).idx).Perm (c :: H.freeChunks (H.zone d).idx) := by
  rw [Heap.giveChunk, freeChunks_setFree]
  exact flatMap_update_cons (h.nodup_list (h.idx_lt hd)) (h.mem_list hd) (List.Perm.refl _)

/-- A new zone adds all of its chunks to the free ones of its class. -/
theorem freeChunks_addZone_self (hd : d ∉ H.descs) (hi : i < maxZoneIdx) :
    (H.addZone L d i p).freeChunks i =
      (ZoneData.chunks L ⟨p, i, []⟩).reverse ++ H.freeChunks i := by
  have hl : (H.addZone L d i p).lists i = d :: H.lists i := Function.update_self _ _ _
  rw [freeChunks, hl, List.flatMap_cons, zone_addZone_self]
  refine congrArg _ (List.flatMap_congr fun y hy => ?_)
  have hne : y ≠ d := by
    rintro rfl
    exact hd (mem_descs.mpr ⟨i, hi, hy⟩)
  rw [zone_addZone_of_ne hne]

/-- A new zone adds nothing to the other classes. -/
theorem freeChunks_addZone_of_ne {j : ℕ} (hd : d ∉ H.descs) (hj : j < maxZoneIdx)
    (hne : j ≠ i) : (H.addZone L d i p).freeChunks j = H.freeChunks j := by
  have hl : (H.addZone L d i p).lists j = H.lists j := Function.update_of_ne hne _ _
  rw [freeChunks, hl]
  apply List.flatMap_congr
  intro y hy
  have hne : y ≠ d := by
    rintro rfl
    exact hd (mem_descs.mpr ⟨j, hj, hy⟩)
  rw [zone_addZone_of_ne hne]

/-- The free chunks of a removed zone are taken out of those of its class. -/
theorem Wf.freeChunks_removeZone (h : H.Wf L r live held) (hd : d ∈ H.descs) :
    ((H.zone d).free ++ (H.removeZone d).freeChunks (H.zone d).idx).Perm
      (H.freeChunks (H.zone d).idx) := by
  have hl : (H.removeZone d).lists (H.zone d).idx = (H.lists (H.zone d).idx).erase d :=
    Function.update_self _ _ _
  rw [freeChunks, freeChunks, hl]
  exact (flatMap_perm (f := fun y => (H.zone y).free) (h.mem_list hd)).symm

omit [Platform] in
/-- The removal of a zone does not matter for the other classes. -/
theorem freeChunks_removeZone_of_ne (hne : i ≠ (H.zone d).idx) :
    (H.removeZone d).freeChunks i = H.freeChunks i := by
  have hl : (H.removeZone d).lists i = H.lists i := Function.update_of_ne hne _ _
  rw [freeChunks, freeChunks, hl]
  rfl

end Heap

end Liballocator
