import Liballocator.Zones.Steps

/-!
# Giving back a chunk

`deallocate` gives a chunk back to its zone; when the zone is then entirely free it is given up, its
page is released and its descriptor is given back in the same way.  Every round gives up a zone, so
there are at most as many rounds as zones.
-/

namespace Liballocator

open Tiling Families Ownership

variable [Platform]

namespace Heap

section Definitions

variable (L : Layout) (H : Heap)

/-- The zone that the chunk `c` belongs to. -/
def findZone (c : ℕ) : Option ℕ := H.descs.find? fun d => c ∈ (H.zone d).chunks L

/-- An entirely free zone leaves its list, and its page is released. -/
def clearZone (d : ℕ) : Heap :=
  (H.removeZone d).withPages (H.pages.release L (H.pageGroup d))

/-- Giving back the chunk `c`, at most `n` levels deep. -/
def deallocateWithin : (n c : ℕ) → Heap → Bool × Heap
  | 0, _, H => (false, H)
  | n + 1, c, H =>
    match H.findZone L c with
    | none => (false, H)
    | some d =>
      let H := H.giveChunk d c
      if (H.zone d).free.length = (H.zone d).chunksCount L ∧ d ≠ initialZone then
        deallocateWithin n d (H.clearZone L d)
      else (true, H)

/-- Giving back the chunk `c`. -/
def deallocate (c : ℕ) : Bool × Heap := deallocateWithin L H.descs.length c H

/-- Every zone but the initial one, and but the zone `d`, has a chunk that is not free. -/
def TightBut (d : ℕ) : Prop :=
  ∀ y ∈ H.descs, y ≠ initialZone → y ≠ d → (H.zone y).taken L ≠ []

/-- Every zone but the initial one has a chunk that is not free. -/
def Tight : Prop := ∀ y ∈ H.descs, y ≠ initialZone → (H.zone y).taken L ≠ []

/-- `c` is a chunk of a zone of the class `i`. -/
def HasClass (c i : ℕ) : Prop := ∃ d ∈ H.descs, H.Owns L d c ∧ (H.zone d).idx = i

end Definitions

variable {L : Layout} {r : Group} {H H' : Heap} {live : List ℕ} {held : List Group}
  {d c i n : ℕ}

/-- The zone of a chunk is found. -/
theorem Wf.findZone_eq (h : H.Wf L r live held) (hL : L.Sound) (hd : d ∈ H.descs)
    (hc : H.Owns L d c) : H.findZone L c = some d := by
  cases hf : H.findZone L c with
  | none =>
    have := List.find?_eq_none.mp hf d hd
    exact absurd (by simpa [Owns] using hc) this
  | some y =>
    have hy := List.mem_of_find?_eq_some hf
    have hcy : H.Owns L y c := by simpa [Owns] using List.find?_some hf
    rw [h.eq_of_owns hL hy hd hcy hc]

/-- The chunk of a zone is entirely free exactly when the counters agree. -/
theorem Wf.free_length_eq_iff (h : H.Wf L r live held) (hd : d ∈ H.descs) :
    (H.zone d).free.length = (H.zone d).chunksCount L ↔ (H.zone d).taken L = [] :=
  (ZoneData.taken_eq_nil_iff (h.free_sub d hd) (h.free_nodup d hd)).symm

/-! ### Classes of chunks -/

/-- Free chunks do not matter for the class of a chunk. -/
theorem hasClass_setFree {l : List ℕ} : (H.setFree d l).HasClass L c i ↔ H.HasClass L c i := by
  simp only [HasClass, Owns, chunks_setFree, idx_setFree]
  exact Iff.rfl

/-- A chunk keeps its class when a zone is added. -/
theorem HasClass.addZone {j p : ℕ} (h : H.HasClass L c i) (hd : d ∉ H.descs)
    (hj : j < maxZoneIdx) : (H.addZone L d j p).HasClass L c i := by
  obtain ⟨y, hy, hown, hidx⟩ := h
  have hzone : (H.addZone L d j p).zone y = H.zone y := zone_addZone_of_ne fun e => hd (e ▸ hy)
  refine ⟨y, (descs_addZone hj).mem_iff.mpr (List.mem_cons_of_mem _ hy), ?_, ?_⟩
  · rwa [Owns, hzone]
  · rwa [hzone]

/-- The class of a chunk that is not free stays when an entirely free zone is given up. -/
theorem HasClass.removeZone (h : H.HasClass L c i) (hw : H.Wf L r live held) (hL : L.Sound)
    (hd : d ∈ H.descs) (hfree : (H.zone d).taken L = [])
    (hc : ∃ z ∈ H.descs, c ∈ (H.zone z).taken L) : (H.removeZone d).HasClass L c i := by
  obtain ⟨y, hy, hown, hidx⟩ := h
  obtain ⟨z, hz, hcz⟩ := hc
  have hyd : y ≠ d := by
    rintro rfl
    rw [hw.eq_of_owns hL hz hd (ZoneData.mem_taken.mp hcz).1 hown, hfree] at hcz
    exact absurd hcz List.not_mem_nil
  obtain ⟨j, hj, hyj⟩ := mem_descs.mp hy
  exact ⟨y, mem_descs.mpr ⟨j, hj, mem_removeZone hyj hyd⟩, hown, hidx⟩

/-- The chunks of descriptors are of the class for descriptors. -/
theorem Wf.hasClass_desc (h : H.Wf L r live held) (hd : d ∈ H.descs) (hne : d ≠ initialZone) :
    H.HasClass L d descIdx := by
  obtain ⟨y, hy, hyd⟩ := h.owned d hd hne
  exact ⟨y, mem_descs_of_list hy, hyd, h.idx descIdx descIdx_lt y hy⟩

/-! ### Giving back a chunk -/

/-- The zone is given up, somebody else holds its descriptor. -/
theorem Wf.clearZone (h : H.Wf L r live held) (hL : L.Sound) (hd : d ∈ H.descs)
    (hne : d ≠ initialZone) (hfree : (H.zone d).taken L = []) :
    (H.clearZone L d).Wf L r (d :: live) held := by
  have := (h.removeZone hL hd hne hfree).releasePages List.mem_cons_self
  rwa [List.erase_cons_head] at this

/-- The page of a cleared zone is released. -/
theorem Wf.moves_clearZone (h : H.Wf L r live held) (hd : d ∈ H.descs) :
    Moves L r H (H.clearZone L d) :=
  ⟨Pages.Steps.refl.release (h.pageGroup_mem hd) (h.pageGroup_ne_reserved hd), rfl⟩

/-- What giving back the chunk `c` leads to. -/
structure Deallocated (L : Layout) (r : Group) (H H' : Heap) (live : List ℕ) (held : List Group)
    (c : ℕ) : Prop where
  wf : H'.Wf L r (live.erase c) held
  tight : H'.Tight L
  reserve : 1 ≤ H.freeCount descIdx ∨ H.HasClass L c descIdx → 1 ≤ H'.freeCount descIdx
  hasClass : ∀ c' ∈ live.erase c, ∀ i, H.HasClass L c' i → H'.HasClass L c' i
  moves : Moves L r H H'

/-- The heap is tight when the one zone in question has a chunk taken. -/
theorem tight_setFree_of {l : List ℕ} (ht : H.TightBut L d)
    (hd : d ≠ initialZone → ZoneData.taken L { H.zone d with free := l } ≠ []) :
    (H.setFree d l).Tight L := by
  intro y hy hne
  by_cases hyd : y = d
  · subst hyd
    rw [zone_setFree_self]
    exact hd hne
  · rw [zone_setFree_of_ne hyd]
    exact ht y hy hne hyd

omit [Platform] in
/-- The free chunks of a class after a chunk has been given back. -/
theorem freeCount_le_giveChunk (i : ℕ) : H.freeCount i ≤ (H.giveChunk d c).freeCount i := by
  rw [freeCount, freeCount, giveChunk, freeChunks_setFree, freeChunks, List.length_flatMap,
    List.length_flatMap]
  apply List.sum_le_sum
  intro y _
  by_cases hyd : y = d
  · subst hyd
    rw [Function.update_self, List.length_cons]
    exact Nat.le_succ _
  · rw [Function.update_of_ne hyd]

/-- A round in which a zone is given up: its descriptor is given back next, and there is a zone
less. -/
theorem Wf.giveUp (h : (H.giveChunk d c).Wf L r live held) (hL : L.Sound) (ht : H.Tight L)
    (hd : d ∈ H.descs) (hne : d ≠ initialZone)
    (hfree : ((H.giveChunk d c).zone d).taken L = []) :
    ((H.giveChunk d c).clearZone L d).Wf L r (d :: live) held ∧
      ((H.giveChunk d c).clearZone L d).Tight L ∧
      ((H.giveChunk d c).clearZone L d).HasClass L d descIdx ∧
      ((H.giveChunk d c).clearZone L d).descs.length + 1 = H.descs.length := by
  have hperm := descs_removeZone h hd
  refine ⟨h.clearZone hL hd hne hfree, fun y hy hyne => ?_,
    (h.hasClass_desc hd hne).removeZone h hL hd hfree (h.desc_taken hd hne), hperm.length_eq⟩
  have hyd : y ≠ d := by
    rintro rfl
    exact (List.nodup_cons.mp (hperm.nodup_iff.mpr h.nodup)).1 hy
  have hzone : ((H.giveChunk d c).clearZone L d).zone y = H.zone y := zone_setFree_of_ne hyd
  rw [hzone]
  exact ht y (hperm.mem_iff.mp (List.mem_cons_of_mem _ hy)) hyne

/-- A live chunk is given back, with enough turns for the zones that are freed with it. -/
theorem Wf.deallocateWithin (h : H.Wf L r live held) (hL : L.Sound) (ht : H.Tight L)
    (hc : c ∈ live) (hn : H.descs.length ≤ n) :
    ∃ H', H.deallocateWithin L n c = (true, H') ∧ Deallocated L r H H' live held c := by
  induction n generalizing H live c with
  | zero =>
    have := List.length_pos_of_mem h.initial_mem
    omega
  | succ n ih =>
    obtain ⟨d, hd, hcd⟩ := h.exists_zone hc
    have hown := (ZoneData.mem_taken.mp hcd).1
    have h₁ := h.giveChunk hL hd hown hc
    have hcount : (H.giveChunk d c).freeCount (H.zone d).idx =
        H.freeCount (H.zone d).idx + 1 := (h.freeChunks_giveChunk hd).length_eq
    have hmono := freeCount_le_giveChunk (H := H) (d := d) (c := c) descIdx
    simp only [Heap.deallocateWithin, h.findZone_eq hL hd hown]
    by_cases hall : ((H.giveChunk d c).zone d).free.length =
        ((H.giveChunk d c).zone d).chunksCount L ∧ d ≠ initialZone
    · rw [if_pos hall]
      have hfree := (h₁.free_length_eq_iff hd).mp hall.1
      obtain ⟨h₂, ht₂, hdesc, hlen⟩ := h₁.giveUp hL ht hd hall.2 hfree
      obtain ⟨H', he, hd'⟩ := ih h₂ ht₂ List.mem_cons_self (by omega)
      refine ⟨H', he, ?_, hd'.tight, fun _ => hd'.reserve (Or.inr hdesc), fun c' hc' i hi => ?_,
        (moves_setFree.trans (h₁.moves_clearZone hd)).trans hd'.moves⟩
      · have := hd'.wf
        rwa [List.erase_cons_head] at this
      · have hcl := (hasClass_setFree.mpr hi).removeZone h₁ hL hd hfree (h₁.exists_zone hc')
        exact hd'.hasClass c' (by rwa [List.erase_cons_head]) i hcl
    · rw [if_neg hall]
      refine ⟨_, rfl, h₁, ?_, ?_, fun c' _ i hi => hasClass_setFree.mpr hi,
        moves_setFree⟩
      · refine tight_setFree_of (fun y hy hne _ => ht y hy hne) fun hne hnil => hall ⟨?_, hne⟩
        rw [h₁.free_length_eq_iff hd, Heap.giveChunk, zone_setFree_self]
        exact hnil
      · rintro (hres | ⟨y, hy, hyc, hidx⟩)
        · exact hres.trans hmono
        · have hyd := h.eq_of_owns hL hy hd hyc hown
          subst hyd
          rw [hidx] at hcount
          omega

end Heap

end Liballocator
