import Mathlib.Algebra.BigOperators.Ring.List
import Liballocator.Library.Support
import Liballocator.Zones.Allocate

/-!
# Heaps that are alike

Every zone but the initial one carries blocks: it has a chunk that is not free, and the chunks that
are not free are blocks or the descriptors of other zones (`Heap.Wf.supported`).  So the zones of a
heap within another one are determined by the blocks.  With the same blocks two such heaps are alike
(`Heap.Within.alike`): they have the same zones with the same free chunks, though not in the same
order.
-/

namespace Liballocator

open Tiling Ownership

namespace Heap

/-- The heaps have the same zones with the same free chunks. -/
structure Alike (H H' : Heap) : Prop where
  lists : ∀ i < maxZoneIdx, (H.lists i).Perm (H'.lists i)
  page : ∀ d ∈ H.descs, (H'.zone d).page = (H.zone d).page
  idx : ∀ d ∈ H.descs, (H'.zone d).idx = (H.zone d).idx
  free : ∀ d ∈ H.descs, (H.zone d).free.Perm (H'.zone d).free

variable {H H' H'' K : Heap} {live live' liveK : List ℕ} {held held' heldK : List Group} {d y c i : ℕ}

/-- Heaps that look alike have the same zones. -/
theorem Alike.descs (h : H.Alike H') : H.descs.Perm H'.descs :=
  List.Perm.flatMap_left _ fun i hi => h.lists i (List.mem_range.mp hi)

/-- The relation is symmetric. -/
theorem Alike.symm (h : H.Alike H') : H'.Alike H := by
  have hmem : ∀ d ∈ H'.descs, d ∈ H.descs := fun d hd => h.descs.mem_iff.mpr hd
  exact ⟨fun i hi => (h.lists i hi).symm, fun d hd => (h.page d (hmem d hd)).symm,
    fun d hd => (h.idx d (hmem d hd)).symm, fun d hd => (h.free d (hmem d hd)).symm⟩

/-- The relation is transitive. -/
theorem Alike.trans (h : H.Alike H') (h' : H'.Alike H'') : H.Alike H'' := by
  have hmem : ∀ d ∈ H.descs, d ∈ H'.descs := fun d hd => h.descs.mem_iff.mp hd
  exact ⟨fun i hi => (h.lists i hi).trans (h'.lists i hi),
    fun d hd => (h'.page d (hmem d hd)).trans (h.page d hd),
    fun d hd => (h'.idx d (hmem d hd)).trans (h.idx d hd),
    fun d hd => (h.free d hd).trans (h'.free d (hmem d hd))⟩

/-- Unchanged zones look alike. -/
theorem Unchanged.alike (h : H.Unchanged H') : H.Alike H' := by
  refine ⟨fun i _ => ?_, fun d hd => ?_, fun d hd => ?_, fun d hd => ?_⟩
  · rw [h.lists]
  · rw [h.zone d hd]
  · rw [h.zone d hd]
  · rw [h.zone d hd]

/-- Heaps that look alike have as many free chunks in every class. -/
theorem Alike.freeCount (h : H.Alike H') (hi : i < maxZoneIdx) : H'.freeCount i = H.freeCount i := by
  have hperm : (H.freeChunks i).Perm (H'.freeChunks i) := by
    apply (List.Perm.flatMap_left _ fun d hd => h.free d (mem_descs.mpr ⟨i, hi, hd⟩)).trans
    exact (h.lists i hi).flatMap_right _
  exact hperm.length_eq.symm

/-- Heaps that look alike have their zones in the same pages. -/
theorem Alike.map_pageGroup (h : H.Alike H') :
    (H.descs.map H.pageGroup).Perm (H'.descs.map H'.pageGroup) := by
  have hmap : H.descs.map H.pageGroup = H.descs.map H'.pageGroup :=
    List.map_congr_left fun d hd => by rw [pageGroup, pageGroup, h.page d hd]
  rw [hmap]
  exact h.descs.map _

variable [Platform] {L : Layout} {r : Group}

/-! ### Zones carry blocks -/

/-- Descriptors are stored in zones of their class. -/
theorem Wf.owner_mem_list (h : H.Wf L r live held) (hL : L.Sound) (hd : d ∈ H.descs)
    (hy : y ∈ H.descs) (hown : H.Owns L y d) : y ∈ H.lists descIdx := by
  obtain ⟨z, hz, hzd⟩ := h.owned d hd (h.chunk_ne_initial hL hy hown)
  rwa [h.eq_of_owns hL hy (Wf.mem_descs_of_list hz) hown hzd]

/-- The chunks of a zone that are taken are those that are not free. -/
theorem Wf.mem_taken_iff (h : H.Wf L r live held) (hL : L.Sound) (hd : d ∈ H.descs)
    (hown : H.Owns L d c) : c ∈ H.taken L ↔ c ∉ (H.zone d).free := by
  rw [mem_taken]
  constructor
  · rintro ⟨y, hy, hcy⟩
    obtain ⟨hcy, hfree⟩ := ZoneData.mem_taken.mp hcy
    rwa [h.eq_of_owns hL hd hy hown hcy]
  · exact fun hfree => ⟨d, hd, ZoneData.mem_taken.mpr ⟨hown, hfree⟩⟩

/-- What is carried are the chunks that are not free. -/
theorem Wf.carried_iff (h : H.Wf L r live held) (hL : L.Sound) (hd : d ∈ H.descs)
    (hown : H.Owns L d c) :
    c ∈ Carried initialZone {x | x ∈ live} {x | x ∈ H.descs} ↔ c ∉ (H.zone d).free := by
  rw [← h.mem_taken_iff hL hd hown, h.taken.mem_iff, List.mem_append, h.nodup.mem_erase_iff,
    and_comm]
  exact Iff.rfl

/-- The zones of a heap carry the blocks. -/
theorem Wf.supported (h : H.Wf L r live held) (hL : L.Sound) (ht : H.Tight L) :
    Supported (H.Owns L) initialZone {c | c ∈ live} {d | d ∈ H.descs} := by
  have hsub : ∀ {x}, x ∈ H.lists descIdx → x ∈ H.descs := Wf.mem_descs_of_list
  refine ⟨h.initial_mem, ?_, fun y hy hne => ?_, ?_⟩
  · rintro x (⟨hx, hne⟩ | hx)
    · obtain ⟨y, hy, hyx⟩ := h.owned x hx hne
      exact ⟨y, hsub hy, hyx⟩
    · obtain ⟨y, hy, hyx⟩ := h.exists_zone hx
      exact ⟨y, hy, (ZoneData.mem_taken.mp hyx).1⟩
  · obtain ⟨c, hc⟩ := List.exists_mem_of_ne_nil _ (ht y hy hne)
    obtain ⟨hown, hfree⟩ := ZoneData.mem_taken.mp hc
    exact ⟨c, (h.carried_iff hL hy hown).mpr hfree, hown⟩
  · apply h.grounded.wellFounded_owned (h.nodup_list descIdx_lt)
    · exact fun y hy z hz _ _ hyx hzx => h.eq_of_owns hL (hsub hy) (hsub hz) hyx hzx
    · exact fun y hy hroot => h.chunk_ne_initial hL (hsub hy) hroot rfl
    · exact fun x hx y hy hown => h.owner_mem_list hL hx hy hown

/-! ### Heaps within a heap -/

section Within

variable (hK : K.Wf L r liveK heldK) (hL : L.Sound) (h : H.Wf L r live held) (ht : H.Tight L)
  (hw : H.Within K) (h' : H'.Wf L r live' held') (ht' : H'.Tight L) (hw' : H'.Within K)

include hK hL h ht hw h' ht' hw'

/-- More zones are needed to carry more blocks. -/
theorem Within.within (hlive : live ⊆ live') : H.Within H' := by
  refine hw.of_subset hw' ?_
  have hs := (h.supported hL ht).congr fun d hd c => hw.owns (c := c) hd
  have hs' := (h'.supported hL ht').congr fun d hd c => hw'.owns (c := c) hd
  exact hs.subset hs' hlive fun y hy z hz x hyx hzx =>
    hK.eq_of_owns hL (hw.mem y hy) (hw'.mem z hz) hyx hzx

/-- The blocks determine the zones and their free chunks. -/
theorem Within.alike (hlive : ∀ c, c ∈ live ↔ c ∈ live') : H.Alike H' := by
  have hHH := Within.within hK hL h ht hw h' ht' hw' fun c => (hlive c).mp
  have hHH' := Within.within hK hL h' ht' hw' h ht hw fun c => (hlive c).mpr
  have hdescs : {d | d ∈ H.descs} = {d | d ∈ H'.descs} :=
    Set.Subset.antisymm hHH.mem hHH'.mem
  have hset : {c | c ∈ live} = {c | c ∈ live'} := Set.ext hlive
  refine ⟨fun i hi => ?_, hHH.page, hHH.idx, fun d hd => ?_⟩
  · apply (List.perm_ext_iff_of_nodup (h.nodup_list hi) (h'.nodup_list hi)).mpr
    intro d
    constructor
    · intro hd
      have hdH := mem_descs.mpr ⟨i, hi, hd⟩
      have hmem := h'.mem_list (hHH.mem d hdH)
      rwa [hHH.idx d hdH, h.idx i hi d hd] at hmem
    · intro hd
      have hdH := mem_descs.mpr ⟨i, hi, hd⟩
      have hmem := h.mem_list (hHH'.mem d hdH)
      rwa [hHH'.idx d hdH, h'.idx i hi d hd] at hmem
  · have hd' := hHH.mem d hd
    apply (List.perm_ext_iff_of_nodup (h.free_nodup d hd) (h'.free_nodup d hd')).mpr
    intro c
    -- a chunk is free in a heap when it is not carried there
    have hiff : ∀ hown : H.Owns L d c, c ∈ (H.zone d).free ↔ c ∈ (H'.zone d).free := by
      intro hown
      have h₁ := h.carried_iff hL hd hown
      have h₂ := h'.carried_iff hL hd' ((hHH.owns hd).mpr hown)
      rw [← hset, ← hdescs, h₁] at h₂
      exact not_iff_not.mp h₂
    constructor
    · exact fun hc => (hiff (h.free_sub d hd c hc)).mp hc
    · exact fun hc => (hiff ((hHH.owns hd).mp (h'.free_sub d hd' c hc))).mpr hc

end Within

/-! ### Giving back chunks -/

/-- Giving back chunks adds no zone. -/
theorem deallocateWithin_within (n : ℕ) : (H.deallocateWithin L n c).2.Within H := by
  induction n generalizing H c with
  | zero => exact .refl
  | succ n ih =>
    simp only [Heap.deallocateWithin]
    split
    next => exact .refl
    next d _ =>
      split_ifs with hall
      · apply ih.trans
        exact (withPages_within.trans removeZone_within).trans setFree_within
      · exact setFree_within

end Heap

end Liballocator
