import Liballocator.Zones.Steps

/-!
# Zones of another heap

`H.Within K` says that the zones of `H` are zones of `K`, in the same pages and with the same
chunks; the free chunks may be others.  Taking and giving chunks, and adding a zone, keep the zones
that are there; removing a zone adds none.
-/

namespace Liballocator

namespace Heap

/-- The zones of `H` are zones of `K`. -/
structure Within (H K : Heap) : Prop where
  mem : ∀ d ∈ H.descs, d ∈ K.descs
  page : ∀ d ∈ H.descs, (K.zone d).page = (H.zone d).page
  idx : ∀ d ∈ H.descs, (K.zone d).idx = (H.zone d).idx

variable {H H' K : Heap} {d c : ℕ} {l : List ℕ}

/-- A heap lies within itself. -/
theorem Within.refl : H.Within H := ⟨fun _ hd => hd, fun _ _ => rfl, fun _ _ => rfl⟩

/-- The relation is transitive. -/
theorem Within.trans (h : H.Within H') (h' : H'.Within K) : H.Within K := by
  refine ⟨fun d hd => h'.mem d (h.mem d hd), fun d hd => ?_, fun d hd => ?_⟩
  · exact (h'.page d (h.mem d hd)).trans (h.page d hd)
  · exact (h'.idx d (h.mem d hd)).trans (h.idx d hd)

/-- Two heaps within a third one agree on their common zones. -/
theorem Within.of_subset (h : H.Within K) (h' : H'.Within K) (hsub : ∀ d ∈ H.descs, d ∈ H'.descs) :
    H.Within H' := by
  refine ⟨hsub, fun d hd => ?_, fun d hd => ?_⟩
  · exact (h'.page d (hsub d hd)).symm.trans (h.page d hd)
  · exact (h'.idx d (hsub d hd)).symm.trans (h.idx d hd)

/-- New free chunks for a zone leave the zones as they are. -/
theorem within_setFree : H.Within (H.setFree d l) :=
  ⟨fun _ hd => hd, fun y _ => page_setFree y, fun y _ => idx_setFree y⟩

/-- The zones with new free chunks were there before. -/
theorem setFree_within : (H.setFree d l).Within H :=
  ⟨fun _ hd => hd, fun y _ => (page_setFree y).symm, fun y _ => (idx_setFree y).symm⟩

/-- The zones are still there when a chunk is taken. -/
theorem within_takeChunk : H.Within (H.takeChunk d) := within_setFree

/-- The zones do not depend on the groups of pages. -/
theorem within_withPages {a : Pages} : H.Within (H.withPages a) :=
  ⟨fun _ hd => hd, fun _ _ => rfl, fun _ _ => rfl⟩

/-- The groups of pages bring no zone with them. -/
theorem withPages_within {a : Pages} : (H.withPages a).Within H :=
  ⟨fun _ hd => hd, fun _ _ => rfl, fun _ _ => rfl⟩

/-- The zones that remain after a removal were there before. -/
theorem removeZone_within : (H.removeZone d).Within H := by
  refine ⟨fun y hy => ?_, fun _ _ => rfl, fun _ _ => rfl⟩
  obtain ⟨i, hi, hyi⟩ := mem_descs.mp hy
  exact mem_descs.mpr ⟨i, hi, mem_of_mem_removeZone hyi⟩

variable [Platform] {L : Layout}

/-- The chunks of the zones are the same. -/
theorem Within.owns (h : H.Within K) (hd : d ∈ H.descs) : K.Owns L d c ↔ H.Owns L d c := by
  rw [Owns, Owns, ZoneData.chunks_congr (h.page d hd) (h.idx d hd)]

/-- The zones are still there when another one is added. -/
theorem within_addZone {i p : ℕ} (hd : d ∉ H.descs) (hi : i < maxZoneIdx) :
    H.Within (H.addZone L d i p) := by
  have hzone : ∀ y ∈ H.descs, (H.addZone L d i p).zone y = H.zone y :=
    fun y hy => zone_addZone_of_ne fun e => hd (e ▸ hy)
  refine ⟨fun y hy => ?_, fun y hy => ?_, fun y hy => ?_⟩
  · exact (descs_addZone hi).mem_iff.mpr (List.mem_cons_of_mem _ hy)
  · rw [hzone y hy]
  · rw [hzone y hy]

end Heap

end Liballocator
