import Liballocator.Zones.Alike
import Liballocator.Zones.WellFormed

/-!
# Cascading release

The descriptor of a zone is stored in a chunk of another zone, the one of the initial zone apart.
These chains of zones never return to where they began and end at the initial zone
(`State.ChainsEnd`).  So the rounds of `deallocateChunk` come to an end in every run, and every
round removes another zone (`Run.cascade_of_init`).
-/

namespace Liballocator

open Program LinkedList Ownership

section Termination

variable [Platform]

/-- The descriptor of the zone `a` is stored in a chunk of the zone `b`. -/
def State.StoredIn (s : State) (a b : ℕ) : Prop := s.IsZone a ∧ s.IsZone b ∧ s.ChunkOf b a

/-- The chains of zones end at the initial zone. -/
structure State.ChainsEnd (s : State) : Prop where
  /-- No zone stores its own descriptor, not even through others. -/
  acyclic : ∀ a, ¬Relation.TransGen s.StoredIn a a
  /-- No chain goes on forever. -/
  wellFounded : WellFounded fun b a => s.StoredIn a b
  /-- A chain goes on in one way unless it has reached the initial zone. -/
  owner : ∀ a, s.IsZone a → a ≠ initialZone → ∃! b, s.StoredIn a b
  last : ∀ b, ¬s.StoredIn initialZone b
  reaches : ∀ a, s.IsZone a → Relation.ReflTransGen s.StoredIn a initialZone

variable {L : Layout} {r : Group} {H : Heap} {live : List ℕ} {held : List Group} {s s₀ s₁ : State}
  {a b d y : ℕ}

theorem HeapRep.storedIn_iff (h : HeapRep L H s) (hw : H.Wf L r live held) :
    s.StoredIn a b ↔ a ∈ H.descs ∧ b ∈ H.descs ∧ H.Owns L b a := by
  rw [State.StoredIn, h.isZone_iff, h.isZone_iff]
  refine and_congr_right fun _ => and_congr_right fun hb => ?_
  exact h.chunkOf_iff hb (hw.fits b hb)

/-- The chains of zones of a represented heap. -/
theorem HeapRep.chainsEnd (h : HeapRep L H s) (hw : H.Wf L r live held) (hL : L.Sound) :
    s.ChainsEnd := by
  have hsub : ∀ {x}, x ∈ H.lists descIdx → x ∈ H.descs := Heap.Wf.mem_descs_of_list
  have hwf : WellFounded fun b a => s.StoredIn a b := by
    refine Subrelation.wf (fun {b a} hab => ?_) (hw.grounded.wellFounded (hw.nodup_list descIdx_lt)
      (fun y hy z hz _ _ hyx hzx => hw.eq_of_owns hL (hsub hy) (hsub hz) hyx hzx)
      fun y hy hroot => hw.chunk_ne_initial hL (hsub hy) hroot rfl)
    obtain ⟨ha, hb, hown⟩ := (h.storedIn_iff hw).mp hab
    exact ⟨hw.owner_mem_list hL ha hb hown, hown⟩
  refine ⟨fun a ha => ?_, hwf, fun a ha hne => ?_, fun b hb => ?_, fun a ha => ?_⟩
  · have hback := Relation.transGen_swap.mpr ha
    exact hwf.transGen.asymmetric _ _ hback hback
  · rw [h.isZone_iff] at ha
    obtain ⟨y, hy, hown⟩ := hw.owned a ha hne
    refine ⟨y, (h.storedIn_iff hw).mpr ⟨ha, hsub hy, hown⟩, fun b hb => ?_⟩
    obtain ⟨-, hbd, hown'⟩ := (h.storedIn_iff hw).mp hb
    exact hw.eq_of_owns hL hbd (hsub hy) hown' hown
  · obtain ⟨-, hbd, hown⟩ := (h.storedIn_iff hw).mp hb
    exact hw.chunk_ne_initial hL hbd hown rfl
  · rw [h.isZone_iff] at ha
    by_cases hne : a = initialZone
    · rw [hne]
    obtain ⟨y, hy, hown⟩ := hw.owned a ha hne
    refine .head ((h.storedIn_iff hw).mpr ⟨ha, hsub hy, hown⟩) ?_
    refine Relation.ReflTransGen.mono (fun x z hxz => ?_) _ _ (hw.grounded.reaches hy)
    exact (h.storedIn_iff hw).mpr ⟨hsub hxz.1, hsub hxz.2.1, hxz.2.2⟩

/-- The chunk of a small block belongs to a zone. -/
theorem HeapRep.exists_zone {a₀ : Pages} {leaked : List Group} {blocks : List Block} {b : Block}
    (h : HeapRep L H s) (hv : Serves L r a₀ H blocks leaked) (hb : b ∈ blocks)
    (hs : Small L.pageSize b.size) : ∃ z, s.IsZone z ∧ s.ChunkOf z b.ptr := by
  have htaken : b.ptr ∈ H.taken L :=
    hv.wf.taken.mem_iff.mpr (List.mem_append_right _ (mem_blockChunks.mpr ⟨b, hb, hs, rfl⟩))
  obtain ⟨z, hz, hzb⟩ := Heap.mem_taken.mp htaken
  refine ⟨z, h.isZone_iff.mpr hz, ?_⟩
  exact (h.chunkOf_iff hz (hv.wf.fits z hz)).mpr (ZoneData.mem_taken.mp hzb).1

/-! ### Every run -/

variable {regions : List Region} {ps : ℕ} {blocks : List Block}

/-- In every run the chains of zones end at the initial zone.  Giving back the chunk of a live block
comes to an end: it finds a zone for every descriptor that it gives back, it removes no zone twice
and never the initial one, and it returns `true`. -/
theorem Run.cascade_of_init (hg : GoodArguments regions ps) (hps : ps ≤ 4096)
    (hinit : init regions ps s₀ = .ok (true, s₁)) (hrun : Run s₁ s blocks) :
    s.ChainsEnd ∧ ∀ b ∈ blocks, (∃ z, s.IsZone z ∧ s.ChunkOf z b.ptr) → ∃ zones s',
      ZoneAllocator.Cascade s b.ptr zones s' ∧ zones.Nodup ∧ initialZone ∉ zones ∧
      (∀ z ∈ zones, s.IsZone z) ∧ (∀ z, s'.IsZone z ↔ s.IsZone z ∧ z ∉ zones) ∧
      ZoneAllocator.deallocateChunk b.ptr s = .ok (true, s') := by
  obtain ⟨H, leaked, h, hv, -⟩ := hg.running hps hinit hrun
  have S := (hg.usable_of_init hinit).site hg.few hps
  have hw := hv.wf
  refine ⟨h.chainsEnd hw S.sound, fun b hb hz => ?_⟩
  obtain ⟨z, hz, hchunk⟩ := hz
  rw [h.isZone_iff] at hz
  have hsmall : Small (layout (hg.fitting_of_init hinit)).pageSize b.size := by
    by_contra hs
    have hnone := hv.findZone_none S.toArena hb hs
    rw [hw.findZone_eq S.sound hz ((h.chunkOf_iff hz (hw.fits z hz)).mp hchunk)] at hnone
    exact absurd hnone (by simp)
  obtain ⟨zones, s', hcas, -, hperm, h', -⟩ := h.cascade hw S.toArena
    (mem_blockChunks.mpr ⟨b, hb, hsmall, rfl⟩) le_rfl
  have hnd := hperm.nodup_iff.mp hw.nodup
  obtain ⟨hzones, -, hapart⟩ := List.nodup_append.mp hnd
  have hlen := hperm.length_eq
  have hlt := hw.length_descs_lt
  rw [List.length_append] at hlen
  refine ⟨zones, s', hcas, hzones, hcas.initialZone_notMem, fun z hz => ?_, fun z => ?_,
    hcas.run (by omega)⟩
  · rw [h.isZone_iff, hperm.mem_iff]
    exact List.mem_append_left _ hz
  · rw [h.isZone_iff, h'.isZone_iff, hperm.mem_iff, List.mem_append]
    constructor
    · exact fun hz => ⟨Or.inr hz, fun hz' => hapart z hz' z hz rfl⟩
    · rintro ⟨hz | hz, hnot⟩
      · exact absurd hz hnot
      · exact hz

/-- In every run there is a reason for every zone but the initial one: it has a live block in one of
its chunks, or the descriptor of a zone that has one, or so on. -/
theorem Run.exists_block_of_zone (hg : GoodArguments regions ps) (hps : ps ≤ 4096)
    (hinit : init regions ps s₀ = .ok (true, s₁)) (hrun : Run s₁ s blocks) {z : ℕ}
    (hz : s.IsZone z) (hne : z ≠ initialZone) :
    ∃ z', Relation.ReflTransGen s.StoredIn z' z ∧ s.IsZone z' ∧
      ∃ b ∈ blocks, Small ps b.size ∧ s.ChunkOf z' b.ptr ∧ ¬s.FreeChunk z' b.ptr := by
  obtain ⟨H, leaked, h, hv, -⟩ := hg.running hps hinit hrun
  have S := (hg.usable_of_init hinit).site hg.few hps
  have hw := hv.wf
  obtain ⟨y, hy, c, hc, hown, hchain⟩ :=
    (hw.supported S.sound hv.tight).exists_live (h.isZone_iff.mp hz) hne
  obtain ⟨b, hb, hs, rfl⟩ := mem_blockChunks.mp hc
  refine ⟨y, ?_, h.isZone_iff.mpr hy, b, hb, hs, (h.chunkOf_iff hy (hw.fits y hy)).mpr hown, ?_⟩
  · exact Relation.ReflTransGen.mono (fun _ _ hab => (h.storedIn_iff hw).mpr hab) _ _ hchain
  · rw [h.freeChunk_iff hy]
    exact (hw.carried_iff S.sound hy hown).mp (Or.inr hc)

end Termination

section Separate

attribute [local instance] lp64

/-- The rounds of `deallocateChunk` for a block of eight bytes. -/
theorem Run.cascade_separate : ∃ s₁ s ptr,
    init separateRegions 256 blankState = .ok (true, s₁) ∧ Run s₁ s [⟨ptr, 8⟩] ∧ s.ChainsEnd ∧
      ∃ zones s', ZoneAllocator.Cascade s ptr zones s' ∧ zones.Nodup ∧ initialZone ∉ zones ∧
        (∀ z ∈ zones, s.IsZone z) ∧ (∀ z, s'.IsZone z ↔ s.IsZone z ∧ z ∉ zones) ∧
        ZoneAllocator.deallocateChunk ptr s = .ok (true, s') := by
  obtain ⟨s₁, s, ptr, hinit, hrun⟩ := exists_run_separate_eight
  obtain ⟨hend, hblocks⟩ :=
    Run.cascade_of_init separateRegions_good (by decide) hinit hrun
  obtain ⟨H, leaked, h, hv, -⟩ := separateRegions_good.running (by decide) hinit hrun
  have hzone := h.exists_zone hv List.mem_cons_self
    (show Small 256 8 by decide)
  exact ⟨s₁, s, ptr, hinit, hrun, hend, hblocks _ List.mem_cons_self hzone⟩

/-- The zone of a block of eight bytes is not the initial one, which has larger chunks. -/
theorem Run.exists_block_of_zone_separate : ∃ s₁ s ptr z z',
    init separateRegions 256 blankState = .ok (true, s₁) ∧ Run s₁ s [⟨ptr, 8⟩] ∧ s.IsZone z ∧
      z ≠ initialZone ∧ Relation.ReflTransGen s.StoredIn z' z ∧ s.IsZone z' ∧
      ∃ b ∈ ([⟨ptr, 8⟩] : List Block), Small 256 b.size ∧ s.ChunkOf z' b.ptr ∧
        ¬s.FreeChunk z' b.ptr := by
  obtain ⟨s₁, s, ptr, hinit, hrun⟩ := exists_run_separate_eight
  obtain ⟨H, leaked, h, hv, -⟩ := separateRegions_good.running (by decide) hinit hrun
  have hw := hv.wf
  obtain ⟨z, hz, -, hidx⟩ := hv.classes _ List.mem_cons_self (show Small 256 8 by decide)
  have hne : z ≠ initialZone := by
    rintro rfl
    rw [hw.idx descIdx descIdx_lt _ hw.grounded.root_mem] at hidx
    exact absurd hidx (show descIdx ≠ zoneIdx (chunkSize 8) by decide)
  have hz' := h.isZone_iff.mpr hz
  obtain ⟨z', hchain⟩ :=
    Run.exists_block_of_zone separateRegions_good (by decide) hinit hrun hz' hne
  exact ⟨s₁, s, ptr, z, z', hinit, hrun, hz', hne, hchain⟩

end Separate

end Liballocator
