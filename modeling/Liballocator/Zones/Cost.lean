import Liballocator.Zones.Monotone

/-!
# The price of a call

A large block takes the pages for its size and no other ones.  For a small block at most two pages
are taken, one for a new zone and one for a zone whose chunks hold descriptors; usually none is.  A
release takes no pages.
-/

namespace Liballocator

open Program Tiling

section Cost

variable [Platform]

variable {L : Layout} {r : Group} {a₀ : Pages} {H : Heap} {blocks : List Block}
  {leaked : List Group} {s s₀ s₁ : State} {size : ℕ}

/-- The pages that a small block takes. -/
theorem Serves.cost_small (hv : Serves L r a₀ H blocks leaked) (A : Arena L r)
    (hs : Small L.pageSize size) (h : (H.allocate L size).1 ≠ 0) :
    ∃ n, n ≤ 2 ∧ (H.allocate L size).2.pages.freeCount + n = H.pages.freeCount := by
  have h0 : size ≠ 0 := by
    rintro rfl
    exact h rfl
  obtain ⟨hclass, -⟩ := hs.classSize_eq A.pageSize_le
  have hlt : classSize (zoneIdx (chunkSize size)) < L.pageSize := hclass ▸ hs.2
  unfold Heap.allocate at h ⊢
  rw [if_neg h0, if_pos hs] at h ⊢
  rcases hv.wf.allocateChunk A.sound hv.tight hv.reserve (A.idx_lt hlt) hlt A.descSize_lt with
    ⟨c, H', he, hm⟩ | ⟨H', he, -⟩
  · rw [he]
    exact hm.cost
  · rw [he] at h
    exact absurd rfl h

/-- The pages that a large block takes. -/
theorem Serves.cost_large (hv : Serves L r a₀ H blocks leaked) (hps : 0 < L.pageSize)
    (hle : L.pageSize ≤ 4096) (hs : ¬Small L.pageSize size) (h : (H.allocate L size).1 ≠ 0) :
    (H.allocate L size).2.pages.freeCount + (size + L.pageSize - 1) / L.pageSize =
      H.pages.freeCount := by
  have h0 : size ≠ 0 := by
    rintro rfl
    exact h rfl
  unfold Heap.allocate at h ⊢
  rw [if_neg h0, if_neg hs] at h ⊢
  rcases hal : H.pages.allocate (ceilDiv size L.pageSize) with ⟨_ | g, a⟩
  · rw [hal] at h
    exact absurd rfl h
  · have hcount := hv.wf.inv.freeCount_allocate (g := g) (n := ceilDiv size L.pageSize)
      (by rw [hal])
    have hfree := hv.wf.inv.freeCount_le
    have hlt : ceilDiv size L.pageSize < 2 ^ 21 := by
      have := hv.wf.pages_count_lt
      omega
    rw [hal, ceilDiv_eq hps hle hlt] at hcount
    exact hcount

/-- In every run a block that is allocated takes the pages for its size when it is large, and at
most two pages when it is small; the release of a block takes none. -/
theorem Run.pages_of_calls {regions : List Region} {ps : ℕ} (hg : GoodArguments regions ps)
    (hps : ps ≤ 4096) (hinit : init regions ps s₀ = .ok (true, s₁)) (hrun : Run s₁ s blocks) :
    (∀ size ptr s', Liballocator.allocate size s = .ok (ptr, s') → ptr ≠ 0 →
      ∃ n, s'.pages.self.freePagesCount + n = s.pages.self.freePagesCount ∧
        if Small ps size then n ≤ 2 else n = (size + ps - 1) / ps) ∧
    ∀ b ∈ blocks, ∀ s', Liballocator.release b.ptr s = .ok (⟨⟩, s') →
      s.pages.self.freePagesCount ≤ s'.pages.self.freePagesCount := by
  have S := (hg.usable_of_init hinit).site hg.few hps
  obtain ⟨H, leaked, hr, hv, -⟩ := hg.running hps hinit hrun
  refine ⟨fun size ptr s' hcall hne => ?_, fun b hb s' hcall => ?_⟩
  · obtain ⟨rfl, hr', -⟩ := (hr.allocate hv S.toArena size).of_run_eq hcall
    rw [hr.pages.table.freeCount, hr'.pages.table.freeCount]
    by_cases hs : Small ps size
    · obtain ⟨n, hn, hcost⟩ := hv.cost_small S.toArena hs hne
      exact ⟨n, hcost, by rwa [if_pos hs]⟩
    · exact ⟨_, hv.cost_large S.sound.pageSize.pos hps hs hne, by rw [if_neg hs]; rfl⟩
  · obtain ⟨hr', -⟩ := (hr.release hv S.toArena S.placed hb).of_run_eq hcall
    rw [hr.pages.table.freeCount, hr'.pages.table.freeCount]
    rcases (hv.refunded S.toArena hb).counts with ⟨hp, -⟩ | ⟨hp, -⟩ | hp <;> omega

end Cost

section Separate

attribute [local instance] lp64

/-- The first block of eight bytes. -/
theorem Run.pages_of_calls_separate : ∃ s₁ ptr s',
    init separateRegions 256 blankState = .ok (true, s₁) ∧
      Liballocator.allocate 8 s₁ = .ok (ptr, s') ∧ ptr ≠ 0 ∧
      ∃ n, s'.pages.self.freePagesCount + n = s₁.pages.self.freePagesCount ∧
        if Small 256 8 then n ≤ 2 else n = (8 + 256 - 1) / 256 := by
  obtain ⟨s₁, s', ptr, hinit, hcall, hne⟩ := exists_calls_separate blankState
  exact ⟨s₁, ptr, s', hinit, hcall, hne,
    (Run.pages_of_calls separateRegions_good (by decide) hinit .start).1 8 ptr s' hcall hne⟩

end Separate

end Liballocator
