import Liballocator.Pages.DescRegion
import Liballocator.Pages.Properties

/-!
# Memory that cannot hold the table

Behind `chooseDescRegion` nothing checks whether the table fits, so `init` refuses memory in which
no region can hold the table only when there is no page at all (`PageAllocator.refuses_iff`).  With
pages of 128 bytes five small regions are enough for the other case: `init` succeeds, and writes
descriptors outside of the regions.
-/

namespace Liballocator

open Program

section Refused

variable [Platform]

variable {regions : List Region} {ps : ℕ} {s s' : PageState}

/-- Once `init` has found a page it does not refuse its arguments any more. -/
theorem PageAllocator.init_not_false (hps : ValidPageSize ps) (hv : ValidRegions regions)
    (hlen : regions.length ≤ maxRegionsCount) (hne : accepted ps regions ≠ []) :
    init regions ps s ≠ .ok (false, s') := by
  intro hinit
  have hcount := hv.countPages hps ▸ (hv.pageSum_pos hps hne).ne'
  rw [init_enter hps hv.add_lt hv.size_pos hlen hcount] at hinit
  have hall : wlp (do
      initRegions (accepted ps regions).length 0 (configured (accepted ps regions) ps).pagesHead
      return true : PageM Bool) (fun b _ => b = true)
      { s with self := configured (accepted ps regions) ps } :=
    wlp_bind.mpr (wlp_of_forall fun _ _ => wlp_pure.mpr rfl)
  exact absurd (hall _ _ hinit) (by simp)

/-- `init` refuses its arguments and writes only to the aligned parts of the regions. -/
def PageAllocator.Refuses (regions : List Region) (ps : ℕ) (s : PageState) : Prop :=
  ∃ s', init regions ps s = .ok (false, s') ∧ ∀ x, s'.mem x ≠ s.mem x →
    ∃ info ∈ accepted ps regions, info.alignedStart ≤ x ∧ x < info.alignedEnd

/-- `init` refuses regions none of which can hold the table exactly when there is no page at all, or
the case does not arise. -/
theorem PageAllocator.refuses_iff (hps : ValidPageSize ps) (hv : ValidRegions regions)
    (hlen : regions.length ≤ maxRegionsCount) (s : PageState) :
    ((∀ info ∈ accepted ps regions,
      info.alignedSize < pageSum (accepted ps regions) * sizeofPage) → Refuses regions ps s) ↔
    accepted ps regions = [] ∨ ∃ info ∈ accepted ps regions,
      pageSum (accepted ps regions) * sizeofPage ≤ info.alignedSize := by
  constructor
  · intro h
    by_contra hno
    obtain ⟨hne, hlarge⟩ := not_or.mp hno
    obtain ⟨s', hinit, -⟩ := h fun info hi => Nat.lt_of_not_le fun hle => hlarge ⟨info, hi, hle⟩
    exact init_not_false hps hv hlen hne hinit
  · rintro (hnil | ⟨info, hi, hle⟩) hnone
    · obtain ⟨_, s', hinit, rfl, rfl⟩ := init_no_page (s := s) hps hv.add_lt hv.size_pos hlen
        (by rw [hnil]; rfl)
      exact ⟨_, hinit, fun x hx => absurd rfl hx⟩
    · exact absurd (hnone info hi) (Nat.not_lt_of_le hle)

end Refused

section Lp64

attribute [local instance] lp64

/-- A region that is smaller than a page is refused. -/
theorem PageAllocator.refuses_small : Refuses [⟨4096, 64⟩] 128 blankPages :=
  (refuses_iff validPageSize_128 ⟨by decide, by decide, by decide⟩ (by decide) blankPages).mpr
    (Or.inl (by decide)) (by decide)

/-- Five regions of one page of 128 bytes each. -/
def scatteredRegions : List Region :=
  [⟨4096, 128⟩, ⟨8192, 128⟩, ⟨12288, 128⟩, ⟨16384, 128⟩, ⟨20480, 128⟩]

/-- The table of five records has 160 bytes, but `init` succeeds, and writes the address of the last
page to its record at 4224, behind the end of the first region. -/
theorem exists_written_outside : ValidPageSize 128 ∧ ValidRegions scatteredRegions ∧
    (∀ info ∈ accepted 128 scatteredRegions,
      info.alignedSize < pageSum (accepted 128 scatteredRegions) * sizeofPage) ∧
    (∀ info ∈ accepted 128 scatteredRegions, ¬(info.alignedStart ≤ 4240 ∧ 4240 < info.alignedEnd)) ∧
    ∃ s', PageAllocator.init scatteredRegions 128 blankPages = .ok (true, s') ∧
      blankPages.mem 4240 = 0 ∧ s'.mem 4240 = 20480 := by
  refine ⟨validPageSize_128, ⟨by decide, by decide, by decide⟩, by decide, by decide, ?_⟩
  have hrun : ((PageAllocator.init scatteredRegions 128 blankPages).toOption.map fun r =>
      (r.1, r.2.mem 4240)) = some (true, 20480) := by decide +kernel
  cases hinit : PageAllocator.init scatteredRegions 128 blankPages with
  | error e => simp [hinit, Except.toOption] at hrun
  | ok r =>
    obtain ⟨b, s'⟩ := r
    simp only [hinit, Except.toOption, Option.map_some, Option.some.injEq, Prod.mk.injEq] at hrun
    obtain ⟨rfl, hmem⟩ := hrun
    exact ⟨s', rfl, rfl, hmem⟩

end Lp64

end Liballocator
