import Mathlib.Order.Interval.Finset.Nat
import Liballocator.Zones.Acceptance

/-!
# `init` on the boundaries of a region

`initRange` succeeds exactly when there are two whole pages between the boundaries.  The size of the
region is computed modulo the size of the address space: when the boundaries are in the wrong order,
the region wraps around, and if it is not smaller than a page an assertion fails.
-/

namespace Liballocator

open Program Tiling

section Range

variable [Platform] {regions : List Region} {ps start stop : ℕ} {r : Region} {s s₀ : State}
  {p : PageState}

/-! ### Regions that are not accepted -/

/-- The array has no region that is taken. -/
theorem PageAllocator.init_nothing (hps : isValidPageSize ps = true)
    (h : r.size = 0 ∨ initRegionInfo r ps = .ok (false, clearRegionInfo)) :
    wp (init [r] ps) (fun ok _ => ok = false) p := by
  have hadd : ∀ p : PageState, wp (addRegions ps 0 [r]) (fun ok p' => ok = true ∧ p' = p) p := by
    intro p
    rw [addRegions]
    by_cases h0 : r.size = 0
    · rw [if_pos h0, wp_pure]
      exact ⟨rfl, rfl⟩
    · rw [if_neg h0, if_neg (by decide), wp_bind]
      apply wp_liftOk (h.resolve_left h0)
      simp [addRegions]
  simp only [init, clear, wp_bind, wp_modify, hps, Bool.not_true, Bool.false_eq_true, if_false]
  apply (hadd _).mono
  rintro _ _ ⟨rfl, rfl⟩
  simp [countPages, cleared]

/-- `init` fails when `init` of the page allocator does. -/
theorem init_false_of_pages
    (h : ∀ p, wp (PageAllocator.init regions ps) (fun ok _ => ok = false) p) :
    wp (init regions ps) (fun ok _ => ok = false) s := by
  simp only [init, wp_bind, wp_liftPages]
  refine clear_spec.mono fun _ _ _ => (h _).mono ?_
  rintro _ _ rfl
  simp

/-- A region that fails an assertion. -/
theorem not_init_of_error (hps : isValidPageSize ps = true) (hr : r.size ≠ 0)
    (he : initRegionInfo r ps = .error .assertion) {ok : Bool} {s₁ : State} :
    init [r] ps s ≠ .ok (ok, s₁) := by
  intro hinit
  have h : wp (init [r] ps) (fun _ _ => True) s := wp_of_run_eq hinit trivial
  simp only [init, PageAllocator.init, PageAllocator.clear, wp_bind, wp_liftPages, wp_modify, hps,
    Bool.not_true, Bool.false_eq_true, if_false, PageAllocator.addRegions, if_neg hr, he] at h
  obtain ⟨_, _, -, hadd⟩ := h
  rw [if_neg (by decide), wp_bind] at hadd
  obtain ⟨_, _, hrun, -⟩ := hadd
  exact absurd hrun (by rintro ⟨⟩)

/-! ### Usable arguments -/

/-- `init` on usable arguments succeeds exactly when there are two pages. -/
theorem Usable.init_two (h : Usable regions ps) (hfew : pageSum (accepted ps regions) < 2 ^ 21) :
    wp (init regions ps) (fun ok _ => ok = true ↔ 2 ≤ pageSum (accepted ps regions)) s := by
  have hc : (layout h.toFitting).count < 2 ^ 21 := h.layout_count ▸ hfew
  simp only [init, wp_bind, wp_liftPages]
  refine clear_spec.mono fun _ _ _ => (PageAllocator.init_spec h.toFitting
    (pageCount_lt hfew)).mono ?_
  rintro _ p ⟨rfl, hp, -⟩
  simp only [Bool.not_true, Bool.false_eq_true, if_false]
  have hex := h.exists_allocate_iff hp.inv hp.count hc
  rw [h.layout_count] at hex
  rcases hal : (Pages.initial (accepted ps regions) ps).allocate 1 with ⟨_ | g, a⟩ <;>
    rw [hal] at hex
  · apply (ZoneAllocator.init_none (L := layout h.toFitting) hp hal).mono
    rintro _ s' ⟨rfl, -⟩
    rw [← hex]
    simp
  · obtain ⟨hlt, hout⟩ := h.initial_outside hp.inv hp.count hc hal
    apply (ZoneAllocator.init_pool h.sound hp hal hlt hout).mono
    rintro _ s' ⟨rfl, -⟩
    exact iff_of_true rfl (hex.mp ⟨g, rfl⟩)

omit [Platform] in
/-- The number of whole pages between two boundaries. -/
theorem card_wholePages_range (hps : 0 < ps) (hle : start ≤ stop) :
    (Region.wholePages ⟨start, stop - start⟩ ps).card = stop / ps - (start + ps - 1) / ps := by
  have he : Region.wholePages ⟨start, stop - start⟩ ps =
      (Finset.Ico ((start + ps - 1) / ps) (stop / ps)).image (· * ps) := by
    ext m
    rw [Region.mem_wholePages hps, Finset.mem_image, Nat.add_sub_cancel' hle]
    constructor
    · rintro ⟨⟨k, rfl⟩, h₁, h₂⟩
      rw [Nat.mul_comm] at h₁ h₂
      rw [← Nat.succ_mul] at h₂
      exact ⟨k, Finset.mem_Ico.mpr ⟨(roundUp_le_iff hps).mpr h₁,
        (Nat.le_div_iff_mul_le hps).mpr h₂⟩, Nat.mul_comm _ _⟩
    · rintro ⟨k, hk, rfl⟩
      obtain ⟨h₁, h₂⟩ := Finset.mem_Ico.mp hk
      have h₃ := (Nat.le_div_iff_mul_le hps).mp h₂
      rw [Nat.succ_mul] at h₃
      exact ⟨Dvd.intro_left k rfl, (roundUp_le_iff hps).mp h₁, h₃⟩
  rw [he, Finset.card_image_of_injective _ fun i j hij => Nat.eq_of_mul_eq_mul_right hps hij,
    Nat.card_Ico]

/-- `initRange` on boundaries in the right order. -/
theorem initRange_ordered (hps : ValidPageSize ps) (h0 : 0 < start) (hlt : start < stop)
    (hstop : stop < 2 ^ width) (hfew : stop / ps - (start + ps - 1) / ps < 2 ^ 21) :
    wp (initRange start stop ps) (fun ok _ => ok = true ↔ 2 ≤ stop / ps - (start + ps - 1) / ps)
      s := by
  have hsub : Word.sub stop start = stop - start := Word.sub_eq hlt.le hstop
  have hv : ValidRegions [⟨start, stop - start⟩] := by
    refine ⟨?_, ?_, List.pairwise_singleton _ _⟩ <;>
    · simp only [List.mem_singleton, forall_eq]
      omega
  have hsum := hv.sum_card hps
  rw [List.map_singleton, List.sum_singleton, card_wholePages_range hps.pos hlt.le] at hsum
  rw [initRange, hsub, hsum]
  rw [hsum] at hfew
  by_cases hne : accepted ps [⟨start, stop - start⟩] = []
  · refine (init_refuses hps.lt hv fun h => h.2.2 hne).mono ?_
    rintro _ _ rfl
    rw [hne, pageSum_nil]
    simp
  · have hdesc := descRegionOf_mem ps hne
    obtain ⟨q, -, hd⟩ := hv.describes hps hdesc
    obtain ⟨info, hinfo⟩ : ∃ info, accepted ps [⟨start, stop - start⟩] = [info] := by
      have hlen : (accepted ps [⟨start, stop - start⟩]).length ≤ 1 := List.length_filterMap_le _ _
      exact List.length_eq_one_iff.mp (le_antisymm hlen (List.length_pos_of_ne_nil hne))
    have hcount : pageSum (accepted ps [⟨start, stop - start⟩]) =
        (descRegionOf (accepted ps [⟨start, stop - start⟩]) ps).pageCount := by
      rw [hinfo, List.mem_singleton] at hdesc
      rw [hinfo, hdesc, pageSum_cons, pageSum_nil, Nat.add_zero]
    -- a page is longer than its descriptor
    have htable : pageSum (accepted ps [⟨start, stop - start⟩]) * sizeofPage ≤
        (descRegionOf (accepted ps [⟨start, stop - start⟩]) ps).alignedSize := by
      rw [hcount, hd.alignedSize_eq]
      exact Nat.mul_le_mul_left _ hps.sizeofPage_lt.le
    exact (Usable.of_nonZero hps hv (by simpa [NonZero] using h0)
      (show 1 ≤ 8 by decide) hne
      htable).init_two hfew

/-! ### Boundaries that are not in order -/

/-- Arguments with which `initRange` fails without an assertion. -/
theorem initRange_fails (hlt : ps < 2 ^ width) (hstart : start < 2 ^ width)
    (hsmall : ValidPageSize ps → start = stop ∨ Word.sub stop start < ps) :
    wp (initRange start stop ps) (fun ok _ => ok = false) s := by
  by_cases hps : ValidPageSize ps
  · refine init_false_of_pages fun _ =>
      PageAllocator.init_nothing ((isValidPageSize_iff hlt).mpr hps) ?_
    rcases hsmall hps with rfl | hsub
    · -- an empty region ends the array
      left
      exact (Word.sub_eq le_rfl hstart).trans (Nat.sub_self start)
    · right
      rw [initRegionInfo]
      exact if_pos hsub
  · have hinvalid : isValidPageSize ps = false := by
      rw [← isValidPageSize_iff hlt] at hps
      simpa using hps
    exact init_false_of_pages fun _ => (PageAllocator.init_invalid hinvalid).mono fun _ _ h => h.1

/-- The size of a region whose boundaries are in the wrong order. -/
theorem Word.sub_wrapped (hstart : start < 2 ^ width) (hgt : stop < start) :
    Word.sub stop start + start = 2 ^ width + stop := by
  rw [Word.sub, Nat.mod_eq_of_lt hstart, Nat.mod_eq_of_lt (by omega)]
  omega

/-- With a region that wraps around `initRange` does not return. -/
theorem initRange_wrapped (hps : ValidPageSize ps) (hstart : start < 2 ^ width) (hgt : stop < start)
    (hle : start + ps ≤ 2 ^ width + stop) {ok : Bool} {s₁ : State} :
    initRange start stop ps s ≠ .ok (ok, s₁) := by
  have hsub := Word.sub_wrapped hstart hgt
  have hpos := hps.pos
  have hnot : ¬Word.sub stop start < ps := by omega
  have hne : Word.sub stop start ≠ 0 := by omega
  refine not_init_of_error ((isValidPageSize_iff hps.lt).mpr hps) hne ?_
  have hwrap := alignedEnd_wrapped (r := ⟨start, Word.sub stop start⟩) hps hstart
    (Word.sub_lt _ _) (by simp only; omega)
  rw [initRegionInfo, if_neg hnot]
  cases alignedStart ⟨start, Word.sub stop start⟩ ps with
  | none => rfl
  | some _ => simp only [hwrap]

/-! ### All boundaries -/

/-- The outcome of `initRange` for any boundaries: it succeeds exactly when two whole pages lie
between them, and it does not return exactly when they are in the wrong order and the region that
wraps around is not smaller than a page. -/
theorem initRange_iff (h0 : 0 < start) (hstart : start < 2 ^ width) (hstop : stop < 2 ^ width)
    (hlt : ps < 2 ^ width) (hfew : stop / ps - (start + ps - 1) / ps < 2 ^ 21) (s₀ : State) :
    ((∃ s₁, initRange start stop ps s₀ = .ok (true, s₁)) ↔
      ValidPageSize ps ∧ 2 ≤ stop / ps - (start + ps - 1) / ps) ∧
    ((∃ ok s₁, initRange start stop ps s₀ = .ok (ok, s₁)) ↔
      ¬(ValidPageSize ps ∧ stop < start ∧ start + ps ≤ 2 ^ width + stop)) := by
  by_cases hgood : ValidPageSize ps ∧ start < stop
  · obtain ⟨hps, hlt'⟩ := hgood
    obtain ⟨ok, s₁, hrun, hiff⟩ := initRange_ordered (s := s₀) hps h0 hlt' hstop hfew
    refine ⟨⟨?_, fun h => ⟨s₁, hiff.mpr h.2 ▸ hrun⟩⟩, iff_of_true ⟨ok, s₁, hrun⟩ fun h => ?_⟩
    · rintro ⟨s₂, hrun₂⟩
      cases hrun.symm.trans hrun₂
      exact ⟨hps, hiff.mp rfl⟩
    · exact absurd h.2.1 (Nat.not_lt.mpr hlt'.le)
  · -- no page lies between the boundaries
    have hnone : ¬(ValidPageSize ps ∧ 2 ≤ stop / ps - (start + ps - 1) / ps) := by
      rintro ⟨hps, htwo⟩
      have hle : stop ≤ start + ps - 1 := by
        have hpos := hps.pos
        have := not_and.mp hgood hps
        omega
      rw [Nat.sub_eq_zero_of_le (Nat.div_le_div_right hle)] at htwo
      exact absurd htwo (by decide)
    by_cases hwrap : ValidPageSize ps ∧ stop < start ∧ start + ps ≤ 2 ^ width + stop
    · obtain ⟨hps, hgt, hle⟩ := hwrap
      refine ⟨iff_of_false ?_ hnone, iff_of_false ?_ fun h => h ⟨hps, hgt, hle⟩⟩
      · rintro ⟨s₁, hrun⟩
        exact initRange_wrapped hps hstart hgt hle hrun
      · rintro ⟨ok, s₁, hrun⟩
        exact initRange_wrapped hps hstart hgt hle hrun
    · have hsmall : ValidPageSize ps → start = stop ∨ Word.sub stop start < ps := by
        intro hps
        rcases Nat.lt_trichotomy start stop with h | h | hgt
        · exact absurd ⟨hps, h⟩ hgood
        · exact Or.inl h
        · have hsub := Word.sub_wrapped hstart hgt
          have hle : ¬start + ps ≤ 2 ^ width + stop := fun h => hwrap ⟨hps, hgt, h⟩
          exact Or.inr (by omega)
      obtain ⟨ok, s₁, hrun, rfl⟩ := initRange_fails (s := s₀) hlt hstart hsmall
      refine ⟨iff_of_false ?_ hnone, iff_of_true ⟨_, s₁, hrun⟩ hwrap⟩
      rintro ⟨s₂, hrun₂⟩
      rw [hrun] at hrun₂
      exact absurd hrun₂ (by simp)

end Range

section Lp64

attribute [local instance] lp64

/-- Sixteen pages of 256 bytes lie between the boundaries. -/
theorem initRange_iff_sixteen :
    ((∃ s₁, initRange 4096 8192 256 blankState = .ok (true, s₁)) ↔
      ValidPageSize 256 ∧ 2 ≤ 8192 / 256 - (4096 + 256 - 1) / 256) ∧
    ((∃ ok s₁, initRange 4096 8192 256 blankState = .ok (ok, s₁)) ↔
      ¬(ValidPageSize 256 ∧ 8192 < 4096 ∧ 4096 + 256 ≤ 2 ^ width + 8192)) :=
  initRange_iff (by decide) (by decide) (by decide) (by decide) (by decide) blankState

end Lp64

end Liballocator
