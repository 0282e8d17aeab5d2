import Liballocator.Zones.Safety

/-!
# Memory outside of the regions

The allocator keeps its data in the whole pages of its regions and in the initial zone.  Neither
`init` nor any call after it writes anywhere else (`Run.mem_outside`).
-/

namespace Liballocator

open Program Tiling

section Frame

variable [Platform]

variable {L : Layout} {r : Group} {a₀ : Pages} {H : Heap} {blocks : List Block}
  {leaked : List Group} {b : Block} {s s₀ s₁ : State} {x i : ℕ}

/-! ### `init` -/

/-- `clear` writes to the initial zone only. -/
theorem clear_framed :
    wp clear (fun _ s' => ∀ x, (∀ k < 7, x ≠ initialZone + k * wordBytes) → s'.mem x = s.mem x)
      s := by
  have hne : initialZone ≠ 0 := (Nat.two_pow_pos _).ne'
  simp only [clear, PageAllocator.clear, ZoneAllocator.clear, wp_bind, wp_modify, wp_liftMem',
    wp_liftPages]
  exact (Zone.clear_spec hne).mono fun _ _ h => h.2

section Arguments

variable {regions : List Region} {ps : ℕ}

/-- What lies in no whole page of a region and not in the initial zone is not in the memory of the
allocator. -/
theorem Fitting.outside_of_notMem (h : Fitting regions ps)
    (hx : ∀ q ∈ regions, x ∉ q.alignedPart ps)
    (hz : ¬(initialZone ≤ x ∧ x < initialZone + sizeofZone)) : x ∈ (layout h).outside := by
  refine ⟨fun ⟨hge, hlt⟩ => ?_, fun i hi hmem => ?_, hz⟩
  · obtain ⟨q, hq, hpart⟩ := h.alignedPart_of_mem h.desc_mem
    have hstart : (layout h).pageAt 0 = (descRegionOf (accepted ps regions) ps).alignedStart :=
      Layout.head_eq.symm
    have htail : (layout h).pageAt (layout h).count =
      (descRegionOf (accepted ps regions) ps).alignedStart + (layout h).count * sizeofPage := rfl
    have hend := h.table_le
    rw [← h.layout_count, ← htail] at hend
    exact hx q hq (hpart x (hstart ▸ hge) (hlt.trans_le hend))
  · obtain ⟨q, hq, hpart⟩ := h.page_in_region hi
    exact hx q hq (hpart x hmem.1 hmem.2)

/-- `init` writes nothing outside of the memory of the allocator. -/
theorem init_framed (h : Usable regions ps) (hfew : pageSum (accepted ps regions) < 2 ^ 21)
    (hps : ps ≤ 4096) :
    wp (init regions ps) (fun _ s' => ∀ x ∈ (layout h.toFitting).outside, s'.mem x = s.mem x)
      s := by
  simp only [init, wp_bind, wp_liftPages]
  refine clear_framed.mono fun _ s₁ h₁ => (PageAllocator.init_spec h.toFitting
    (pageCount_lt hfew)).mono ?_
  rintro _ p ⟨rfl, hp, hfr⟩
  simp only [Bool.not_true, Bool.false_eq_true, if_false]
  refine (ZoneAllocator.init_framed (s := { s₁ with pages := p }) (h.site hfew hps) hp).mono ?_
  intro _ s₂ h₂ x hx
  calc s₂.mem x = p.mem x := h₂.2 x hx
    _ = s₁.mem x := hfr x hx.table
    _ = s.mem x := h₁ x fun _ hk => hx.field_ne hk

end Arguments

/-! ### Every run -/

/-- The users do not write outside of the memory of the allocator. -/
theorem Serves.notMem_bytes (hv : Serves L r a₀ H blocks leaked) (S : Site L r a₀) (hb : b ∈ blocks)
    (hx : x ∈ L.outside) : x ∉ b.bytes L.pageSize := by
  intro hmem
  obtain ⟨i, hi, -, hpage⟩ := hv.page_of_byte S hb hmem
  exact hx.pages i hi hpage

/-- Calls write nothing outside of the memory of the allocator. -/
theorem Run.framed (S : Site L r a₀) (h₀ : Running L r a₀ s₁ []) (hrun : Run s₁ s blocks)
    (hx : x ∈ L.outside) : s.mem x = s₁.mem x := by
  induction hrun with
  | start => rfl
  | allocate hrun hcall ih =>
    obtain ⟨H, leaked, hr, hv, -⟩ := hrun.simulation S h₀
    obtain ⟨-, -, hfr⟩ := (hr.allocate hv S.toArena _).of_run_eq hcall
    exact (hfr x (Or.inr hx)).trans ih
  | release hrun hb hcall ih =>
    obtain ⟨H, leaked, hr, hv, -⟩ := hrun.simulation S h₀
    obtain ⟨-, hfr⟩ := (hr.release hv S.toArena S.placed hb).of_run_eq hcall
    exact (hfr x (Or.inr hx)).trans ih
  | write hrun hm ih =>
    obtain ⟨H, leaked, hr, hv, -⟩ := hrun.simulation S h₀
    refine (hm x fun b hb => ?_).trans ih
    rw [hr.pageSize]
    exact hv.notMem_bytes S hb hx

variable {regions : List Region} {ps : ℕ}

/-- The memory in no whole page of a region, the initial zone apart, is what it was before `init`,
whatever is allocated, released and written to live blocks. -/
theorem Run.mem_outside (hg : GoodArguments regions ps) (hps : ps ≤ 4096)
    (hinit : init regions ps s₀ = .ok (true, s₁)) (hrun : Run s₁ s blocks)
    (hx : ∀ q ∈ regions, x ∉ q.alignedPart ps)
    (hz : ¬(initialZone ≤ x ∧ x < initialZone + sizeofZone)) : s.mem x = s₀.mem x := by
  have h := hg.usable_of_init hinit
  have S := h.site hg.few hps
  have hout := h.toFitting.outside_of_notMem hx hz
  exact (hrun.framed S (hg.running hps hinit .start) hout).trans
    ((init_framed h hg.few hps).of_run_eq hinit x hout)

end Frame

section Separate

attribute [local instance] lp64

/-- A word in front of the regions. -/
theorem Run.mem_outside_separate : ∃ s₁ s b,
    init separateRegions 256 blankState = .ok (true, s₁) ∧ Run s₁ s [b] ∧
      s.mem 8 = blankState.mem 8 := by
  obtain ⟨s₁, s, b, hinit, hrun⟩ := exists_run_separate
  refine ⟨s₁, s, b, hinit, hrun, Run.mem_outside separateRegions_good (by decide) hinit hrun
    (fun q hq => ?_) (by decide)⟩
  simp only [separateRegions, List.mem_cons, List.not_mem_nil, or_false] at hq
  rcases hq with rfl | rfl <;> simp [Region.alignedPart]

end Separate

end Liballocator
