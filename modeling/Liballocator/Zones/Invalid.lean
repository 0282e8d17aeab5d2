import Liballocator.Zones.Safety
import Liballocator.Pages.Misuse
import Liballocator.Pages.Resolution

/-!
# Pointers that are no blocks

`ZoneAllocator::release` ignores an address outside of all regions.  An address in a page of the
table, or in the page of a zone but not at the beginning of a chunk, is refused by the zones, and
then its page is released, whoever it belongs to.
-/

namespace Liballocator

open Program Tiling

section Invalid

variable [Platform]

variable {L : Layout} {r : Group} {a₀ : Pages} {H : Heap} {blocks : List Block}
  {leaked : List Group} {s s₀ s₁ : State} {regions : List Region} {ps ptr i : ℕ}

/-- The address lies outside of all regions. -/
def Outside (regions : List Region) (ptr : ℕ) : Prop :=
  ∀ region ∈ regions, ptr < region.address ∨ region.address + region.size ≤ ptr

/-- The address in the descriptor of the page of a zone. -/
def State.zoneAddress (s : State) (z : ℕ) : ℕ := s.mem (s.zonePage z + 2 * wordBytes)

/-- The addresses that are certainly no blocks. -/
inductive State.Invalid (s : State) (regions : List Region) (ptr : ℕ) : Prop
  | outside (h : Outside regions ptr)
  /-- The reserved pages begin with the table. -/
  | reserved (hge : s.pages.self.pagesHead ≤ ptr) (hlt : ptr < s.pages.self.pagesHead +
      s.pages.self.descPagesCount * s.pages.self.pageSize)
  | zone {z : ℕ} (hz : s.IsZone z) (hge : s.zoneAddress z ≤ ptr)
      (hlt : ptr < s.zoneAddress z + s.self.pageSize) (hnot : ¬s.ChunkOf z ptr)

/-! ### The two stages of `release` -/

/-- No zone has a chunk at an address when the zone with the page of the address has none. -/
theorem Heap.Wf.findZone_none {live : List ℕ} {held : List Group} (h : H.Wf L r live held)
    (hL : L.Sound) (hnot : ∀ d ∈ H.descs, L.addr (H.zone d).page ≤ ptr →
      ptr < L.addr (H.zone d).page + L.pageSize → ¬H.Owns L d ptr) : H.findZone L ptr = none := by
  refine List.find?_eq_none.mpr fun d hd hc => ?_
  rw [decide_eq_true_iff] at hc
  have hat := (h.fits d hd).chunkAt hL hc
  have hle := hat.le
  have hpos := classSize_pos (H.zone d).idx
  exact hnot d hd hat.ge (by omega) hc

/-- An address that neither stage of `release` finds is ignored. -/
theorem HeapRep.release_ignored (h : HeapRep L H s) (hv : Serves L r a₀ H blocks leaked)
    (S : Site L r a₀) (hfind : H.findZone L ptr = none) (hpage : L.findPage ptr = none) :
    ZoneAllocator.release ptr s = .ok (⟨⟩, s) := by
  by_cases h0 : ptr = 0
  · subst h0
    rfl
  have hwp : wp (ZoneAllocator.release ptr) (fun _ s' => s' = s) s := by
    simp only [ZoneAllocator.release, h0, if_false, wp_bind]
    apply (h.deallocate_none hv.wf S.sound h0 hfind).mono
    rintro _ _ ⟨rfl, rfl⟩
    simp only [Bool.false_eq_true, if_false, wp_bind, ZoneAllocator.wp_callPageAllocator,
      h.pageAllocator, true_and]
    apply (h.pages.getPage S.sound S.placed).mono
    rintro _ _ ⟨rfl, rfl⟩
    simp only [hpage, ne_eq, not_true_eq_false, if_false, wp_pure]
  obtain ⟨_, _, hcall, rfl⟩ := hwp
  exact hcall

/-- The second stage of `release` releases the page of an address that is refused by the zones. -/
theorem HeapRep.release_page {Q : PageState → Prop} (h : HeapRep L H s)
    (hv : Serves L r a₀ H blocks leaked) (S : Site L r a₀) (h0 : ptr ≠ 0)
    (hfind : H.findZone L ptr = none) (hpage : L.findPage ptr = some i)
    (hQ : wlp (PageAllocator.release (L.pageAt i)) (fun _ => Q) s.pages) :
    wlp (ZoneAllocator.release ptr) (fun _ s' => Q s'.pages) s := by
  simp only [ZoneAllocator.release, h0, if_false, wlp_bind]
  refine (h.deallocate_none hv.wf S.sound h0 hfind).wlp.mono ?_
  rintro _ _ ⟨rfl, rfl⟩
  simp only [Bool.false_eq_true, if_false, ZoneAllocator.callPageAllocator, wlp_bind, wlp_get,
    h.pageAllocator, Bool.not_true, wlp_liftPages]
  refine (h.pages.getPage S.sound S.placed).wlp.mono ?_
  rintro _ _ ⟨rfl, rfl⟩
  simp only [hpage, ne_eq, Layout.pageAt_ne_zero, not_false_eq_true, if_true, wlp_bind, wlp_get,
    h.pageAllocator, Bool.not_true, Bool.false_eq_true, if_false, wlp_liftPages]
  exact hQ

/-! ### Where invalid pointers lie -/

/-- An address that is no block and lies in a region is in a page that is in use, and no chunk of a
zone begins there. -/
structure Misplaced (L : Layout) (H : Heap) (ptr i : ℕ) : Prop where
  page_lt : i < L.count
  ge : L.addr i ≤ ptr
  lt : ptr < L.addr i + L.pageSize
  covered : ∃ g ∈ H.pages.used, g.Covers i
  findZone : H.findZone L ptr = none

/-- The reserved pages lie one behind the other. -/
theorem Fitting.addr_reserved (h : Fitting regions ps) {k : ℕ}
    (hk : k < (reservedGroup (accepted ps regions) ps).size) :
    (layout h).addr ((reservedGroup (accepted ps regions) ps).first + k) =
      (layout h).config.pagesHead + k * ps := by
  obtain ⟨post, hs⟩ := h.desc_split
  exact h.addr_split hs (hk.trans_le h.reserved.2.2)

/-- An address in a reserved page. -/
theorem HeapRep.misplaced_reserved {h : Fitting regions ps} (hr : HeapRep (layout h) H s)
    (hv : Serves (layout h) (reservedGroup (accepted ps regions) ps) a₀ H blocks leaked)
    (S : Site (layout h) (reservedGroup (accepted ps regions) ps) a₀)
    (hge : s.pages.self.pagesHead ≤ ptr) (hlt : ptr < s.pages.self.pagesHead +
      s.pages.self.descPagesCount * s.pages.self.pageSize) : ∃ i, Misplaced (layout h) H ptr i := by
  have hself : s.pages.self.pagesHead = (layout h).config.pagesHead ∧
      s.pages.self.descPagesCount = (reservedGroup (accepted ps regions) ps).size ∧
      s.pages.self.pageSize = ps := by
    rw [hr.pages.config]
    exact ⟨rfl, rfl, rfl⟩
  rw [hself.1] at hge hlt
  rw [hself.2.1, hself.2.2] at hlt
  have hps := h.pageSize.pos
  have hw := hv.wf
  have hru : reservedGroup (accepted ps regions) ps ∈ H.pages.used :=
    hw.used.mem_iff.mpr List.mem_cons_self
  -- the number of the page within the group
  obtain ⟨d, rfl⟩ := Nat.exists_eq_add_of_le hge
  have hk : d / ps < (reservedGroup (accepted ps regions) ps).size :=
    (Nat.div_lt_iff_lt_mul hps).mpr (by omega)
  have hdiv := Nat.div_add_mod' d ps
  have hmod := Nat.mod_lt d hps
  have hcov : (reservedGroup (accepted ps regions) ps).Covers
      ((reservedGroup (accepted ps regions) ps).first + d / ps) :=
    ⟨Nat.le_add_right _ _, Nat.add_lt_add_left hk _⟩
  have hi := hw.count ▸ hw.inv.tiles.lt_of_covers (Pages.mem_groups.mpr (Or.inl hru)) hcov
  have haddr := h.addr_reserved hk
  have hL : (layout h).pageSize = ps := rfl
  refine ⟨_, hi, by omega, by omega, ⟨_, hru, hcov⟩, hw.findZone_none S.sound ?_⟩
  intro z hz hzge hzlt
  have hne : (H.zone z).page ≠ (reservedGroup (accepted ps regions) ps).first + d / ps :=
    fun he => hw.not_reserved hz (he ▸ hcov)
  rcases S.sound.addr_apart _ (hw.fits z hz).page_lt _ hi hne with hap | hap <;> omega

/-- An address in the page of a zone at which no chunk begins. -/
theorem HeapRep.misplaced_zone {z : ℕ} (hr : HeapRep L H s) (hv : Serves L r a₀ H blocks leaked)
    (S : Site L r a₀) (hz : s.IsZone z) (hge : s.zoneAddress z ≤ ptr)
    (hlt : ptr < s.zoneAddress z + s.self.pageSize) (hnot : ¬s.ChunkOf z ptr) :
    ∃ i, Misplaced L H ptr i := by
  have hw := hv.wf
  have hzd := hr.isZone_iff.mp hz
  have hfits := hw.fits z hzd
  have haddr : s.zoneAddress z = L.addr (H.zone z).page := by
    rw [State.zoneAddress, State.zonePage, (hr.zones z hzd).page]
    exact hr.pages.addr hfits.page_lt
  rw [haddr] at hge hlt
  rw [hr.pageSize] at hlt
  refine ⟨_, hfits.page_lt, hge, hlt, ⟨_, hw.pageGroup_mem hzd, le_rfl, Nat.lt_succ_self _⟩,
    hw.findZone_none S.sound fun y hy hyge hylt hown => ?_⟩
  by_cases hne : (H.zone y).page = (H.zone z).page
  · exact hnot ((hr.chunkOf_iff hzd hfits).mpr (hw.eq_of_page hy hzd hne ▸ hown))
  · rcases S.sound.addr_apart _ (hw.fits y hy).page_lt _ hfits.page_lt hne with hap | hap <;> omega

/-- An address outside of all regions is in no page. -/
theorem Fitting.not_in_page (h : Fitting regions ps) (hout : Outside regions ptr)
    (hi : i < (layout h).count) : ¬((layout h).addr i ≤ ptr ∧ ptr < (layout h).addr i + ps) := by
  rintro ⟨hge, hlt⟩
  obtain ⟨q, hq, hpart⟩ := h.page_in_region hi
  obtain ⟨h₁, h₂⟩ := hpart ptr hge hlt
  have hle := Nat.div_mul_le_self (q.address + q.size) ps
  have hup := le_roundUp (n := q.address) h.pageSize.pos
  rcases hout q hq with h₃ | h₃ <;> omega

/-! ### Every run -/

/-- In every run after a successful `init` a pointer that is no block is ignored exactly when it
lies outside of all regions; the release of any other one changes the lists of free groups or the
number of free pages, if it returns. -/
theorem Run.ignored_iff (hg : GoodArguments regions ps) (hu : Untouching regions) (hps : ps ≤ 4096)
    (hinit : init regions ps s₀ = .ok (true, s₁)) (hrun : Run s₁ s blocks) (hptr : ptr < 2 ^ width)
    (hinv : s.Invalid regions ptr) :
    (Liballocator.release ptr s = .ok (⟨⟩, s) ↔ Outside regions ptr) ∧
      (¬Outside regions ptr → ∀ s', Liballocator.release ptr s = .ok (⟨⟩, s') →
        s'.pages.self.freeGroupLists ≠ s.pages.self.freeGroupLists ∨
        s'.pages.self.freePagesCount ≠ s.pages.self.freePagesCount) := by
  have h := hg.fitting_of_init hinit
  have S := (hg.usable_of_init hinit).site hg.few hps
  obtain ⟨H, leaked, hr, hv, -⟩ := hg.running hps hinit hrun
  have hpos := h.pageSize.pos
  have hchange : ¬Outside regions ptr → ∀ s', Liballocator.release ptr s = .ok (⟨⟩, s') →
      s'.pages.self.freeGroupLists ≠ s.pages.self.freeGroupLists ∨
      s'.pages.self.freePagesCount ≠ s.pages.self.freePagesCount := by
    intro hnot s' hcall
    obtain ⟨i, hm⟩ : ∃ i, Misplaced (layout h) H ptr i := by
      cases hinv with
      | outside hout => exact absurd hout hnot
      | reserved hge hlt => exact hr.misplaced_reserved hv S hge hlt
      | zone hz hge hlt hc => exact hr.misplaced_zone hv S hz hge hlt hc
    have h0 : ptr ≠ 0 := by
      have := S.sound.addr_pos i hm.page_lt
      have := hm.ge
      omega
    have halign : alignDown ptr ps = (layout h).addr i := by
      refine (alignDown_eq_iff h.pageSize hptr (h.addr_dvd hm.page_lt)).mpr ⟨hm.ge, ?_⟩
      have : ptr < (layout h).addr i + ps := hm.lt
      omega
    obtain ⟨g, hgu, hcov⟩ := hm.covered
    exact hr.release_page hv S h0 hm.findZone
      (h.findPage_unmasked (h.unmasked hu) hm.page_lt halign)
      (hr.pages.release_covered hv.wf.pages_count_lt hgu hcov) _ _ hcall
  refine ⟨⟨fun hcall => ?_, fun hout => ?_⟩, hchange⟩
  · by_contra hnot
    exact (hchange hnot s hcall).elim (fun hne => hne rfl) fun hne => hne rfl
  · refine hr.release_ignored hv S (hv.wf.findZone_none S.sound fun d hd hge hlt => ?_) ?_
    · exact absurd ⟨hge, hlt⟩ (h.not_in_page hout (hv.wf.fits d hd).page_lt)
    · rw [Option.eq_none_iff_forall_ne_some]
      intro i hi
      obtain ⟨hi, haddr⟩ := Layout.findPage_eq_some hi
      have hin := (alignDown_eq_iff h.pageSize hptr (h.addr_dvd hi)).mp haddr.symm
      exact h.not_in_page hout hi ⟨hin.1, by omega⟩

end Invalid

section Separate

attribute [local instance] lp64

/-- The address one lies outside of all regions and is ignored. -/
theorem Run.ignored_iff_separate : ∃ s₁ s b, init separateRegions 256 blankState = .ok (true, s₁) ∧
    Run s₁ s [b] ∧ s.Invalid separateRegions 1 ∧ Liballocator.release 1 s = .ok (⟨⟩, s) := by
  obtain ⟨s₁, s, b, hinit, hrun⟩ := exists_run_separate
  have hout : Outside separateRegions 1 := by
    unfold Outside
    decide
  exact ⟨s₁, s, b, hinit, hrun, .outside hout,
    (Run.ignored_iff separateRegions_good separateRegions_untouching (by decide) hinit hrun
      (by decide) (.outside hout)).1.mpr hout⟩

/-- What is looked at in the state before and after the release: the list with the initial zone, the
page of that zone, the sizes of pages and of its chunks, and the free pages. -/
def State.observe (s : State) : List ℕ × ℕ × ℕ × ℕ × Bool × ℕ :=
  ([(s.self.zones 2).head, s.mem initialZone, s.mem (initialZone + wordBytes)],
    s.zoneAddress initialZone, s.self.pageSize, s.chunkSize initialZone, s.pages.isUsed 2,
    s.pages.self.freePagesCount)

private theorem isZone_initial {s : State}
    (h : [(s.self.zones 2).head, s.mem initialZone, s.mem (initialZone + wordBytes)] =
      [initialZone, 0, 0]) : s.IsZone initialZone := by
  simp only [List.cons.injEq, and_true] at h
  exact ⟨2, by decide, [initialZone], ⟨initialZone, h.1, (Nat.two_pow_pos _).ne', h.2.2, rfl, h.2.1⟩,
    List.mem_singleton_self _⟩

/-- The address 8200 is in the page of the initial zone, at no chunk: its release makes the page
free while the zone is still listed. -/
theorem exists_freed_zone : GoodArguments separateRegions 256 ∧ Untouching separateRegions ∧
    ∃ s₁ s', init separateRegions 256 blankState = .ok (true, s₁) ∧
      s₁.Invalid separateRegions 8200 ∧ Liballocator.release 8200 s₁ = .ok (⟨⟩, s') ∧
      s'.IsZone initialZone ∧ s'.zoneAddress initialZone = 8192 ∧
      s₁.pages.isUsed 2 = true ∧ s'.pages.isUsed 2 = false ∧
      s₁.pages.self.freePagesCount = 2 ∧ s'.pages.self.freePagesCount = 3 := by
  have hobs : ((init separateRegions 256 blankState).toOption.map fun r => r.2.observe) =
      some ([initialZone, 0, 0], 8192, 256, 64, true, 2) := by decide +kernel
  have hobs' : (((init separateRegions 256 >>= fun _ => Liballocator.release 8200)
      blankState).toOption.map fun r => r.2.observe) =
      some ([initialZone, 0, 0], 8192, 256, 64, false, 3) := by decide +kernel
  obtain ⟨s₁, hinit⟩ := exists_run (x := init separateRegions 256) (s := blankState) (a := true)
    (by decide +kernel)
  rw [hinit] at hobs
  rw [bind_of_run_eq hinit] at hobs'
  cases hrel : Liballocator.release 8200 s₁ with
  | error e => simp [hrel, Except.toOption] at hobs'
  | ok r =>
    obtain ⟨⟨⟩, s'⟩ := r
    rw [hrel] at hobs'
    simp only [Except.toOption, Option.map_some, Option.some.injEq, State.observe,
      Prod.mk.injEq] at hobs hobs'
    obtain ⟨hlist, haddr, hps, hsize, hused, hfree⟩ := hobs
    obtain ⟨hlist', haddr', -, -, hused', hfree'⟩ := hobs'
    refine ⟨separateRegions_good, separateRegions_untouching, s₁, s', hinit,
      .zone (isZone_initial hlist) (by omega) (by omega) ?_, hrel, isZone_initial hlist', haddr',
      hused, hused', hfree, hfree'⟩
    rintro ⟨j, hj, he⟩
    rw [State.zoneAddress] at haddr
    rw [haddr, hsize] at he
    omega

end Separate

end Liballocator
