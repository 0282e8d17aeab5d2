import Liballocator.Pages.Refused
import Liballocator.Pages.Stored
import Liballocator.Pages.Totals
import Liballocator.Zones.Runs

/-!
# What a failed `init` leaves behind

`init` clears both allocators before anything else, but it does not clear them again when it fails
later: the records of the regions that have been collected by then stay, and with them the sums in
the statistics.  `init_cleared_iff` says when the statistics are those of a cleared allocator all
the same.
-/

namespace Liballocator

open Program

section Cleared

variable [Platform] {regions : List Region} {ps : ℕ} {s s' : State}

/-- `getStats` shows the statistics of an allocator that knows no memory. -/
def State.ShowsNothing (s : State) : Prop := wp getStats (fun stats _ => stats = ⟨0, 0, 0, 0, 0⟩) s

/-! ### Statistics without zones -/

namespace ZoneAllocator

private theorem usedZonesCountFrom_empty (hz : s.self.zones = fun _ => {}) {n idx : ℕ}
    (hn : idx + n ≤ maxZoneIdx) : wp (usedZonesCountFrom n idx 0) (fun c s' => c = 0 ∧ s' = s) s := by
  induction n generalizing idx with
  | zero => exact wp_pure.mpr ⟨rfl, rfl⟩
  | succ n ih =>
    obtain ⟨k, hk⟩ : ∃ k, loopBound = k + 1 := Nat.exists_eq_add_of_le' two_pow_width_pos
    simp only [usedZonesCountFrom, wp_bind, wp_zoneInfoAt, wp_liftMem', hz, hk, countZonesFrom,
      if_true, wp_pure]
    refine ⟨by omega, ?_⟩
    have hsum : Word.add 0 0 % 2 ^ 32 = 0 := by simp [Word.add]
    rw [hsum]
    exact ih (by omega)

private theorem freeMemorySizeFrom_empty (hz : s.self.zones = fun _ => {}) {n idx : ℕ}
    (hn : idx + n ≤ maxZoneIdx) : wp (freeMemorySizeFrom n idx 0) (fun c s' => c = 0 ∧ s' = s) s := by
  induction n generalizing idx with
  | zero => exact wp_pure.mpr ⟨rfl, rfl⟩
  | succ n ih =>
    simp only [freeMemorySizeFrom, wp_bind, wp_zoneInfoAt, hz, if_true]
    exact ⟨by omega, ih (by omega)⟩

/-- Without zones there is no memory in zones. -/
theorem getStats_empty (hz : s.self.zones = fun _ => {}) :
    wp getStats (fun stats s' => stats = ⟨0, 0, 0, 0⟩ ∧ s' = s) s := by
  simp only [getStats, wp_bind, wp_get, wp_pure]
  apply (usedZonesCountFrom_empty hz (Nat.le_of_eq (Nat.zero_add _))).mono
  rintro _ _ ⟨rfl, rfl⟩
  apply (freeMemorySizeFrom_empty hz (Nat.le_of_eq (Nat.zero_add _))).mono
  rintro _ _ ⟨rfl, rfl⟩
  have hmul : ∀ x, Word.mul 0 x = 0 := fun x => by rw [Word.mul, Nat.zero_mul, Nat.zero_mod]
  have hsub : Word.sub 0 0 = 0 := Word.sub_eq le_rfl two_pow_width_pos
  simp only [hmul, hsub, gt_iff_lt, Nat.lt_irrefl, if_false, and_self]

end ZoneAllocator

/-- When the statistics are zero: there are the sums `t` and `e` of the sizes, `x` bytes of reserved
pages and `f` bytes of free ones. -/
private theorem combined_eq_zero {t e x f : ℕ} (he : e < 2 ^ 32)
    (hx : x < 2 ^ width) (hf : f < 2 ^ width) :
    (t = 0 ∧ Word.add (Word.add (Word.sub t e) x) 0 = 0 ∧
      Word.sub t (Word.add (Word.add (Word.sub t e) x) 0) = 0 ∧
      Word.add (Word.sub (Word.sub (Word.sub e x) f) 0) 0 = 0) ↔ t = 0 ∧ e = x ∧ f = 0 := by
  simp only [Word.add, Word.sub]
  rcases width_cases with ⟨-, hw⟩ | ⟨-, hw⟩ <;> rw [hw] at hx hf ⊢ <;> omega

/-- What remains of the statistics when there are no zones. -/
theorem showsNothing_iff (hz : s.self.zones = fun _ => {}) : s.ShowsNothing ↔
    (s.pages.self.regionsInfo.map RegionInfo.size).sum % 2 ^ 32 = 0 ∧
    (s.pages.self.regionsInfo.map RegionInfo.alignedSize).sum % 2 ^ 32 =
      Word.mul s.pages.self.pageSize s.pages.self.descPagesCount ∧
    Word.mul s.pages.self.freePagesCount s.pages.self.pageSize = 0 := by
  have hrun : s.ShowsNothing ↔
      combineStats s.pages.self.getStats ⟨0, 0, 0, 0⟩ = ⟨0, 0, 0, 0, 0⟩ := by
    have hzone := ZoneAllocator.getStats_empty hz
    unfold State.ShowsNothing
    simp only [getStats, wp_bind, wp_get, wp_pure]
    constructor
    · intro h
      obtain ⟨_, _, hrun, h⟩ := h
      obtain ⟨rfl, rfl⟩ := hzone.of_run_eq hrun
      exact h
    · intro h
      apply hzone.mono
      rintro _ _ ⟨rfl, rfl⟩
      exact h
  have hmod : ∀ x, x % 2 ^ 32 < 2 ^ 32 := fun x => Nat.mod_lt _ (Nat.two_pow_pos 32)
  have hzero := combined_eq_zero (t := s.pages.self.getStats.totalMemorySize)
    (e := s.pages.self.getStats.effectiveMemorySize)
    (x := Word.mul s.pages.self.pageSize s.pages.self.descPagesCount)
    (f := Word.mul s.pages.self.freePagesCount s.pages.self.pageSize)
    (by rw [PageAllocator.effectiveMemorySize_eq]; exact hmod _)
    (Nat.mod_lt _ two_pow_width_pos) (Nat.mod_lt _ two_pow_width_pos)
  rw [hrun, ← PageAllocator.totalMemorySize_eq, ← PageAllocator.effectiveMemorySize_eq, ← hzero]
  have hcomm : Word.mul s.pages.self.getStats.reservedPagesCount s.pages.self.getStats.pageSize =
      Word.mul s.pages.self.pageSize s.pages.self.descPagesCount := by
    rw [Word.mul, Nat.mul_comm]
    rfl
  simp only [combineStats, hcomm, Stats.mk.injEq]
  constructor
  · rintro ⟨h₁, h₂, h₃, h₄, -⟩
    exact ⟨h₁, h₂, h₃, h₄⟩
  · rintro ⟨h₁, h₂, h₃, h₄⟩
    exact ⟨h₁, h₂, h₃, h₄, (congrArg₂ Word.sub h₃ h₄).trans (Word.sub_eq le_rfl two_pow_width_pos)⟩

/-! ### The state after a failed `init` -/

/-- After `clear` the statistics are zero. -/
theorem clear_showsNothing : wp clear (fun _ s' => s'.ShowsNothing) s := by
  apply clear_spec.mono
  rintro _ s' hs'
  have hz : s'.self.zones = fun _ => {} := by rw [hs']
  apply (showsNothing_iff hz).mpr
  have hp : s'.pages.self = PageAllocator.cleared := by rw [hs']
  rw [hp]
  refine ⟨rfl, ?_, ?_⟩
  · exact (Nat.zero_mod _).symm
  · exact Nat.zero_mod _

namespace PageAllocator

/-- `allocate` returns null only if it does nothing. -/
theorem wlp_allocate {count : ℕ} {s : PageState} :
    wlp (allocate count) (fun r s' => r = 0 → s' = s) s := by
  have hfind : ∀ (fuel group : ℕ) (m : Mem),
      wlp (findGroup count fuel group) (fun _ m' => m' = m) m := by
    intro fuel
    induction fuel with
    | zero => exact fun _ _ => wlp_throw.mpr trivial
    | succ fuel ih =>
      intro group m
      simp only [findGroup, Page.groupSize, ListNode.next, load, wlp_bind, wlp_ite, wlp_throw,
        wlp_get, wlp_pure]
      exact ⟨fun _ => trivial, fun _ => ⟨fun _ => trivial, fun _ => ⟨fun _ => ⟨fun _ => trivial,
        fun _ => ih _ _⟩, fun _ => trivial⟩⟩⟩
  have hfrom : ∀ n i, wlp (allocateFrom count n i) (fun r s' => r = 0 → s' = s) s := by
    intro n
    induction n with
    | zero => exact fun _ => wlp_pure.mpr fun _ => rfl
    | succ n ih =>
      intro i
      simp only [allocateFrom, freeGroupListAt, wlp_bind, wlp_ite, wlp_throw, wlp_get, wlp_pure,
        wlp_liftMem]
      refine ⟨fun _ => trivial, fun _ => (hfind _ _ _).mono ?_⟩
      rintro group _ rfl
      refine ⟨fun _ => ih _, fun hne => wlp_of_forall fun _ _ => wlp_splitGroup.mono fun x m hx => ?_⟩
      refine ⟨fun _ => wlp_of_forall fun _ _ h0 => ?_, fun _ h0 => ?_⟩
      · exact absurd (hx.1.symm.trans h0) hne
      · exact absurd (hx.1.symm.trans h0) hne
  simp only [allocate, wlp_bind, wlp_get, wlp_ite, wlp_pure]
  exact ⟨fun _ _ => trivial, fun _ => hfrom _ _⟩

end PageAllocator

/-- When `init` of the zone allocator fails there are no zones, and the page allocator is as before.
-/
private theorem wlp_initZones : wlp (ZoneAllocator.init ps) (fun ok s' => ok = false →
    s'.self.zones = (fun _ => {}) ∧ s'.pages.self = s.pages.self) s := by
  simp only [ZoneAllocator.init, ZoneAllocator.clear, ZoneAllocator.initZone,
    ZoneAllocator.callPageAllocator, wlp_bind, wlp_modify, wlp_liftMem', wlp_assert, wlp_get, wlp_ite,
    wlp_throw, wlp_liftPages, wlp_pure]
  refine wlp_of_forall fun _ m _ => ⟨fun _ => trivial, fun _ => ?_⟩
  refine PageAllocator.wlp_allocate.mono fun page p hp => ⟨fun _ => ?_, fun hnull => ?_⟩
  · exact wlp_of_forall fun _ _ => ⟨fun h => absurd h (by simp), fun _ => wlp_of_forall fun _ _ h =>
      absurd h (by simp)⟩
  · have hp := hp (not_not.mp hnull)
    exact ⟨fun _ _ => ⟨trivial, by rw [hp]⟩, fun h => absurd rfl h⟩

/-- What a failed `init` has done: the page allocator has finished, with or without success, and
there are no zones. -/
theorem init_false_pages (hinit : init regions ps s = .ok (false, s')) :
    s'.self.zones = (fun _ => {}) ∧ ∃ p b p', PageAllocator.init regions ps p = .ok (b, p') ∧
      s'.pages.self = p'.self := by
  have hall : wlp (init regions ps) (fun ok s' => ok = false → s'.self.zones = (fun _ => {}) ∧
      ∃ p b p', PageAllocator.init regions ps p = .ok (b, p') ∧ s'.pages.self = p'.self) s := by
    simp only [init, wlp_bind, wlp_liftPages]
    refine clear_spec.wlp.mono ?_
    rintro _ s₁ hs₁ b p' hrun
    have hz : s₁.self.zones = fun _ => {} := by rw [hs₁]
    cases b with
    | false =>
      simp only [Bool.not_false, if_true, wlp_pure]
      exact fun _ => ⟨hz, s₁.pages, false, p', hrun, rfl⟩
    | true =>
      simp only [Bool.not_true, Bool.false_eq_true, if_false]
      refine (wlp_initZones (s := { s₁ with pages := p' })).mono fun ok s₂ h hok => ?_
      exact ⟨(h hok).1, s₁.pages, true, p', hrun, (h hok).2⟩
  exact hall _ _ hinit rfl

/-! ### When nothing is left -/

/-- The sums that `getStats` shows for the regions with the records `infos`: no memory at all, and
`bytes` bytes of whole pages. -/
def SumsTo (infos : List RegionInfo) (bytes : ℕ) : Prop :=
  (infos.map RegionInfo.size).sum % 2 ^ 32 = 0 ∧
    (infos.map RegionInfo.alignedSize).sum % 2 ^ 32 = bytes

/-- The arguments for which a failed `init` leaves zero statistics: the page size is not valid, or
the sums over the regions collected so far happen to be zero modulo `2 ^ 32`, apart from the pages
that have been reserved for the table. -/
def Unnoticed (regions : List Region) (ps : ℕ) : Prop :=
  isValidPageSize ps = false ∨
  maxRegionsCount < regions.length ∧ SumsTo (accepted ps (regions.take maxRegionsCount)) 0 ∨
  regions.length ≤ maxRegionsCount ∧
    SumsTo (accepted ps regions) (tablePages (accepted ps regions) ps * ps) ∧
    ((accepted ps regions).map fun r => r.pageCount % 2 ^ 21).sum =
      tablePages (accepted ps regions) ps

theorem tablePages_nil (hps : ValidPageSize ps) : tablePages [] ps = 0 := by
  have hpos := hps.pos
  rw [tablePages, pageSum_nil, reservedPages, Nat.zero_mul, Nat.zero_add,
    Nat.div_eq_of_lt (by omega), Nat.zero_min]

/-- The sums after `init` of the page allocator has set up the table. -/
theorem Addressable.shows_iff (h : Addressable regions ps) {p p' : PageState} {b : Bool}
    (hinit : PageAllocator.init regions ps p = .ok (b, p')) :
    ((p'.self.regionsInfo.map RegionInfo.size).sum % 2 ^ 32 = 0 ∧
      (p'.self.regionsInfo.map RegionInfo.alignedSize).sum % 2 ^ 32 =
        Word.mul p'.self.pageSize p'.self.descPagesCount ∧
      Word.mul p'.self.freePagesCount p'.self.pageSize = 0) ↔
    SumsTo (accepted ps regions) (tablePages (accepted ps regions) ps * ps) ∧
      ((accepted ps regions).map fun r => r.pageCount % 2 ^ 21).sum =
        tablePages (accepted ps regions) ps := by
  obtain ⟨-, hself, hstored, -⟩ := (h.init_stored (h.reserved_le hinit)).of_run_eq hinit
  have hps := h.pageSize.pos
  have hdesc := descRegionIdx_lt ps h.exists_page
  obtain ⟨post, hs⟩ := desc_split ps h.exists_page
  obtain ⟨-, hn, hle⟩ := h.holdsTable hs (desc_length ps h.exists_page)
  have hmem : descRegionOf (accepted ps regions) ps ∈ accepted ps regions :=
    descRegionOf_mem ps h.exists_page
  -- the products do not wrap
  have hend := h.valid.alignedEnd_eq h.pageSize hmem
  have hend' := h.valid.alignedEnd_lt h.pageSize hmem
  have hmul := Nat.mul_le_mul_right ps hle
  have htable : Word.mul ps (tablePages (accepted ps regions) ps) =
      tablePages (accepted ps regions) ps * ps := by
    rw [Word.mul_eq (by rw [Nat.mul_comm]; omega), Nat.mul_comm]
  have hcounter := hstored.counter
  rw [if_pos hdesc] at hcounter
  have hsum := sum_mod_le (accepted ps regions)
  have hpages := h.valid.pageSum_mul_le h.pageSize
  have hfree : Word.mul p'.self.freePagesCount ps = p'.self.freePagesCount * ps := by
    have hlt := Nat.mul_lt_mul_of_pos_right
      (show p'.self.freePagesCount < pageSum (accepted ps regions) by omega) hps
    exact Word.mul_eq (hlt.trans_le hpages)
  have hpageSize : p'.self.pageSize = ps := by
    rw [hself]
    rfl
  have hdescPages : p'.self.descPagesCount = tablePages (accepted ps regions) ps := by
    rw [hself]
    rfl
  have hregions : p'.self.regionsInfo = placeRegions h.layout.config.pagesHead 0
      (accepted ps regions) := by
    rw [hself]
    rfl
  obtain ⟨hsize, haligned⟩ := map_size_placeRegions h.layout.config.pagesHead 0 (accepted ps regions)
  rw [hpageSize, hdescPages, hregions, hsize, haligned, htable, hfree, SumsTo, and_assoc,
    Nat.mul_eq_zero, or_iff_left hps.ne']
  refine and_congr_right fun _ => and_congr_right fun _ => ?_
  omega

instance {infos : List RegionInfo} {bytes : ℕ} : Decidable (SumsTo infos bytes) :=
  inferInstanceAs (Decidable (_ ∧ _))

instance : Decidable (Unnoticed regions ps) :=
  inferInstanceAs (Decidable (_ ∨ _ ∧ _ ∨ _ ∧ _ ∧ _))

/-- A failed `init` leaves the statistics of a cleared allocator exactly in these cases. -/
theorem init_cleared_iff (hlt : ps < 2 ^ width) (hv : ValidRegions regions)
    (hinit : init regions ps s = .ok (false, s')) : s'.ShowsNothing ↔ Unnoticed regions ps := by
  obtain ⟨hz, p, b, p', hpages, hself⟩ := init_false_pages hinit
  rw [showsNothing_iff hz, hself]
  by_cases hps : ValidPageSize ps
  · have hvalid : ¬isValidPageSize ps = false := by simp [(isValidPageSize_iff hlt).mpr hps]
    rw [Unnoticed, or_iff_right hvalid]
    by_cases hlen : regions.length ≤ maxRegionsCount
    · rw [or_iff_right (by omega), and_iff_right hlen]
      by_cases hne : accepted ps regions = []
      · obtain ⟨rfl, rfl⟩ := (PageAllocator.init_no_page hps hv.add_lt hv.size_pos hlen
          (by rw [hne]; rfl)).of_run_eq hpages
        simp [SumsTo, collected, PageAllocator.cleared, Word.mul, hne, tablePages_nil hps]
      · obtain rfl : b = true := by
          cases b with
          | false => exact absurd hpages (PageAllocator.init_not_false hps hv hlen hne)
          | true => rfl
        have h := PageAllocator.addressable_of_init hlt hv hpages
        exact h.shows_iff hpages
    · rw [or_iff_left fun hr => hlen hr.1, and_iff_right (Nat.lt_of_not_le hlen)]
      obtain ⟨rfl, rfl⟩ := (PageAllocator.init_entries hps hv.add_lt hv.size_pos
        (Nat.lt_of_not_le hlen)).of_run_eq hpages
      simp [SumsTo, collected, PageAllocator.cleared, Word.mul]
  · have hinv : isValidPageSize ps = false := by
      rw [← isValidPageSize_iff hlt] at hps
      simpa using hps
    obtain ⟨rfl, rfl⟩ := (PageAllocator.init_invalid hinv).of_run_eq hpages
    simp [Unnoticed, hinv, PageAllocator.cleared, Word.mul]

end Cleared

section Lp64

attribute [local instance] lp64

/-- When there is no whole page, nothing has been stored. -/
theorem init_cleared_small : ∃ s', init [⟨4096, 64⟩] 128 blankState = .ok (false, s') ∧
    s'.ShowsNothing := by
  obtain ⟨s', hinit⟩ := exists_run (x := init [⟨4096, 64⟩] 128) (s := blankState) (a := false)
    (by decide +kernel)
  exact ⟨s', hinit, (init_cleared_iff (by decide) ⟨by decide, by decide, by decide⟩ hinit).mpr
    (by decide +kernel)⟩

/-- The only page is used for the table, so `init` fails, but the region is not forgotten. -/
theorem exists_uncleared : ValidRegions [⟨4096, 128⟩] ∧ ∃ s' t,
    init [⟨4096, 128⟩] 128 blankState = .ok (false, s') ∧
    getStats s' = .ok (⟨128, 128, 0, 0, 0⟩, t) ∧ ¬s'.ShowsNothing := by
  obtain ⟨t, hrun⟩ := exists_run (s := blankState) (a := (false, ⟨128, 128, 0, 0, 0⟩))
    (x := do
      let ok ← init [⟨4096, 128⟩] 128
      let stats ← getStats
      return (ok, stats)) (by decide +kernel)
  have h := wp_of_run_eq (Q := fun r _ => r = (false, (⟨128, 128, 0, 0, 0⟩ : Stats))) hrun rfl
  simp only [wp_bind, wp_pure] at h
  obtain ⟨ok, s', hinit, stats, t', hstats, he⟩ := h
  obtain ⟨rfl, rfl⟩ := Prod.mk.inj he
  refine ⟨⟨by decide, by decide, by decide⟩, s', t', hinit, hstats, fun hzero => ?_⟩
  exact absurd (hzero.of_run_eq hstats) (by decide)

end Lp64

end Liballocator
