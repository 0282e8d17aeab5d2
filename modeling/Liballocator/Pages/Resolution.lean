import Liballocator.Pages.Query
import Liballocator.Pages.Stored

/-!
# Every page is found by its addresses

After `init`, with any number of pages, `getPage` returns for every address the page that contains
it and null for the other addresses, exactly when no region ends where a region behind it in the
array begins.  The range test of `getRegion` includes the end of a region, so otherwise the first
page of the second region is looked for among the pages of the first one.
-/

namespace Liballocator

open Program Tiling

section Resolution

variable [Platform]

variable {regions : List Region} {ps x : ℕ} {s s₀ s₁ : PageState}

/-- The page number `i` contains the address `addr`. -/
def PageState.Contains (s : PageState) (i addr : ℕ) : Prop :=
  s.address i ≤ addr ∧ addr ≤ s.address i + (s.self.pageSize - 1)

/-- For the address `addr` the call of `getPage` returns the page that contains it, or null when
there is none. -/
def PageAllocator.Resolves (s : PageState) (addr : ℕ) : Prop :=
  ∃ p, getPage addr s = .ok (p, s) ∧
    (∀ i < s.self.pagesCount, s.Contains i addr → p = s.descriptor i) ∧
    ((∀ i < s.self.pagesCount, ¬s.Contains i addr) → p = 0)

omit [Platform] in
/-- A masked region and the one that masks it. -/
theorem exists_masked {infos : List RegionInfo} (hu : ¬Unmasked infos) : ∃ pre r post,
    infos = pre ++ r :: post ∧ ∃ q ∈ pre, q.alignedEnd = r.alignedStart := by
  by_contra hno
  refine hu (List.pairwise_iff_getElem.mpr fun i j hi hj hij he => hno ?_)
  refine ⟨infos.take j, infos[j], infos.drop (j + 1), ?_, infos[i], ?_, he⟩
  · rw [← List.drop_eq_getElem_cons hj, List.take_append_drop]
  · rw [List.mem_take_iff_getElem]
    exact ⟨i, by omega, rfl⟩

/-- A multiple of the page size is the address of the page of an address. -/
theorem alignDown_eq_iff (hps : ValidPageSize ps) (hx : x < 2 ^ width) {a : ℕ} (ha : ps ∣ a) :
    alignDown x ps = a ↔ a ≤ x ∧ x ≤ a + (ps - 1) := by
  obtain ⟨k, rfl⟩ := ha
  have hpos := hps.pos
  rw [alignDown_eq hps hx, Nat.mul_comm ps k, Nat.mul_left_inj hpos.ne', Nat.div_eq_iff hpos,
    Nat.add_sub_assoc hpos]

namespace Fitting

variable (h : Fitting regions ps)

include h

/-- After `init` the table holds the addresses of the pages. -/
theorem holds_of_init (hinit : PageAllocator.init regions ps s₀ = .ok (true, s₁)) :
    (layout h).Holds s₁ := by
  obtain ⟨-, hself, hs, -⟩ := (h.init_stored (h.reserved_le hinit)).of_run_eq hinit
  exact ⟨hself, fun i hi => hs.addr i (h.layout_count ▸ hi)⟩

/-- The page that contains an address is the one with the aligned address. -/
theorem contains_iff (hs : (layout h).Holds s) {i : ℕ} (hi : i < (layout h).count)
    (hx : x < 2 ^ width) : s.Contains i x ↔ alignDown x ps = (layout h).addr i := by
  have haddr : s.address i = (layout h).addr i := by
    rw [PageState.address, PageState.descriptor_eq hs.config]
    exact hs.addr i hi
  have hps : s.self.pageSize = ps := by rw [hs.config]; rfl
  rw [PageState.Contains, haddr, hps, alignDown_eq_iff h.pageSize hx (h.addr_dvd hi)]

/-- `getPage` returns what `Layout.findPage` says. -/
theorem getPage_of_init (hs : (layout h).Holds s) (x : ℕ) :
    PageAllocator.getPage x s =
      .ok (match (layout h).findPage x with | none => 0 | some i => s.descriptor i, s) := by
  obtain ⟨p, s', hcall, rfl, rfl⟩ := hs.getPage (x := x)
    (fun _ hi _ hj => h.addr_inj hi hj) h.placed
  simp only [PageState.descriptor_eq hs.config]
  exact hcall

end Fitting

/-- After `init` every address is resolved exactly when no region ends where a region behind it in
the array begins. -/
theorem PageAllocator.resolves_iff (hlt : ps < 2 ^ width) (hv : ValidRegions regions)
    (htable : pageSum (accepted ps regions) * sizeofPage ≤
      (descRegionOf (accepted ps regions) ps).alignedSize)
    (hinit : init regions ps s₀ = .ok (true, s₁)) :
    (∀ addr < 2 ^ width, Resolves s₁ addr) ↔ Unmasked (accepted ps regions) := by
  have h := fitting_of_init hlt hv htable hinit
  have hs := h.holds_of_init hinit
  have hcount : s₁.self.pagesCount = (layout h).count := by rw [hs.config]; rfl
  have hdesc := PageState.descriptor_eq hs.config
  constructor
  · intro hall
    by_contra hu
    obtain ⟨pre, r, post, hsplit, q, hq, he⟩ := exists_masked hu
    have hpos := h.pageCount_pos (Fitting.region_mem hsplit)
    have hi : pageSum pre < (layout h).count := by
      rw [h.layout_count, hsplit, pageSum_append, pageSum_cons]
      omega
    have haddr := h.addr_split hsplit hpos
    rw [Nat.zero_mul, Nat.add_zero, Nat.add_zero] at haddr
    have hx : r.alignedStart < 2 ^ width := by
      have := h.addr_add_lt hi
      omega
    -- the first page of the masked region is not found
    obtain ⟨p, hcall, hfound, -⟩ := hall r.alignedStart hx
    rw [h.getPage_of_init hs, h.findPage_masked hsplit hq he] at hcall
    have hp : 0 = p := congrArg Prod.fst (Except.ok.inj hcall)
    have hcontains : s₁.Contains (pageSum pre) r.alignedStart := by
      rw [h.contains_iff hs hi hx, ← haddr]
      exact h.alignDown_addr hi
    have := hfound _ (hcount ▸ hi) hcontains
    rw [← hp, hdesc] at this
    exact Layout.pageAt_ne_zero _ this.symm
  · intro hu x hx
    refine ⟨_, h.getPage_of_init hs x, fun i hi hc => ?_, fun hnone => ?_⟩
    · rw [hcount] at hi
      rw [h.findPage_unmasked hu hi ((h.contains_iff hs hi hx).mp hc)]
    · cases hf : (layout h).findPage x with
      | none => rfl
      | some i =>
        obtain ⟨hi, haddr⟩ := Layout.findPage_eq_some hf
        exact absurd ((h.contains_iff hs hi hx).mpr haddr.symm) (hnone i (hcount ▸ hi))

end Resolution

section Lp64

attribute [local instance] lp64

/-- Two regions that touch, the one with the higher addresses first: every address is resolved. -/
theorem PageAllocator.resolves_turned : ∃ s₁,
    init turnedRegions 256 blankPages = .ok (true, s₁) ∧ ∀ addr < 2 ^ 64, Resolves s₁ addr := by
  obtain ⟨s₁, hinit⟩ := turnedRegions_good.init_returns blankPages turnedRegions_fitting.pageSize
    turnedRegions_fitting.entries turnedRegions_fitting.exists_page
  exact ⟨s₁, hinit, (resolves_iff (by decide) turnedRegions_fitting.valid
    turnedRegions_fitting.table hinit).mpr (by unfold Unmasked; decide)⟩

/-- Two regions that touch, the one with the lower addresses first: `getPage` does not find the page
at 4608. -/
theorem exists_unresolved : GoodArguments touchingRegions 256 ∧ ∃ s₁,
    PageAllocator.init touchingRegions 256 blankPages = .ok (true, s₁) ∧
      s₁.Contains 2 4608 ∧ s₁.descriptor 2 ≠ 0 ∧ PageAllocator.getPage 4608 s₁ = .ok (0, s₁) := by
  obtain ⟨s₁, hinit⟩ := touchingRegions_good.init_returns blankPages
    touchingRegions_fitting.pageSize touchingRegions_fitting.entries
    touchingRegions_fitting.exists_page
  have hs := touchingRegions_fitting.holds_of_init hinit
  have hnone : (layout touchingRegions_fitting).findPage 4608 = none := by decide
  refine ⟨touchingRegions_good, s₁, hinit, ?_, ?_, ?_⟩
  · exact (touchingRegions_fitting.contains_iff hs (by decide) (by decide)).mpr (by decide)
  · rw [PageState.descriptor_eq hs.config]
    exact Layout.pageAt_ne_zero 2
  · rw [touchingRegions_fitting.getPage_of_init hs, hnone]

end Lp64

end Liballocator
