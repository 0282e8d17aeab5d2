import Liballocator.Pages.Runs

/-!
# What holds in every run of the page allocator

The representation invariant in terms of the fields and the memory (`PageAllocator.WellFormed`), the
regions of groups, and complete coalescing.
-/

namespace Liballocator

open Program LinkedList Tiling

/-! ### The arguments of `init` -/

section Arguments

variable [Platform]

/-- Arguments of `init` for which its result is meaningful: valid regions at addresses that are not
null, few enough pages for the group sizes, and a table that fits in its region. -/
structure GoodArguments (regions : List Region) (ps : ℕ) : Prop where
  word : ps < 2 ^ width
  valid : ValidRegions regions
  nonZero : NonZero regions
  few : pageSum (accepted ps regions) < 2 ^ 21
  table : pageSum (accepted ps regions) * sizeofPage ≤
    (descRegionOf (accepted ps regions) ps).alignedSize

variable {regions : List Region} {ps : ℕ} {s₀ s₁ s : PageState} {live : List PageBlock}

/-- `init` succeeds on good arguments if the page size is valid, there are not too many regions and
one of them contains a page. -/
theorem GoodArguments.init_returns (s₀ : PageState) (hg : GoodArguments regions ps)
    (hps : ValidPageSize ps) (hlen : regions.length ≤ maxRegionsCount)
    (hne : accepted ps regions ≠ []) :
    ∃ s₁, PageAllocator.init regions ps s₀ = .ok (true, s₁) := by
  obtain ⟨_, s₁, hinit, rfl, -⟩ := PageAllocator.init_spec (s := s₀)
    (Usable.of_nonZero hps hg.valid hg.nonZero hlen hne hg.table).toFitting (pageCount_lt hg.few)
  exact ⟨s₁, hinit⟩

/-- After a successful `init` the arguments are usable. -/
theorem GoodArguments.usable (hg : GoodArguments regions ps)
    (hinit : PageAllocator.init regions ps s₀ = .ok (true, s₁)) : Usable regions ps := by
  obtain ⟨hps, hlen, hne⟩ := PageAllocator.init_true hg.word hg.valid hinit
  exact .of_nonZero hps hg.valid hg.nonZero hlen hne hg.table

/-- After a successful `init` the regions fit in the array. -/
theorem GoodArguments.fitting (hg : GoodArguments regions ps)
    (hinit : PageAllocator.init regions ps s₀ = .ok (true, s₁)) : Fitting regions ps :=
  (hg.usable hinit).toFitting

/-- After a successful `init` the table has fewer than `2 ^ 21` descriptors. -/
theorem GoodArguments.count_lt (hg : GoodArguments regions ps)
    (hinit : PageAllocator.init regions ps s₀ = .ok (true, s₁)) :
    (layout (hg.fitting hinit)).count < 2 ^ 21 :=
  (hg.fitting hinit).layout_count ▸ hg.few

/-- A run after a successful `init` is a run on groups. -/
theorem GoodArguments.simulation (hg : GoodArguments regions ps)
    (hinit : PageAllocator.init regions ps s₀ = .ok (true, s₁)) (hrun : PageRun s₁ s live) :
    ∃ a gs,
      Pages.Reach (layout (hg.fitting hinit)) (Pages.initial (accepted ps regions) ps) a gs ∧
      PageRep (layout (hg.fitting hinit)) (Pages.initial (accepted ps regions) ps) s₁ ∧
      PageRep (layout (hg.fitting hinit)) a s ∧
      live = gs.map (blockOf (layout (hg.fitting hinit))) := by
  have hr := ((PageAllocator.init_spec (hg.fitting hinit)
    (pageCount_lt hg.few)).of_run_eq hinit).2.1
  obtain ⟨a, gs, hreach, hra, rfl⟩ := hrun.simulation hr
  refine ⟨a, gs, hreach, hr, hra, List.map_congr_left fun g hgs => ?_⟩
  rw [hra.inv.cut_eq (hra.count.trans_lt (hg.count_lt hinit))
    (Pages.mem_groups.mpr (Or.inl (hreach.mem_used hr.inv hgs)))]

end Arguments

section Touching

attribute [local instance] lp64

/-- Two regions of two pages of 256 bytes each: the second one begins where the first one ends. -/
def touchingRegions : List Region := [⟨4096, 512⟩, ⟨4608, 512⟩]

/-- An object that has not been used yet, in a cleared memory. -/
def blankPages : PageState := ⟨PageAllocator.cleared, fun _ => 0⟩

/-- `init` may be called with the two regions. -/
theorem touchingRegions_fitting : Fitting touchingRegions 256 :=
  ⟨⟨8, by decide, by decide, rfl⟩, ⟨by decide, by decide, by decide⟩, by decide, by decide,
    by decide, by decide⟩

/-- The regions are good arguments. -/
theorem touchingRegions_good : GoodArguments touchingRegions 256 :=
  ⟨by decide, touchingRegions_fitting.valid, show ∀ r ∈ touchingRegions, 0 < r.address by decide,
    by decide, touchingRegions_fitting.table⟩

end Touching

/-! ### The representation invariant -/

section WellFormed

variable [Platform] {regions : List Region} {ps : ℕ} {s₀ s₁ s : PageState} {live : List PageBlock}

section Fields

variable (s : PageState)

/-- The descriptor number `i` of the table. -/
def PageState.descriptor (i : ℕ) : ℕ := s.self.pagesHead + i * sizeofPage

/-- `address()` of the descriptor number `i`. -/
def PageState.address (i : ℕ) : ℕ := s.mem (s.descriptor i + 2 * wordBytes)

/-- `groupSize()` of the descriptor number `i`. -/
def PageState.groupSize (i : ℕ) : ℕ := flagsGroupSize (s.mem (s.descriptor i + 3 * wordBytes))

/-- `isUsed()` of the descriptor number `i`. -/
def PageState.isUsed (i : ℕ) : Bool := flagsUsed (s.mem (s.descriptor i + 3 * wordBytes))

variable {s}

/-- The descriptors of the code are those of the layout. -/
theorem PageState.descriptor_eq {L : Layout} (hself : s.self = withLists L.config s.self) (i : ℕ) :
    s.descriptor i = L.pageAt i := by
  rw [PageState.descriptor, hself]
  rfl

end Fields

/-- The representation invariant, with the group of the reserved pages, the live groups and the
groups in each of the free lists; a group is given by the numbers of its pages. -/
structure PageAllocator.WellFormed (s : PageState) (reserved : Group) (live : List Group)
    (free : ℕ → List Group) : Prop where
  /-- Every page belongs to exactly one group. -/
  partition : Tiles s.self.pagesCount (reserved :: live ++ (List.range maxGroupIdx).flatMap free)
  /-- The pages of a group have consecutive addresses. -/
  consecutive : ∀ g ∈ reserved :: live ++ (List.range maxGroupIdx).flatMap free, ∀ k < g.size,
    s.address (g.first + k) = s.address g.first + k * s.self.pageSize
  /-- The size of a group is stored at its ends, and zero is stored between them. -/
  sizes : ∀ g ∈ reserved :: live ++ (List.range maxGroupIdx).flatMap free, ∀ i, g.Covers i →
    s.groupSize i = if i = g.first ∨ i + 1 = g.first + g.size then g.size else 0
  used : ∀ i < s.self.pagesCount,
    s.isUsed i = false ↔ ∃ g ∈ (List.range maxGroupIdx).flatMap free, g.Covers i
  /-- Each list links exactly its groups, every one of them once. -/
  lists : ∀ i < maxGroupIdx, IsList (links s.mem) (s.self.freeGroupLists i)
    ((free i).map fun g => s.descriptor g.first)
  listed : ∀ i, ∀ g ∈ free i, groupIdx g.size = i
  counter : s.self.freePagesCount = (((List.range maxGroupIdx).flatMap free).map Span.size).sum

/-- The page behind `i` begins where the page `i` ends. -/
def Layout.Adjacent (L : Layout) (i : ℕ) : Prop := L.addr (i + 1) = L.addr i + L.pageSize

/-- Neighbouring pages of one region are adjacent. -/
theorem Fitting.adjacent_of_sameRegion (h : Fitting regions ps) {i : ℕ}
    (hi : i + 1 < (layout h).count) (hsame : (layout h).SameRegion i) : (layout h).Adjacent i := by
  obtain ⟨pre, r, post, k, hs, rfl, hk, hk' | ⟨r', post', rfl, hk', hpos, hs', hidx⟩⟩ :=
    h.exists_next hi
  · rw [Layout.Adjacent, Nat.add_assoc, h.addr_split hs hk, h.addr_split hs hk', Nat.succ_mul,
      Nat.add_assoc]
    rfl
  · -- the next page is the first one of another region
    rw [Layout.SameRegion, hidx, h.regionOf_split hs hk,
      h.regionOf_split hs' hpos, List.length_append,
      List.length_singleton] at hsame
    omega

/-- The pages of a group of neighbours have consecutive addresses. -/
theorem Pages.Uncut.addr_eq {L : Layout} {g : Group} (hg : Pages.Uncut L.Adjacent g) {k : ℕ}
    (hk : k < g.size) : L.addr (g.first + k) = L.addr g.first + k * L.pageSize := by
  induction k with
  | zero => simp
  | succ k ih =>
    have hnext := hg (g.first + k) ⟨by omega, by omega⟩ ⟨by omega, by omega⟩
    rw [← Nat.add_assoc, hnext, ih (by omega), Nat.succ_mul, Nat.add_assoc]

/-- The pages of the reserved group belong to one region. -/
theorem Fitting.uncut_reserved (h : Fitting regions ps) :
    Pages.Uncut (layout h).SameRegion (reservedGroup (accepted ps regions) ps) := by
  obtain ⟨post, hs⟩ := h.desc_split
  obtain ⟨hh, -, hle⟩ := h.reserved
  rintro i ⟨h₁, h₂⟩ ⟨h₃, h₄⟩
  obtain ⟨k, rfl⟩ := Nat.exists_eq_add_of_le h₁
  rw [Layout.SameRegion, Nat.add_assoc]
  exact (h.regionOf_split hs (by omega)).trans (h.regionOf_split hs (by omega)).symm

/-- In every run all groups consist of adjacent pages. -/
theorem Fitting.uncut_adjacent (h : Fitting regions ps) {a : Pages} {gs : List Group}
    (hreach : Pages.Reach (layout h) (Pages.initial (accepted ps regions) ps) a gs)
    (hi : (Pages.initial (accepted ps regions) ps).Inv)
    (hc : (Pages.initial (accepted ps regions) ps).count = (layout h).count) {g : Group}
    (hg : g ∈ reservedGroup (accepted ps regions) ps :: gs ++ a.freeGroups) :
    Pages.Uncut (layout h).Adjacent g := by
  have hsub : ∀ g ∈ (Pages.initial (accepted ps regions) ps).groups, ∀ i, g.Covers i →
      i < (layout h).count := fun g hg i hcov => hc ▸ hi.tiles.lt_of_covers hg hcov
  have hclosed := Pages.closed_uncut (L := layout h) (J := (layout h).Adjacent)
    (R := fun i => (layout h).count ≤ i) fun i hglue _ hi' =>
      h.glued_addr (Nat.lt_of_not_le hi') hglue
  have hall := hreach.forall_groups hi hclosed fun g hg =>
    ⟨fun i hcov => Nat.not_le_of_lt (hsub g (Pages.mem_groups.mpr (Or.inr hg)) i hcov),
      fun i h₁ h₂ => h.adjacent_of_sameRegion (hsub g (Pages.mem_groups.mpr (Or.inr hg)) _ h₂)
        (h.uncut_initial hg i h₁ h₂)⟩
  rcases List.mem_append.mp hg with hg | hg
  · rcases List.mem_cons.mp hg with rfl | hg
    · intro i h₁ h₂
      refine h.adjacent_of_sameRegion (hsub _ ?_ _ h₂) (h.uncut_reserved i h₁ h₂)
      rw [Pages.mem_groups, h.used_initial]
      exact Or.inl List.mem_cons_self
    · exact (hall.2 g hg).2
  · exact (hall.1 g hg).2

/-- A represented state is well formed. -/
theorem PageRep.wellFormed {L : Layout} {a : Pages} {r : Group} {gs : List Group}
    (hr : PageRep L a s) (hc : L.count < 2 ^ 21) (hused : a.used.Perm (r :: gs))
    (hadj : ∀ g ∈ r :: gs ++ a.freeGroups, Pages.Uncut L.Adjacent g) :
    PageAllocator.WellFormed s r gs a.free := by
  have hdesc := PageState.descriptor_eq hr.config
  have hcount : s.self.pagesCount = a.count := by
    rw [hr.config]
    exact hr.count.symm
  have hc' : a.count < 2 ^ 21 := hr.count.trans_lt hc
  have hfree : ∀ g ∈ a.freeGroups, cut g = g := fun g hg =>
    hr.inv.cut_eq hc' (Pages.mem_groups.mpr (Or.inr hg))
  have hps : s.self.pageSize = L.pageSize := by
    rw [hr.config]
  have hperm : a.groups.Perm (r :: gs ++ a.freeGroups) := hused.append_right _
  have hmem : ∀ g ∈ r :: gs ++ a.freeGroups, g ∈ a.groups := fun g hg => hperm.mem_iff.mpr hg
  refine ⟨?_, fun g hg k hk => ?_, fun g hg i hcov => ?_, fun i hi => ?_, fun i him => ?_,
    fun i g hg => ?_, ?_⟩
  · rw [hcount]
    exact hr.inv.tiles.perm hperm
  · have hstop := hr.stop_le (hmem g hg)
    rw [PageState.address, PageState.address, hdesc, hdesc, hr.addr (by omega),
      hr.addr (by omega), hps]
    exact (hadj g hg).addr_eq hk
  · rw [PageState.groupSize, hdesc]
    exact (hr.table.tags g (hmem g hg)).eq (hr.inv.size_lt hc' (hmem g hg)) hcov
  · rw [PageState.isUsed, hdesc]
    constructor
    · intro hu
      obtain ⟨g, hg, hcov, -⟩ := hr.exists_free (by rw [← hr.count, ← hcount]; exact hi) hu
      exact ⟨g, hg, hcov⟩
    · rintro ⟨g, hg, hcov⟩
      have := hr.table.free g hg i hcov
      rw [hfree g hg] at this
      exact this.trans (decide_eq_false (Nat.not_le_of_lt hcov.2))
  · simp only [hdesc]
    exact hr.table.lists i him
  · have him := hr.inv.listed i g hg
    by_cases hlt : i < maxGroupIdx
    · rwa [hfree g (Pages.mem_freeGroups.mpr ⟨i, hlt, hg⟩)] at him
    · exact absurd (him ▸ Pages.idx_lt g) hlt
  · exact hr.table.freeCount.trans (hr.inv.freeCount_eq hc')

/-- A state that calls lead to is well formed, with the groups of its pages. -/
theorem Fitting.wellFormed (h : Fitting regions ps) {a : Pages} {gs : List Group}
    (hreach : Pages.Reach (layout h) (Pages.initial (accepted ps regions) ps) a gs)
    (hr₁ : PageRep (layout h) (Pages.initial (accepted ps regions) ps) s₁)
    (hr : PageRep (layout h) a s) (hc : (layout h).count < 2 ^ 21) :
    PageAllocator.WellFormed s (reservedGroup (accepted ps regions) ps) gs a.free := by
  obtain ⟨-, -, hused⟩ := hreach.inv hr₁.inv
  rw [h.used_initial] at hused
  exact hr.wellFormed hc (hused.trans List.perm_append_comm)
    fun g hg => h.uncut_adjacent hreach hr₁.inv hr₁.count hg

/-- In every run of the page allocator the pages are partitioned into the reserved group, the live
groups and the free groups, all of them are represented as they should be, and the next call ends
without a failing assertion. -/
theorem PageRun.wellFormed_of_init (hg : GoodArguments regions ps)
    (hinit : PageAllocator.init regions ps s₀ = .ok (true, s₁)) (hrun : PageRun s₁ s live) :
    (∃ reserved groups free, PageAllocator.WellFormed s reserved groups free ∧
      reserved.size = s.self.descPagesCount ∧
      live = groups.map fun g => ⟨s.descriptor g.first, g.size⟩) ∧
    (∀ count, ∃ page s', PageAllocator.allocate count s = .ok (page, s')) ∧
    ∀ b ∈ live, ∃ s', PageAllocator.release b.page s = .ok (⟨⟩, s') := by
  obtain ⟨a, gs, hreach, hr₁, hr, hlive⟩ := hg.simulation hinit hrun
  refine ⟨?_, hrun.allocate_returns hr₁, fun b hb => hrun.release_returns hr₁ hb⟩
  refine ⟨_, gs, a.free, (hg.fitting hinit).wellFormed hreach hr₁ hr (hg.count_lt hinit), ?_, ?_⟩
  · rw [hr.config]
    rfl
  · rw [hlive]
    apply List.map_congr_left
    intro g _
    rw [PageState.descriptor_eq hr.config]
    rfl

end WellFormed

section Touching

attribute [local instance] lp64

/-- The invariant after the allocation of two pages from two regions that touch. -/
theorem PageRun.wellFormed_touching : ∃ s₁ s b,
    PageAllocator.init touchingRegions 256 blankPages = .ok (true, s₁) ∧ PageRun s₁ s [b] ∧
      (∃ reserved groups free, PageAllocator.WellFormed s reserved groups free ∧
        reserved.size = s.self.descPagesCount ∧
        [b] = groups.map fun g => ⟨s.descriptor g.first, g.size⟩) ∧
      (∀ count, ∃ page s', PageAllocator.allocate count s = .ok (page, s')) ∧
      ∀ b' ∈ [b], ∃ s', PageAllocator.release b'.page s = .ok (⟨⟩, s') := by
  obtain ⟨s₁, hinit⟩ := touchingRegions_good.init_returns blankPages
    touchingRegions_fitting.pageSize touchingRegions_fitting.entries
    touchingRegions_fitting.exists_page
  obtain ⟨-, -, -, hr₁, -, -⟩ := touchingRegions_good.simulation hinit .start
  obtain ⟨s, hrun, -⟩ := PageRun.start.exists_allocate hr₁ (n := 2) (g := ⟨2, 2⟩) (by decide)
  exact ⟨s₁, s, _, hinit, hrun, PageRun.wellFormed_of_init touchingRegions_good hinit hrun⟩

end Touching

/-! ### Free groups of a state -/

section Regions

variable [Platform] {regions : List Region} {ps : ℕ} {s₀ s₁ s : PageState} {live : List PageBlock}

/-- The block `b` is one of the free groups of the state: it is linked in one of the lists, and its
size is the group size in its first descriptor. -/
def FreeGroup (s : PageState) (b : PageBlock) : Prop :=
  ∃ i < maxGroupIdx, ∃ xs, IsList (links s.mem) (s.self.freeGroupLists i) xs ∧ b.page ∈ xs ∧
    b.count = flagsGroupSize (s.mem (b.page + 3 * wordBytes))

/-- The free groups of the memory are those of the abstract state. -/
theorem PageRep.freeGroup_iff {L : Layout} {a : Pages} (hr : PageRep L a s)
    (hc : L.count < 2 ^ 21) {b : PageBlock} :
    FreeGroup s b ↔ ∃ g ∈ a.freeGroups, b = blockOf L g := by
  have hsize : ∀ g ∈ a.freeGroups,
      flagsGroupSize (s.mem (L.pageAt g.first + 3 * wordBytes)) = g.size :=
    fun g hg => by
      have hgg := Pages.mem_groups.mpr (Or.inr hg)
      rw [hr.table.flagsGroupSize hgg, hr.inv.cut_eq (hr.count.trans_lt hc) hgg]
  constructor
  · rintro ⟨i, him, xs, hl, hb, hcount⟩
    rw [hl.unique (hr.table.lists i him)] at hb
    obtain ⟨g, hg, hpage⟩ := List.mem_map.mp hb
    have hg' : g ∈ a.freeGroups := Pages.mem_freeGroups.mpr ⟨i, him, hg⟩
    refine ⟨g, hg', ?_⟩
    rw [← hpage, hsize g hg'] at hcount
    cases b
    rw [blockOf, hpage, ← hcount]
  · rintro ⟨g, hg, rfl⟩
    obtain ⟨i, him, hmem⟩ := Pages.mem_freeGroups.mp hg
    exact ⟨i, him, _, hr.table.lists i him, List.mem_map_of_mem hmem, (hsize g hg).symm⟩

/-! ### The regions of groups -/

/-- All pages of the block are pages of one of the regions that the object knows. -/
def OneRegion (s : PageState) (b : PageBlock) : Prop :=
  ∃ r ∈ s.self.regionsInfo, ∀ k < b.count,
    r.alignedStart ≤ s.mem (b.page + k * sizeofPage + 2 * wordBytes) ∧
      s.mem (b.page + k * sizeofPage + 2 * wordBytes) + s.self.pageSize ≤ r.alignedEnd

/-- Of two records that are neighbours in the array, `getRegion` finds different regions for the
last page of the first one and the first page of the second one, or one of these two pages is
reserved for the table. -/
def RegionsApart (infos : List RegionInfo) (ps : ℕ) : Prop :=
  ∀ pre r r' post, infos = pre ++ r :: r' :: post →
    (PageAllocator.configured infos ps).getRegion (r.alignedEnd - ps) =
      (PageAllocator.configured infos ps).getRegion r'.alignedStart →
    pre.length + 1 = (PageAllocator.configured infos ps).descRegionIdx ∨
      pre.length = (PageAllocator.configured infos ps).descRegionIdx ∧
        r.pageCount = reservedPages (PageAllocator.configured infos ps).pagesCount ps

/-- `getRegion` does not depend on the pointers in the records. -/
theorem Fitting.getRegion_configured (h : Fitting regions ps) (x : ℕ) :
    (layout h).config.getRegion x =
      (PageAllocator.configured (accepted ps regions) ps).getRegion x :=
  findIdx?_placeRegions (p := fun a b => a ≤ alignDown x ps && b ≥ alignDown x ps)

/-- Pages that are not reserved and that `getRegion` takes for pages of one region are such. -/
theorem Fitting.sameRegion_of_apart (h : Fitting regions ps)
    (hap : RegionsApart (accepted ps regions) ps) {i : ℕ} (hi : i + 1 < (layout h).count)
    (hglue : (layout h).Glued i)
    (hres : ¬(reservedGroup (accepted ps regions) ps).Covers i)
    (hres' : ¬(reservedGroup (accepted ps regions) ps).Covers (i + 1)) :
    (layout h).SameRegion i := by
  obtain ⟨pre, r, post, k, hs, rfl, hk, hk' | ⟨r', post', rfl, hk', hpos, hs', hidx⟩⟩ :=
    h.exists_next hi
  · rw [Layout.SameRegion, Nat.add_assoc, h.regionOf_split hs hk, h.regionOf_split hs hk']
  · exfalso
    have hlast : r.alignedStart + k * ps = r.alignedEnd - ps := by
      rw [h.alignedEnd_eq (region_mem hs), ← hk', Nat.succ_mul]
      omega
    rw [Layout.Glued, hidx, h.addr_split hs hk, h.addr_split hs' hpos,
      Nat.zero_mul, Nat.add_zero, hlast, h.getRegion_configured, h.getRegion_configured] at hglue
    have hfirst : (reservedGroup (accepted ps regions) ps).first =
      pageSum ((accepted ps regions).take
        (PageAllocator.configured (accepted ps regions) ps).descRegionIdx) := rfl
    have hrpos := h.reserved.2.1
    rcases hap pre r r' post' hs hglue with hd | ⟨hd, hfull⟩
    · -- the second page is the first reserved one
      apply hres'
      have htake : (accepted ps regions).take
          (PageAllocator.configured (accepted ps regions) ps).descRegionIdx = pre ++ [r] := by
        rw [← hd, hs', List.take_left' (by simp)]
      rw [htake] at hfirst
      exact ⟨by omega, by omega⟩
    · -- all pages of the first region are reserved
      apply hres
      have htake : (accepted ps regions).take
          (PageAllocator.configured (accepted ps regions) ps).descRegionIdx = pre := by
        rw [← hd, hs, List.take_left' rfl]
      have hsize : (reservedGroup (accepted ps regions) ps).size = r.pageCount := hfull.symm
      rw [htake] at hfirst
      exact ⟨by omega, by omega⟩

/-- The pages of a group of one region are pages of one of the records. -/
theorem Fitting.oneRegion (h : Fitting regions ps) {a : Pages} (hr : PageRep (layout h) a s)
    {g : Group} (hpos : 0 < g.size) (hstop : g.first + g.size ≤ (layout h).count)
    (hun : Pages.Uncut (layout h).SameRegion g) : OneRegion s (blockOf (layout h) g) := by
  have hcount := h.layout_count
  have hsame : ∀ k < g.size, regionOf (layout h).config.regionsInfo (g.first + k) =
      regionOf (layout h).config.regionsInfo g.first := by
    intro k hk
    induction k with
    | zero => rfl
    | succ k ih =>
      rw [← ih (by omega)]
      exact (hun (g.first + k) ⟨by omega, by omega⟩ ⟨by omega, by omega⟩).symm
  obtain ⟨pre, r, post, j, hs, hfirst, hj⟩ :=
    exists_region (show g.first < pageSum (accepted ps regions) by omega)
  obtain ⟨r', hr', hstart, hend⟩ := exists_place (region_mem hs) 0 (layout h).config.pagesHead
  have hinfos : s.self.regionsInfo =
      placeRegions (layout h).config.pagesHead 0 (accepted ps regions) := by
    rw [hr.config]
    rfl
  refine ⟨r', hinfos ▸ hr', fun k hk => ?_⟩
  have hk : k < g.size := hk
  obtain ⟨pre', q, post', j', hs', hidx, hj'⟩ :=
    exists_region (show g.first + k < pageSum (accepted ps regions) by omega)
  -- both pages are pages of the same region
  have hlen : pre'.length = pre.length := by
    have := hsame k hk
    rwa [hidx, hfirst, h.regionOf_split hs' hj', h.regionOf_split hs hj] at this
  obtain ⟨rfl, htail⟩ := List.append_inj (hs'.symm.trans hs) hlen
  obtain ⟨rfl, -⟩ := List.cons.inj htail
  have haddr : s.mem ((layout h).pageAt g.first + k * sizeofPage + 2 * wordBytes) =
      q.alignedStart + j' * ps := by
    rw [← Layout.pageAt_add, hr.addr (by omega), hidx, h.addr_split hs' hj']
  have hps : s.self.pageSize = ps := by
    rw [hr.config]
    rfl
  simp only [blockOf, haddr, hps, hstart, hend]
  exact ⟨Nat.le_add_right _ _, h.page_le hs' hj'⟩

/-- When neighbouring regions are told apart, every free group and every allocated group consists
of pages of one region, in every run. -/
theorem PageRun.oneRegion_of_apart (hg : GoodArguments regions ps)
    (hap : RegionsApart (accepted ps regions) ps)
    (hinit : PageAllocator.init regions ps s₀ = .ok (true, s₁)) (hrun : PageRun s₁ s live)
    {b : PageBlock} (hb : FreeGroup s b ∨ b ∈ live) : OneRegion s b := by
  obtain ⟨a, gs, hreach, hr₁, hr, rfl⟩ := hg.simulation hinit hrun
  have h := hg.fitting hinit
  have hcount := hr₁.count
  have hclosed := Pages.closed_uncut (L := layout h) (J := (layout h).SameRegion)
    (R := fun i => (layout h).count ≤ i ∨ (reservedGroup (accepted ps regions) ps).Covers i)
    fun i hglue hi hi' => by
      simp only [not_or, Nat.not_le] at hi hi'
      exact h.sameRegion_of_apart hap hi'.1 hglue hi.2 hi'.2
  have hall := hreach.forall_groups hr₁.inv hclosed fun g hgf => by
    have hgg := Pages.mem_groups.mpr (Or.inr hgf)
    refine ⟨fun i hcov => ?_, h.uncut_initial hgf⟩
    rw [not_or, Nat.not_le]
    refine ⟨hcount ▸ hr₁.inv.tiles.lt_of_covers hgg hcov, fun hcov' => ?_⟩
    have hru : reservedGroup (accepted ps regions) ps ∈
        (Pages.initial (accepted ps regions) ps).used := by
      rw [h.used_initial]
      exact List.mem_cons_self
    have := hr₁.inv.tiles.eq_of_covers hgg (Pages.mem_groups.mpr (Or.inl hru)) hcov hcov'
    subst this
    exact (List.nodup_append.mp hr₁.inv.tiles.nodup).2.2 _ hru _ hgf rfl
  rcases hb with hb | hb
  · obtain ⟨g, hgf, rfl⟩ := (hr.freeGroup_iff (hg.count_lt hinit)).mp hb
    have hgg := Pages.mem_groups.mpr (Or.inr hgf)
    exact h.oneRegion hr (hr.inv.tiles.size_pos hgg) (hr.stop_le hgg) (hall.1 g hgf).2
  · obtain ⟨g, hgs, rfl⟩ := List.mem_map.mp hb
    have hgg := Pages.mem_groups.mpr (Or.inl (hreach.mem_used hr₁.inv hgs))
    exact h.oneRegion hr (hr.inv.tiles.size_pos hgg) (hr.stop_le hgg) (hall.2 g hgs).2

end Regions

section Touching

attribute [local instance] lp64

/-- The same two regions with the second one first in the array. -/
def turnedRegions : List Region := [⟨4608, 512⟩, ⟨4096, 512⟩]

/-- `init` may be called with the two regions. -/
theorem turnedRegions_fitting : Fitting turnedRegions 256 :=
  ⟨⟨8, by decide, by decide, rfl⟩, ⟨by decide, by decide, by decide⟩, by decide, by decide,
    by decide, by decide⟩

/-- The regions are good arguments. -/
theorem turnedRegions_good : GoodArguments turnedRegions 256 :=
  ⟨by decide, turnedRegions_fitting.valid, show ∀ r ∈ turnedRegions, 0 < r.address by decide,
    by decide, turnedRegions_fitting.table⟩

/-- When the first page of the second region is allocated and released, it is joined with the last
page of the first region, and then both are handed out as one group. -/
theorem exists_crossing : GoodArguments touchingRegions 256 ∧ ∃ s₁ s b,
    PageAllocator.init touchingRegions 256 blankPages = .ok (true, s₁) ∧ PageRun s₁ s [b] ∧
      ¬OneRegion s b := by
  refine ⟨touchingRegions_good, ?_⟩
  obtain ⟨s₁, hinit⟩ := touchingRegions_good.init_returns blankPages
    touchingRegions_fitting.pageSize touchingRegions_fitting.entries
    touchingRegions_fitting.exists_page
  obtain ⟨-, -, -, hr₁, -, -⟩ := touchingRegions_good.simulation hinit .start
  have hr₁ : PageRep (layout touchingRegions_fitting) _ s₁ := hr₁
  obtain ⟨s₂, hrun₂, hr₂⟩ := PageRun.start.exists_allocate hr₁ (n := 1) (g := ⟨2, 1⟩) (by decide)
  obtain ⟨s₃, hrun₃, hr₃⟩ := hrun₂.exists_release hr₂ (by decide) List.mem_cons_self
  rw [List.erase_cons_head] at hrun₃
  obtain ⟨s, hrun, hr⟩ := hrun₃.exists_allocate hr₃ (n := 2) (g := ⟨1, 2⟩) (by decide)
  refine ⟨s₁, s, _, hinit, hrun, ?_⟩
  rintro ⟨r, hr', hpages⟩
  have hfirst := (hpages 0 Nat.zero_lt_two).1
  have hlast := (hpages 1 Nat.one_lt_two).2
  have hinfos : s.self.regionsInfo = (layout touchingRegions_fitting).config.regionsInfo := by
    rw [hr.config]
  have hps : s.self.pageSize = 256 := by
    rw [hr.config]
    rfl
  simp only [blockOf] at hfirst hlast
  rw [← Layout.pageAt_add, hr.addr (by decide)] at hfirst hlast
  rw [hps] at hlast
  rw [hinfos] at hr'
  have hnone : ∀ r ∈ (layout touchingRegions_fitting).config.regionsInfo,
      ¬(r.alignedStart ≤ (layout touchingRegions_fitting).addr 1 ∧
        (layout touchingRegions_fitting).addr 2 + 256 ≤ r.alignedEnd) := by decide
  exact hnone r hr' ⟨hfirst, hlast⟩

end Touching

end Liballocator
