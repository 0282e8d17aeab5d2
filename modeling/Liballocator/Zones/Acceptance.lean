import Liballocator.Pages.Exact
import Liballocator.Pages.Reserved
import Liballocator.Zones.WellFormed

/-!
# Which memory the allocator accepts

The table never takes the last page when there are at least two (`Fitting.reservedPages_lt_iff`), so
`init` succeeds exactly on memory with two pages (`init_iff`).  The page of the initial zone is one
of those that are not reserved, and the zone is a pool whose chunks are all free
(`ZoneAllocator.init_pool`); neither needs pages of at most 4096 bytes.
-/

namespace Liballocator

open Program LinkedList Tiling

section Acceptance

variable [Platform] {L : Layout} {a₀ a : Pages} {g : Group} {s : State} {regions : List Region}
  {ps : ℕ}

/-! ### A page for the initial zone -/

/-- The pages of the regions are those that `init` counts. -/
theorem ValidRegions.sum_card (hv : ValidRegions regions) (h : ValidPageSize ps) :
    (regions.map fun r => (r.wholePages ps).card).sum = pageSum (accepted ps regions) := by
  have hlen := congrArg List.length (hv.pagesInOrder_eq h)
  simpa [pagesInOrder, List.length_flatMap, pageSum, RegionInfo.pages, Function.comp_def] using hlen

namespace Fitting

variable (h : Fitting regions ps)

include h

/-- The table leaves a page over exactly when there are two pages. -/
theorem reservedPages_lt_iff :
    reservedPages (layout h).count ps < (layout h).count ↔ 2 ≤ (layout h).count := by
  have hpos : 0 < reservedPages (layout h).count ps := h.reserved.2.1
  constructor
  · intro hlt
    omega
  · intro htwo
    obtain ⟨n, hn⟩ := Nat.exists_eq_add_of_le' htwo
    have hle : (n + 2) * sizeofPage ≤ (n + 1) * ps := calc
      (n + 2) * sizeofPage ≤ ((n + 1) * 2) * sizeofPage := Nat.mul_le_mul_right _ (by omega)
      _ = (n + 1) * (2 * sizeofPage) := Nat.mul_assoc _ _ _
      _ ≤ (n + 1) * ps := Nat.mul_le_mul_left _ h.pageSize.two_sizeofPage_le
    have := (roundUp_le_iff h.pageSize.pos).mpr hle
    rw [hn, reservedPages]
    omega

/-- There is a page for the initial zone exactly when there are two pages. -/
theorem exists_allocate_iff (hi : (Pages.initial (accepted ps regions) ps).Inv)
    (hc : (Pages.initial (accepted ps regions) ps).count = (layout h).count)
    (hfew : (layout h).count < 2 ^ 21) :
    (∃ g, ((Pages.initial (accepted ps regions) ps).allocate 1).1 = some g) ↔
      2 ≤ (layout h).count := by
  have hsum := hi.tiles.sum_size
  rw [Pages.groups, h.used_initial, List.singleton_append, List.map_cons, List.sum_cons, hc] at hsum
  have hsize : (reservedGroup (accepted ps regions) ps).size = reservedPages (layout h).count ps :=
    rfl
  rw [hi.exists_allocate_iff (hc.trans_lt hfew), ← h.reservedPages_lt_iff]
  constructor
  · rintro ⟨-, g, hg, hle⟩
    have := List.single_le_sum (by simp) _ (List.mem_map_of_mem (f := Span.size) hg)
    omega
  · intro hlt
    refine ⟨Nat.one_pos, ?_⟩
    have hne : (Pages.initial (accepted ps regions) ps).freeGroups ≠ [] := by
      intro he
      rw [he, List.map_nil, List.sum_nil] at hsum
      omega
    obtain ⟨g, hg⟩ := List.exists_mem_of_ne_nil _ hne
    exact ⟨g, hg, hi.tiles.size_pos (Pages.mem_groups.mpr (Or.inr hg))⟩

end Fitting

/-! ### The initial zone -/

/-- The initial zone, a page outside of the table and the descriptor of that page. -/
theorem Layout.Sound.poolPlace (hL : L.Sound) {p : ℕ} (hp : p < L.count)
    (hout : L.addr p + L.pageSize ≤ L.pageAt 0 ∨ L.pageAt L.count ≤ L.addr p) :
    PoolPlace initialZone (L.pageAt p) (L.addr p) L.pageSize (classSize descIdx) := by
  have hpage := Layout.pageAt_lt_pageAt (L := L) hp
  have hfirst := Layout.pageAt_le_pageAt (L := L) (Nat.zero_le p)
  have hend := Layout.pageAt_lt (L := L) le_rfl
  have hadd := hL.addr_add_lt p hp
  have hdesc := sizeofZone_le
  have hsmall := classSize_descIdx_le
  have hps := hL.pageSize.le
  have hw := wordBytes_pos
  refine ⟨(Nat.two_pow_pos _).ne', Layout.pageAt_ne_zero p, (hL.addr_pos p hp).ne', hadd.le, ?_,
    by omega, Or.inr hadd.le, by omega, Or.inr (by unfold initialZone; omega)⟩
  unfold sizeofZone at hdesc
  unfold sizeofListNode
  omega

/-- The initial zone is the only one when the other lists are empty. -/
theorem State.isZone_initial
    (hhead : ∀ i, (s.self.zones i).head = if i = descIdx then initialZone else 0)
    (hlist : IsList (links s.mem) initialZone [initialZone]) (z : ℕ) :
    s.IsZone z ↔ z = initialZone := by
  constructor
  · rintro ⟨i, -, l, hl, hz⟩
    rw [hhead] at hl
    split_ifs at hl with hi
    · rw [hl.unique hlist] at hz
      exact List.mem_singleton.mp hz
    · rw [hl.unique (isList_nil_iff.mpr rfl)] at hz
      exact absurd hz List.not_mem_nil
  · rintro rfl
    refine ⟨descIdx, descIdx_lt, _, ?_, List.mem_singleton_self _⟩
    rwa [hhead, if_pos rfl]

/-- The first zone is the only one. -/
theorem ZoneAllocator.addZone_initial
    (hsize : s.mem (initialZone + 3 * wordBytes) = classSize descIdx)
    (hzones : s.self.zones = fun _ => {}) (hnext : s.mem initialZone = 0)
    (hprev : s.mem (initialZone + wordBytes) = 0) :
    wp (addZone initialZone) (fun _ s' => s'.pages.self = s.pages.self ∧
      (∀ z, s'.IsZone z ↔ z = initialZone) ∧
      ∀ x, x ≠ initialZone → x ≠ initialZone + wordBytes → s'.mem x = s.mem x) s := by
  have hne : initialZone ≠ 0 := (Nat.two_pow_pos _).ne'
  have hapart : NodesApart {x | x ∈ [initialZone]} := by
    apply nodesApart_of_dvd
    intro x hx
    rw [List.mem_singleton.mp hx]
    exact sixteen_dvd_initialZone
  simp only [addZone, wp_bind, wp_assert, wp_liftMem', Zone.wp_chunkSize, hsize,
    zoneIdx_classSize (descIdx_lt.trans maxZoneIdx_lt),
    wp_zoneInfoAt, wp_setZoneInfoAt, Zone.wp_freeChunksCount, hzones]
  refine ⟨hne, hne, descIdx_lt, (ListNode.addToList_isList (isList_nil_iff.mpr rfl) hapart hne
    List.not_mem_nil hnext hprev).mono ?_⟩
  rintro head m ⟨rfl, hlist, hfr⟩
  refine ⟨descIdx_lt, descIdx_lt, hne, descIdx_lt, descIdx_lt, trivial,
    State.isZone_initial (fun i => ?_) hlist, fun x h₁ h₂ => ?_⟩
  · by_cases hi : i = descIdx <;> simp [hi]
  · apply hfr x
    rintro ⟨n, hn, hx⟩
    rw [List.mem_singleton.mp hn] at hx
    exact hx.elim h₁ h₂

/-- With a free page `init` of the zone allocator succeeds, and the initial zone is a pool whose
chunks are all free. -/
theorem ZoneAllocator.init_pool (hL : L.Sound) (hp : PageRep L a₀ s.pages)
    (hal : a₀.allocate 1 = (some g, a)) (hlt : g.first < L.count)
    (hout : L.addr g.first + L.pageSize ≤ L.pageAt 0 ∨ L.pageAt L.count ≤ L.addr g.first) :
    wp (ZoneAllocator.init L.pageSize) (fun ok s' => ok = true ∧ PageRep L a s'.pages ∧
      (∀ z, s'.IsZone z ↔ z = initialZone) ∧
      ∃ free, PoolInv initialZone (L.pageAt g.first) (L.addr g.first) L.pageSize
        (classSize descIdx) s'.mem free []) s := by
  have hplace := hL.poolPlace hlt hout
  have hne := hplace.zone_ne_zero
  have hz : ZoneData.Fits L ⟨g.first, descIdx, []⟩ :=
    ⟨hlt, by have := classSize_descIdx_le; have := hL.pageSize.le; simp only; omega⟩
  have hchunk : ∀ x ∈ ZoneData.chunks L ⟨g.first, descIdx, []⟩, ∀ j < 2,
      x + j * wordBytes ∉ L.table := by
    rintro x hx j hj ⟨h₁, h₂⟩
    have hb : L.addr g.first ≤ x ∧ x + classSize descIdx ≤ L.addr g.first + L.pageSize :=
      chunksFrom_page hx
    have hl := hplace.link_lt (x := x) hj
    omega
  apply ZoneAllocator.init_enter
  intro m hm
  have hp₁ : PageRep L a₀ { s.pages with mem := m } := hp.congr_mem fun x hx =>
    hm x fun _ _ he => initialZone_notMem_table (he ▸ hx)
  simp only [wp_bind]
  refine (initZone_some hp₁ hL rfl rfl hne hal hz (fun _ _ => initialZone_notMem_table) hchunk
    fun x hx => hplace.fieldsApart hx).mono ?_
  rintro _ s' ⟨rfl, hself, hp', hrep, hnext, hprev, -⟩
  simp only [Bool.not_true, Bool.false_eq_true, if_false, wp_bind, wp_pure]
  apply (addZone_initial hrep.chunkSize (by rw [hself]; rfl) hnext hprev).mono
  rintro _ s'' ⟨hobject, hzone, hfr⟩
  have hpages : PageRep L a s''.pages := hp'.congr hobject fun x hx => hfr x
    (fun he => initialZone_notMem_table (k := 0) (by simpa [he] using hx))
    (fun he => initialZone_notMem_table (k := 1) (by simpa [he] using hx))
  refine ⟨trivial, hpages, hzone, _, ⟨(zoneRep_iff.mp hrep).congr (fun k hk _ => ?_) fun x hx => ?_,
    hpages.addr hlt, ?_⟩⟩
  · have hw := wordBytes_pos
    have hmul := Nat.mul_le_mul_right wordBytes hk
    exact hfr _ (by omega) (by omega)
  · have hb : L.addr g.first ≤ x ∧ x + classSize descIdx ≤ L.addr g.first + L.pageSize :=
      chunksFrom_page (List.mem_reverse.mp hx)
    have hl := hplace.link_lt (x := x) (j := 1) (by omega)
    have hadd := hplace.addr_add_le
    unfold initialZone at hfr
    exact ⟨hfr _ (by omega) (by omega), hfr _ (by omega) (by omega)⟩
  · rw [List.append_nil]
    exact List.reverse_perm _

/-! ### `init` -/

/-- The initial zone is the only one.  Its page is page number `i`, one of those that are not
reserved, and its chunks are all free; the other pages that are not reserved are free. -/
structure State.Fresh (s : State) (ps i : ℕ) (free : List ℕ) : Prop where
  lt : i < s.pages.self.pagesCount
  outside : s.pages.address i + ps ≤ s.pages.self.pagesHead ∨
    s.pages.self.pagesTail + sizeofPage ≤ s.pages.address i
  used : s.pages.isUsed i = true
  counts : s.pages.self.freePagesCount + s.pages.self.descPagesCount + 1 = s.pages.self.pagesCount
  page : s.zonePage initialZone = s.pages.descriptor i
  zones : ∀ z, s.IsZone z ↔ z = initialZone
  pool : PoolExact initialZone (s.pages.address i) ps (Liballocator.chunkSize sizeofZone)
    s.mem free []

/-- The page of the initial zone is one of those that are not reserved. -/
theorem Fitting.initial_outside (h : Fitting regions ps)
    (hi : (Pages.initial (accepted ps regions) ps).Inv)
    (hc : (Pages.initial (accepted ps regions) ps).count = (layout h).count)
    (hfew : (layout h).count < 2 ^ 21)
    (hal : (Pages.initial (accepted ps regions) ps).allocate 1 = (some g, a)) :
    g.first < (layout h).count ∧ ((layout h).addr g.first + ps ≤ (layout h).pageAt 0 ∨
      (layout h).pageAt (layout h).count ≤ (layout h).addr g.first) := by
  obtain ⟨hsize, hlt, hused, hia, -⟩ := hi.allocate_one h.used_initial (hc.trans_lt hfew) hal
  rw [hc] at hlt
  refine ⟨hlt, h.table_apart hlt fun hcov => ?_⟩
  have hmem : ∀ x ∈ [g, reservedGroup (accepted ps regions) ps], x ∈ a.groups := fun x hx =>
    Pages.mem_groups.mpr (Or.inl (hused ▸ hx))
  have he := hia.tiles.eq_of_covers (hmem _ (by simp)) (hmem _ (by simp)) (i := g.first)
    ⟨le_rfl, by omega⟩ hcov
  have hnd : a.used.Nodup := hia.tiles.nodup.of_append_left
  rw [hused, he] at hnd
  exact absurd hnd (by simp)

/-- What `init` leaves. -/
theorem Fitting.fresh (h : Fitting regions ps)
    (hi : (Pages.initial (accepted ps regions) ps).Inv)
    (hc : (Pages.initial (accepted ps regions) ps).count = (layout h).count)
    (hfew : (layout h).count < 2 ^ 21)
    (hal : (Pages.initial (accepted ps regions) ps).allocate 1 = (some g, a))
    (hL : (layout h).Sound) (hp : PageRep (layout h) a s.pages)
    (hzones : ∀ z, s.IsZone z ↔ z = initialZone) {free : List ℕ}
    (hpool : PoolInv initialZone ((layout h).pageAt g.first) ((layout h).addr g.first) ps
      (classSize descIdx) s.mem free []) : s.Fresh ps g.first free := by
  obtain ⟨hlt, hout⟩ := h.initial_outside hi hc hfew hal
  obtain ⟨hsize, -, hused, hia, hca⟩ := hi.allocate_one h.used_initial (hc.trans_lt hfew) hal
  have hdesc := PageState.descriptor_eq hp.config
  have haddr := hp.address_eq hlt
  have hcount : s.pages.self.pagesCount = (layout h).count := by rw [hp.config]
  refine ⟨hcount ▸ hlt, ?_, ?_, ?_, ?_, hzones, ?_⟩
  · rw [← Layout.head_eq, ← Layout.tail_add] at hout
    rw [haddr, hp.config]
    exact hout
  · rw [PageState.isUsed, hdesc]
    exact hp.table.used g (by rw [hused]; simp) _ ⟨le_rfl, by omega⟩
  · have hsum := hia.tiles.sum_size
    have hfree := hp.table.freeCount.trans (hia.freeCount_eq (hca.trans_lt (hc.trans_lt hfew)))
    have hdescs : s.pages.self.descPagesCount = (reservedGroup (accepted ps regions) ps).size := by
      rw [hp.config]
      rfl
    simp only [Pages.groups, hused, List.map_append, List.map_cons, List.map_nil, List.sum_append,
      List.sum_cons, List.sum_nil, hca, hc] at hsum
    rw [hfree, hdescs, hcount]
    omega
  · rw [State.zonePage, hpool.rep.page, hdesc]
  · rw [haddr, chunkSize_sizeofZone]
    exact hpool.exact (hL.poolPlace hlt hout)

/-- `init` accepts exactly the page sizes that are powers of two from 128 on, with at most eight
regions that have two pages together; then a page is left when the table has been reserved, and the
initial zone is in such a page. -/
theorem init_iff (hlt : ps < 2 ^ width) (hv : ValidRegions regions)
    (hg : ValidPageSize ps → regions.length ≤ maxRegionsCount → GoodArguments regions ps)
    (s₀ : State) :
    ∃ ok s₁, init regions ps s₀ = .ok (ok, s₁) ∧
      (ok = true ↔ ValidPageSize ps ∧ regions.length ≤ maxRegionsCount ∧
        2 ≤ (regions.map fun r => (r.wholePages ps).card).sum) ∧
      (ok = true → s₁.pages.self.descPagesCount < s₁.pages.self.pagesCount ∧
        ∃ i free, s₁.Fresh ps i free) := by
  by_cases hgood : ValidPageSize ps ∧ regions.length ≤ maxRegionsCount ∧ accepted ps regions ≠ []
  · obtain ⟨hps, hlen, hne⟩ := hgood
    have hgood := hg hps hlen
    have hu := Usable.of_nonZero hps hv hgood.nonZero hlen hne hgood.table
    have h := hu.toFitting
    have hfew : (layout h).count < 2 ^ 21 := h.layout_count ▸ hgood.few
    have key : wp (init regions ps) (fun ok s' => (ok = true ↔ 2 ≤ (layout h).count) ∧
        (ok = true → s'.pages.self.descPagesCount < s'.pages.self.pagesCount ∧
          ∃ i free, s'.Fresh ps i free)) s₀ := by
      simp only [init, wp_bind, wp_liftPages]
      refine clear_spec.mono fun _ _ _ => (PageAllocator.init_spec h
        (pageCount_lt hgood.few)).mono ?_
      rintro _ p ⟨rfl, hp, -⟩
      simp only [Bool.not_true, Bool.false_eq_true, if_false]
      have hex := h.exists_allocate_iff hp.inv hp.count hfew
      rcases hal : (Pages.initial (accepted ps regions) ps).allocate 1 with ⟨_ | g, a⟩
      · rw [hal] at hex
        apply (ZoneAllocator.init_none (L := layout h) hp hal).mono
        rintro _ s' ⟨rfl, -⟩
        rw [← hex]
        simp
      · rw [hal] at hex
        obtain ⟨hlt, hout⟩ := h.initial_outside hp.inv hp.count hfew hal
        apply (ZoneAllocator.init_pool hu.sound hp hal hlt hout).mono
        rintro _ s' ⟨rfl, hp', hzones, free, hpool⟩
        have htwo := hex.mp ⟨g, rfl⟩
        refine ⟨iff_of_true rfl htwo, fun _ => ⟨?_, g.first, free, ?_⟩⟩
        · rw [hp'.config]
          exact h.reservedPages_lt_iff.mpr htwo
        · exact h.fresh hp.inv hp.count hfew hal hu.sound hp' hzones hpool
    obtain ⟨ok, s₁, hrun, hiff, hfresh⟩ := key
    refine ⟨ok, s₁, hrun, ?_, hfresh⟩
    rw [hiff, hv.sum_card hps, h.layout_count]
    exact ⟨fun h2 => ⟨hps, hlen, h2⟩, fun h2 => h2.2.2⟩
  · obtain ⟨ok, s₁, hrun, rfl⟩ := init_refuses (s := s₀) hlt hv hgood
    refine ⟨_, s₁, hrun, ⟨fun hc => absurd hc (by simp), ?_⟩, fun hc => absurd hc (by simp)⟩
    rintro ⟨hps, hlen, h2⟩
    refine absurd ⟨hps, hlen, ?_⟩ hgood
    rw [hv.sum_card hps] at h2
    rintro he
    rw [he, pageSum_nil] at h2
    omega

end Acceptance

section Lp64

attribute [local instance] lp64

/-- Two pages of 8192 bytes are enough. -/
theorem init_iff_two : ∃ ok s₁, init [⟨8192, 16384⟩] 8192 blankState = .ok (ok, s₁) ∧
    (ok = true ↔ ValidPageSize 8192 ∧ [(⟨8192, 16384⟩ : Region)].length ≤ maxRegionsCount ∧
      2 ≤ ([⟨8192, 16384⟩].map fun r : Region => (r.wholePages 8192).card).sum) ∧
    (ok = true → s₁.pages.self.descPagesCount < s₁.pages.self.pagesCount ∧
      ∃ i free, s₁.Fresh 8192 i free) := by
  have hv : ValidRegions [⟨8192, 16384⟩] := ⟨by decide, by decide, by decide⟩
  exact init_iff (by decide) hv (fun _ _ => ⟨by decide, hv, by simp [NonZero], by decide,
    by decide⟩) blankState

end Lp64

end Liballocator
