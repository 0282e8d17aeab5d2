import Liballocator.Zones.Blocks
import Liballocator.Allocator

/-!
# The initialised allocator

After `init` the only zone is the initial one, in the first page of the smallest group that is large
enough, and all its chunks are free (`Heap.initial`).  `Site` collects what the calls after `init`
rely on; `Usable.site` provides it for usable arguments.
-/

namespace Liballocator

open Program LinkedList Tiling Ownership

variable [Platform]

/-- The memory of the zone allocator with the groups `a₀` that `init` of the page allocator leaves:
only the reserved group `r` is used. -/
structure Site (L : Layout) (r : Group) (a₀ : Pages) : Prop extends Arena L r where
  placed : L.Placed
  inv : a₀.Inv
  count : a₀.count = L.count
  small : L.count < 2 ^ 21
  used : a₀.used = [r]
  reserved : Pages.Uncut L.Adjacent r
  adjacent : ∀ g ∈ a₀.freeGroups, Pages.Uncut L.Adjacent g

variable {L : Layout} {r g : Group} {a₀ a : Pages} {H : Heap} {s : State}

/-! ### The initial heap -/

namespace Heap

/-- A heap without zones. -/
def empty (a : Pages) : Heap := { pages := a, lists := fun _ => [], zone := fun _ => ⟨0, 0, []⟩ }

/-- The heap whose only zone is the initial one. -/
def initial (L : Layout) (a : Pages) (page : ℕ) : Heap :=
  (empty a).addZone L initialZone descIdx page

omit [Platform] in
/-- At first there is no zone. -/
@[simp] theorem descs_empty : (empty a).descs = [] := by
  simp [descs, empty]

/-- `init` sets up one zone. -/
theorem descs_initial {p : ℕ} : (initial L a p).descs = [initialZone] := by
  have h := descs_addZone (L := L) (H := empty a) (d := initialZone) (p := p) descIdx_lt
  rw [descs_empty] at h
  exact List.perm_singleton.mp h

/-- All chunks of the initial zone are free. -/
theorem zone_initial {p : ℕ} : (initial L a p).zone initialZone =
    ⟨p, descIdx, (ZoneData.chunks L ⟨p, descIdx, []⟩).reverse⟩ := zone_addZone_self

/-- No chunk is taken. -/
theorem taken_initial {p : ℕ} : (initial L a p).taken L = [] := by
  rw [taken, descs_initial, List.flatMap_singleton, zone_initial, taken_fresh]

/-- The initial zone is in the list for descriptors. -/
theorem lists_initial {p : ℕ} : (initial L a p).lists descIdx = [initialZone] :=
  Function.update_self _ _ _

/-- The free chunks are those of the initial zone. -/
theorem freeCount_initial {p : ℕ} :
    (initial L a p).freeCount descIdx = L.pageSize / classSize descIdx := by
  rw [freeCount, freeChunks, lists_initial, List.flatMap_singleton, zone_initial,
    List.length_reverse, ZoneData.length_chunks]
  rfl

end Heap

omit [Platform] in
/-- The first page that is taken besides the group `r`. -/
theorem Pages.Inv.allocate_one (hi : a₀.Inv) (hused : a₀.used = [r]) (hc : a₀.count < 2 ^ 21)
    (hal : a₀.allocate 1 = (some g, a)) :
    g.size = 1 ∧ g.first < a₀.count ∧ a.used = [g, r] ∧ a.Inv ∧ a.count = a₀.count := by
  have hused' := Pages.used_allocate (n := 1) hi
  have hi' := hi.allocate (n := 1)
  have hcount := Pages.count_allocate (a := a₀) (n := 1)
  have hsize : g.size = 1 := size_of_allocate (a := a₀) hi hc (by rw [hal])
  rw [hal, hused] at hused'
  rw [hal] at hi' hcount
  have hg : g ∈ a.groups := Pages.mem_groups.mpr (Or.inl (by rw [hused']; simp))
  have hlt := hi'.tiles.lt_of_covers hg (i := g.first) ⟨le_rfl, by omega⟩
  exact ⟨hsize, hcount ▸ hlt, hused', hi', hcount⟩

namespace Site

variable (S : Site L r a₀) (hal : a₀.allocate 1 = (some g, a))

include S hal

/-- The page of the initial zone. -/
theorem initial_page : g.size = 1 ∧ g.first < L.count ∧ a.used = [g, r] ∧ a.Inv ∧
    a.count = L.count :=
  S.count ▸ S.inv.allocate_one S.used (S.count.trans_lt S.small) hal

/-- The initial heap is well formed, and nobody holds anything. -/
theorem wf_initial : (Heap.initial L a g.first).Wf L r [] [] := by
  obtain ⟨hsize, hlt, hused, hi, hcount⟩ := S.initial_page hal
  have hdescs := Heap.descs_initial (L := L) (a := a) (p := g.first)
  have hmem : ∀ {d}, d ∈ (Heap.initial L a g.first).descs → d = initialZone := fun hd => by
    rwa [hdescs, List.mem_singleton] at hd
  refine ⟨hi, hcount, S.small, ?_, fun i hi d hd => ?_, fun d hd => ?_, fun d hd => ?_,
    fun d hd c hc => ?_, ?_, ?_, ?_, fun d hd hne => absurd (hmem hd) hne⟩
  · rw [hdescs]
    exact List.nodup_singleton _
  · have hd' := hmem (Heap.mem_descs.mpr ⟨i, hi, hd⟩)
    subst hd'
    by_cases hid : i = descIdx
    · rw [Heap.zone_initial, hid]
    · simp [Heap.initial, Heap.addZone, Heap.empty, hid] at hd
  · rw [hmem hd, Heap.zone_initial]
    exact ⟨hlt, S.descSize_lt⟩
  · rw [hmem hd, Heap.zone_initial]
    exact List.nodup_reverse.mpr ZoneData.nodup_chunks
  · rw [hmem hd, Heap.zone_initial] at hc ⊢
    exact List.mem_reverse.mp hc
  · have hgroup : (Heap.initial L a g.first).pageGroup initialZone = g := by
      rw [Heap.pageGroup, Heap.zone_initial, ← hsize]
    rw [hdescs, List.map_singleton, hgroup, List.append_nil]
    exact (List.Perm.of_eq hused).trans (List.Perm.swap _ _ _)
  · rw [Heap.taken_initial, hdescs, List.append_nil, List.erase_cons_head]
  · rw [Heap.lists_initial]
    exact grounded_singleton

/-- The initial heap serves users that hold no block. -/
theorem serves_initial : Serves L r a₀ (Heap.initial L a g.first) [] [] := by
  refine ⟨S.wf_initial hal, fun d hd hne => ?_, ?_, fun b hb => absurd hb List.not_mem_nil,
    fun b hb => absurd hb List.not_mem_nil, ?_, ?_⟩
  · rw [Heap.descs_initial, List.mem_singleton] at hd
    exact absurd hd hne
  · rw [Heap.freeCount_initial]
    exact Nat.div_pos S.descSize_lt.le (classSize_pos _)
  · have h := Pages.Steps.refl (L := L) (r := r) (a := a₀) |>.allocate 1
    rwa [hal] at h
  · rw [Heap.zone_initial, Pages.rootPage, hal]
    rfl

end Site

/-! ### `init` -/

/-- An object without zones represents a heap without zones. -/
theorem HeapRep.empty (hp : PageRep L a s.pages)
    (hself : s.self = ZoneAllocator.configured L.pageSize fun _ => {}) :
    HeapRep L (Heap.empty a) s := by
  refine ⟨hp, by rw [hself]; rfl, fun i _ => ?_, fun i _ => ?_, fun d hd => ?_⟩
  · rw [hself]
    simp [ZoneAllocator.configured, Heap.freeCount, Heap.freeChunks, Heap.empty]
  · rw [hself]
    exact isList_nil_iff.mpr rfl
  · rw [Heap.descs_empty] at hd
    exact absurd hd List.not_mem_nil

/-- `clear` and the assignments of `init` lead to an object without zones. -/
theorem ZoneAllocator.init_enter {pageSize : ℕ} {Q : Bool → State → Prop}
    (hQ : ∀ m, (∀ a, (∀ k < 7, a ≠ initialZone + k * wordBytes) → m a = s.mem a) →
      wp (do
        if !(← initZone initialZone (classSize descIdx)) then return false
        addZone initialZone
        return true) Q
        { self := configured pageSize fun _ => {}, pages := { s.pages with mem := m } }) :
    wp (ZoneAllocator.init pageSize) Q s := by
  have hne : initialZone ≠ 0 := (Nat.two_pow_pos _).ne'
  simp only [ZoneAllocator.init, ZoneAllocator.clear, wp_bind, wp_modify, wp_liftMem',
    chunkSize_sizeofZone, zoneIdx_classSize (descIdx_lt.trans maxZoneIdx_lt)]
  apply (Zone.clear_spec hne).mono
  rintro _ m ⟨-, hfr⟩
  have h := hQ m hfr
  simp only [wp_bind] at h
  exact h

/-- The descriptor of the initial zone lies outside of the table. -/
theorem initialZone_notMem_table {k : ℕ} : initialZone + k * wordBytes ∉ L.table := by
  rintro ⟨-, hlt⟩
  have := Layout.pageAt_lt (L := L) le_rfl
  unfold initialZone at hlt
  omega

/-- What lies outside of the memory of the allocator is no word of the initial zone. -/
theorem Layout.Outside.field_ne {x k : ℕ} (hx : L.Outside x) (hk : k < 7) :
    x ≠ initialZone + k * wordBytes := by
  rintro rfl
  exact hx.initial (field_mem hk)

/-- `init` of the zone allocator fails without a free page. -/
theorem ZoneAllocator.init_none (hp : PageRep L a₀ s.pages) (hal : a₀.allocate 1 = (none, a)) :
    wp (ZoneAllocator.init L.pageSize) (fun ok s' => ok = false ∧ HeapRep L (Heap.empty a₀) s' ∧
      ∀ x ∈ L.outside, s'.mem x = s.mem x) s := by
  have ha : a = a₀ := by
    rcases a₀.allocate_cases 1 with he | ⟨g, -, -, -, -, he⟩ <;> rw [he] at hal <;> cases hal
    rfl
  subst ha
  apply ZoneAllocator.init_enter
  intro m hm
  have hp₁ : PageRep L a { s.pages with mem := m } := hp.congr_mem fun x hx =>
    hm x fun _ _ he => initialZone_notMem_table (he ▸ hx)
  simp only [wp_bind]
  apply (initZone_none hp₁ rfl (Nat.two_pow_pos _).ne' hal).mono
  rintro _ s' ⟨rfl, hself, hp', hfr⟩
  simp only [Bool.not_false, if_true, wp_pure, true_and]
  exact ⟨HeapRep.empty hp' hself, fun x hx =>
    (hfr x hx.table).trans (hm x fun _ hk => hx.field_ne hk)⟩

/-- `init` of the zone allocator: without a free page it fails, otherwise the heap is the initial
one.  It writes nothing outside of the memory of the allocator. -/
theorem ZoneAllocator.init_framed (S : Site L r a₀) (hp : PageRep L a₀ s.pages) :
    wp (ZoneAllocator.init L.pageSize) (fun ok s' => (match a₀.allocate 1 with
      | (none, _) => ok = false ∧ HeapRep L (Heap.empty a₀) s'
      | (some g, a) => ok = true ∧ HeapRep L (Heap.initial L a g.first) s') ∧
      ∀ x ∈ L.outside, s'.mem x = s.mem x) s := by
  have hne : initialZone ≠ 0 := (Nat.two_pow_pos _).ne'
  rcases hal : a₀.allocate 1 with ⟨_ | g, a⟩
  · exact (init_none hp hal).mono fun _ _ h => ⟨⟨h.1, h.2.1⟩, h.2.2⟩
  · apply ZoneAllocator.init_enter
    intro m hm
    have hp₁ : PageRep L a₀ { s.pages with mem := m } := hp.congr_mem fun x hx =>
      hm x fun _ _ he => initialZone_notMem_table (he ▸ hx)
    simp only [wp_bind]
    have hw := S.wf_initial hal
    have hd : initialZone ∈ (Heap.initial L a g.first).descs := hw.initial_mem
    have hz : ZoneData.Fits L ⟨g.first, descIdx, []⟩ :=
      ⟨(S.initial_page hal).2.1, S.descSize_lt⟩
    have hown : ∀ x ∈ ZoneData.chunks L ⟨g.first, descIdx, []⟩,
        (Heap.initial L a g.first).Owns L initialZone x := by
      intro x hx
      rw [Heap.Owns, Heap.zone_initial]
      exact hx
    refine (initZone_some hp₁ S.sound rfl rfl hne hal hz (fun _ _ => initialZone_notMem_table)
      (fun x hx j hj => ?_) fun x hx => ?_).mono ?_
    · exact hw.cell_table S.toArena (Heap.cell_chunk hd (hown x hx)) (link_mem hj)
    · apply hw.fieldsApart S.sound hd hd (hown x hx)
      rw [Heap.descs_initial, List.mem_singleton]
      exact hw.chunk_ne_initial S.sound hd (hown x hx)
    rintro _ s' ⟨rfl, hself, hp', hrep, hnext, hprev, hfr⟩
    simp only [Bool.not_true, Bool.false_eq_true, if_false, wp_bind, wp_pure]
    refine ((HeapRep.empty hp' hself).addZone S.toArena hw ?_ descIdx_lt hrep hnext hprev).mono ?_
    · rw [Heap.descs_empty]
      exact List.not_mem_nil
    · rintro _ s'' ⟨h, hfr'⟩
      refine ⟨⟨trivial, h⟩, fun x hx => ?_⟩
      have hchunks : x ∉ linkWords {y | y ∈ ZoneData.chunks L ⟨g.first, descIdx, []⟩} := by
        intro hmem
        obtain ⟨y, hy, j, hj, rfl⟩ := mem_linkWords_iff.mp hmem
        exact (hw.untouched_apart S.toArena (l := []) (Or.inr hx)).2 y _
          (Heap.cell_chunk hd (hown y hy)) List.not_mem_nil (link_mem hj)
      calc s''.mem x = s'.mem x := hfr' x (Or.inr hx)
        _ = m x := hfr x hx.table (fun _ hk => hx.field_ne hk) hchunks
        _ = s.mem x := hm x fun _ hk => hx.field_ne hk

/-- `init` of the zone allocator: without a free page it fails, otherwise the heap is the initial
one. -/
theorem ZoneAllocator.init_spec (S : Site L r a₀) (hp : PageRep L a₀ s.pages) :
    wp (ZoneAllocator.init L.pageSize) (fun ok s' => match a₀.allocate 1 with
      | (none, _) => ok = false ∧ HeapRep L (Heap.empty a₀) s'
      | (some g, a) => ok = true ∧ HeapRep L (Heap.initial L a g.first) s') s :=
  (init_framed S hp).mono fun _ _ h => h.1

section Arguments

variable {regions : List Region} {ps : ℕ}

/-- The pages that are not reserved lie outside of the table. -/
theorem Fitting.table_apart (h : Fitting regions ps) {i : ℕ} (hi : i < (layout h).count)
    (hres : ¬(reservedGroup (accepted ps regions) ps).Covers i) :
    (layout h).addr i + ps ≤ (layout h).pageAt 0 ∨
      (layout h).pageAt (layout h).count ≤ (layout h).addr i := by
  obtain ⟨post, hs⟩ := h.desc_split
  obtain ⟨hh, hpos, hle⟩ := h.reserved
  obtain ⟨pre', q, post', k, hs', rfl, hk⟩ := exists_region (h.layout_count ▸ hi)
  have hpage := h.page_le hs' hk
  have hend : (layout h).pageAt (layout h).count ≤
      (descRegionOf (accepted ps regions) ps).alignedEnd := by
    have := h.table_le
    have hhead : (layout h).pageAt (layout h).count =
      (descRegionOf (accepted ps regions) ps).alignedStart + (layout h).count * sizeofPage := rfl
    rw [hhead, h.layout_count]
    exact this
  have hstart : (layout h).pageAt 0 = (descRegionOf (accepted ps regions) ps).alignedStart :=
    (Layout.head_eq (L := layout h)).symm
  rw [h.addr_split hs' hk]
  rcases split_cases hs hs' with ⟨hpre, rfl⟩ | hmem | hmem
  · -- a page of the region with the table: it lies behind the reserved ones
    right
    have hfirst : (reservedGroup (accepted ps regions) ps).first = pageSum pre' := by
      rw [← hpre]
      rfl
    rw [hfirst] at hh
    have hge : (reservedGroup (accepted ps regions) ps).size ≤ k := by
      by_contra hlt
      exact hres ⟨by omega, by omega⟩
    have hout := hh.outside (by omega)
    rw [h.addr_split hs' (by omega)] at hout
    have := Nat.mul_le_mul_right ps hge
    omega
  · have := h.disjoint_pre hs' hmem
    omega
  · have := h.disjoint_pre hs hmem
    omega

/-- What the calls after `init` rely on. -/
theorem Usable.site (h : Usable regions ps) (hfew : pageSum (accepted ps regions) < 2 ^ 21)
    (hps : ps ≤ 4096) : Site (layout h.toFitting) (reservedGroup (accepted ps regions) ps)
      (Pages.initial (accepted ps regions) ps) := by
  obtain ⟨_, _, -, -, hr, -⟩ := PageAllocator.init_spec (s := ⟨PageAllocator.cleared, fun _ => 0⟩)
    h.toFitting (pageCount_lt hfew)
  have hall : ∀ g ∈ reservedGroup (accepted ps regions) ps :: [] ++
      (Pages.initial (accepted ps regions) ps).freeGroups,
      Pages.Uncut (layout h.toFitting).Adjacent g :=
    fun g hg => h.uncut_adjacent .start hr.inv hr.count hg
  exact ⟨⟨h.sound, hps, fun i hi hres => h.table_apart hi hres⟩, h.placed, hr.inv, hr.count,
    h.layout_count ▸ hfew, h.used_initial, hall _ List.mem_cons_self,
    fun g hg => hall g (List.mem_cons_of_mem _ hg)⟩

end Arguments

/-! ### `init` of the whole allocator -/

section Init

variable {regions : List Region} {ps : ℕ}

/-- `clear` leaves two cleared objects. -/
theorem clear_spec : wp clear (fun _ s' =>
    s' = { self := ⟨false, 0, 0, 0, fun _ => {}⟩, pages := ⟨PageAllocator.cleared, s'.mem⟩ }) s := by
  have hne : initialZone ≠ 0 := (Nat.two_pow_pos _).ne'
  simp only [clear, PageAllocator.clear, ZoneAllocator.clear, wp_bind, wp_modify, wp_liftMem',
    wp_liftPages]
  exact (Zone.clear_spec hne).mono fun _ _ _ => rfl

/-- A successful `init` consists of two successful ones. -/
theorem init_true {s' : State} (hinit : init regions ps s = .ok (true, s')) :
    ∃ p s₀, PageAllocator.init regions ps p = .ok (true, s₀.pages) ∧
      ZoneAllocator.init ps s₀ = .ok (true, s') := by
  have h := wp_of_run_eq (Q := fun ok s'' => ok = true ∧ s'' = s') hinit ⟨rfl, rfl⟩
  simp only [init, wp_bind, wp_liftPages] at h
  obtain ⟨_, s₁, -, ok, p, hpages, h⟩ := h
  cases ok with
  | false => simp at h
  | true =>
    simp only [Bool.not_true, Bool.false_eq_true, if_false] at h
    obtain ⟨_, _, hzones, rfl, rfl⟩ := h
    exact ⟨s₁.pages, { s₁ with pages := p }, hpages, hzones⟩

/-- `init` fails when `init` of the page allocator does. -/
theorem init_refuses (hlt : ps < 2 ^ width) (hv : ValidRegions regions)
    (h : ¬(ValidPageSize ps ∧ regions.length ≤ maxRegionsCount ∧ accepted ps regions ≠ [])) :
    wp (init regions ps) (fun ok _ => ok = false) s := by
  simp only [init, wp_bind, wp_liftPages]
  refine clear_spec.mono fun _ _ _ => (PageAllocator.init_refuses hlt hv h).mono ?_
  rintro _ _ rfl
  simp

/-- `init` on usable arguments fails exactly when there is no page for the initial zone. -/
theorem init_spec (h : Usable regions ps) (hfew : pageSum (accepted ps regions) < 2 ^ 21)
    (hps : ps ≤ 4096) :
    wp (init regions ps) (fun ok s' => match (Pages.initial (accepted ps regions) ps).allocate 1 with
      | (none, _) => ok = false ∧
        HeapRep (layout h.toFitting) (Heap.empty (Pages.initial (accepted ps regions) ps)) s'
      | (some g, a) => ok = true ∧
        HeapRep (layout h.toFitting) (Heap.initial (layout h.toFitting) a g.first) s') s := by
  simp only [init, wp_bind, wp_liftPages]
  refine clear_spec.mono fun _ _ _ => (PageAllocator.init_spec h.toFitting
    (pageCount_lt hfew)).mono ?_
  rintro _ _ ⟨rfl, hp, -⟩
  simp only [Bool.not_true, Bool.false_eq_true, if_false]
  exact ZoneAllocator.init_spec (h.site hfew hps) hp

/-- `init` succeeds when there is a page for the initial zone. -/
theorem Usable.exists_init (h : Usable regions ps) (hfew : pageSum (accepted ps regions) < 2 ^ 21)
    (hps : ps ≤ 4096) (hal : ((Pages.initial (accepted ps regions) ps).allocate 1).1 = some g)
    (s₀ : State) : ∃ s₁, init regions ps s₀ = .ok (true, s₁) ∧
      HeapRep (layout h.toFitting) (Heap.initial (layout h.toFitting)
        ((Pages.initial (accepted ps regions) ps).allocate 1).2 g.first) s₁ := by
  obtain ⟨ok, s₁, hinit, hres⟩ := init_spec (s := s₀) h hfew hps
  rcases hal' : (Pages.initial (accepted ps regions) ps).allocate 1 with ⟨g', a⟩
  rw [hal'] at hal hres
  cases hal
  obtain ⟨rfl, hr⟩ := hres
  exact ⟨s₁, hinit, hr⟩

end Init

end Liballocator
