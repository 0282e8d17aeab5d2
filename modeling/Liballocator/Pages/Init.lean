import Liballocator.Pages.Coalesce
import Liballocator.Pages.Regions

/-!
# Setting up the table

The loop of `init` over the regions, one region at a time.  `initPages` writes fresh descriptors,
`reserveDescPages` marks the pages that hold the table, and the rest of the region becomes a free
group.  `RegionStep` says what one region contributes; it does not assume that the number of pages
fits in the field for the group size, so the sizes of the groups are reduced modulo `2 ^ 21` there.
-/

namespace Liballocator

open Program LinkedList Tiling

variable [Platform]

variable {L : Layout} {m m' : Mem} {ps : ℕ}

/-! ### Fresh descriptors -/

/-- From `m` to `m'` the descriptors of the pages from `lo` to `hi` have been written afresh. -/
structure FreshStep (L : Layout) (lo hi : ℕ) (m m' : Mem) : Prop where
  links : ∀ i, lo ≤ i → i < hi → m' (L.pageAt i) = 0 ∧ m' (L.pageAt i + wordBytes) = 0
  addr : ∀ i, lo ≤ i → i < hi → addrAt L m' i = L.addr i
  tag : ∀ i, lo ≤ i → i < hi → tagAt L m' i = 0
  used : ∀ i, lo ≤ i → i < hi → usedAt L m' i = false
  other : ∀ i < L.count, i < lo ∨ hi ≤ i → ∀ k < 4,
    m' (L.pageAt i + k * wordBytes) = m (L.pageAt i + k * wordBytes)
  frame : ∀ x ∉ L.table, m' x = m x

/-- Nothing has been written yet. -/
theorem FreshStep.refl {lo : ℕ} : FreshStep L lo lo m m :=
  ⟨fun i h₁ h₂ => by omega, fun i h₁ h₂ => by omega, fun i h₁ h₂ => by omega,
    fun i h₁ h₂ => by omega, fun _ _ _ _ _ => rfl, fun _ _ => rfl⟩

/-- Initialising one descriptor. -/
private theorem initPage_spec {j : ℕ} (hj : j < L.count) :
    wp (do Page.init (L.pageAt j); Page.setAddress (L.pageAt j) (L.addr j) : MemM PUnit)
      (fun _ m' => FreshStep L j (j + 1) m m') m := by
  have h0 := Layout.pageAt_ne_zero (L := L) j
  have hne : ∀ i k l, k < 4 → l < 4 → (i ≠ j ∨ k ≠ l) →
      L.pageAt i + k * wordBytes ≠ L.pageAt j + l * wordBytes := by
    intro i k l hk hl hik e
    obtain ⟨rfl, rfl⟩ := (Layout.field_inj hk hl).mp e
    omega
  have hsame : ∀ k l, k < 4 → l < 4 → k ≠ l →
      L.pageAt j + k * wordBytes ≠ L.pageAt j + l * wordBytes :=
    fun k l hk hl hkl => hne j k l hk hl (Or.inr hkl)
  simp only [Page.init, Page.setAddress, ListNode.initListNode, wp_bind, wp_store, wp_load, h0,
    ne_eq, not_false_eq_true, true_and]
  refine ⟨fun i h₁ h₂ => ?_, fun i h₁ h₂ => ?_, fun i h₁ h₂ => ?_, fun i h₁ h₂ => ?_,
    fun i _ hi k hk => ?_, fun x hx => ?_⟩
  · obtain rfl : i = j := by omega
    have e₂ := hsame 0 2 (by omega) (by omega) (by omega)
    have e₃ := hsame 0 3 (by omega) (by omega) (by omega)
    have e₁ := hsame 0 1 (by omega) (by omega) (by omega)
    have e₁₂ := hsame 1 2 (by omega) (by omega) (by omega)
    have e₁₃ := hsame 1 3 (by omega) (by omega) (by omega)
    simp only [Nat.zero_mul, Nat.add_zero, Nat.one_mul] at e₁ e₂ e₃ e₁₂ e₁₃ ⊢
    simp only [Function.update_of_ne e₂, Function.update_of_ne e₃, Function.update_of_ne e₁,
      Function.update_self, Function.update_of_ne e₁₂, Function.update_of_ne e₁₃, and_self]
  · obtain rfl : i = j := by omega
    rw [addrAt, Function.update_self]
  · obtain rfl : i = j := by omega
    rw [tagAt, Function.update_of_ne (hsame 3 2 (by omega) (by omega) (by omega)),
      Function.update_self, flagsGroupSize_clear]
  · obtain rfl : i = j := by omega
    rw [usedAt, Function.update_of_ne (hsame 3 2 (by omega) (by omega) (by omega)),
      Function.update_self, flagsUsed_clear]
  · have hij : i ≠ j := by omega
    simp only [Function.update_of_ne (hne i k _ hk (by omega : 2 < 4) (Or.inl hij)),
      Function.update_of_ne (hne i k _ hk (by omega : 3 < 4) (Or.inl hij)),
      Function.update_of_ne (hne i k _ hk (by omega : 1 < 4) (Or.inl hij)),
      Function.update_of_ne (hne i k _ hk (by omega : 0 < 4) (Or.inl hij))]
  · have hx' : ∀ k < 4, x ≠ L.pageAt j + k * wordBytes := by
      rintro k hk rfl
      exact hx (Layout.field_mem_table hj hk)
    simp only [Function.update_of_ne (hx' 2 (by omega)), Function.update_of_ne (hx' 3 (by omega)),
      Function.update_of_ne (hx' 1 (by omega)), Function.update_of_ne (hx' 0 (by omega))]

/-- Fresh descriptors one after the other. -/
private theorem FreshStep.trans {lo mid hi : ℕ} {m₁ : Mem} (h₁ : FreshStep L lo mid m m₁)
    (h₂ : FreshStep L mid hi m₁ m') (hle : lo ≤ mid) (hle' : mid ≤ hi) (hc : hi ≤ L.count) :
    FreshStep L lo hi m m' := by
  have hkeep : ∀ i, lo ≤ i → i < mid → ∀ k < 4,
      m' (L.pageAt i + k * wordBytes) = m₁ (L.pageAt i + k * wordBytes) :=
    fun i _ hi => h₂.other i (by omega) (Or.inl hi)
  refine ⟨fun i hi hi' => ?_, fun i hi hi' => ?_, fun i hi hi' => ?_, fun i hi hi' => ?_,
    fun i hi hout k hk => ?_, fun x hx => (h₂.frame x hx).trans (h₁.frame x hx)⟩
  · by_cases him : i < mid
    · have e₀ := hkeep i hi him 0 (by omega)
      have e₁ := hkeep i hi him 1 (by omega)
      simp only [Nat.zero_mul, Nat.add_zero, Nat.one_mul] at e₀ e₁
      have hl := h₁.links i hi him
      exact ⟨e₀.trans hl.1, e₁.trans hl.2⟩
    · exact h₂.links i (by omega) hi'
  · by_cases him : i < mid
    · exact (hkeep i hi him 2 (by omega)).trans (h₁.addr i hi him)
    · exact h₂.addr i (by omega) hi'
  · by_cases him : i < mid
    · exact (congrArg flagsGroupSize (hkeep i hi him 3 (by omega))).trans (h₁.tag i hi him)
    · exact h₂.tag i (by omega) hi'
  · by_cases him : i < mid
    · exact (congrArg flagsUsed (hkeep i hi him 3 (by omega))).trans (h₁.used i hi him)
    · exact h₂.used i (by omega) hi'
  · exact (h₂.other i hi (by omega) k hk).trans (h₁.other i hi (by omega) k hk)

/-- The loop over the pages of a region, from page `j` of the table on. -/
theorem initPages_spec {j hi stop fuel a : ℕ} (hps : 0 < ps) (hj : j ≤ hi) (hc : hi ≤ L.count)
    (ha : a + (hi - j) * ps = stop)
    (haddr : ∀ i, j ≤ i → i < hi → L.addr i + (hi - i) * ps = stop) (hstop : stop < 2 ^ width)
    (hfuel : hi - j < fuel) :
    wp (PageAllocator.initPages ps stop fuel (L.pageAt j) a)
      (fun r m' => r = L.pageAt hi ∧ FreshStep L j hi m m') m := by
  induction fuel generalizing j a m with
  | zero => omega
  | succ fuel ih =>
    rw [PageAllocator.initPages]
    by_cases hend : j = hi
    · subst hend
      rw [Nat.sub_self, Nat.zero_mul, Nat.add_zero] at ha
      rw [if_pos ha, wp_pure]
      exact ⟨rfl, FreshStep.refl⟩
    · have hlt : j < hi := by omega
      have hmul : (hi - j) * ps = (hi - (j + 1)) * ps + ps := by
        rw [show hi - j = hi - (j + 1) + 1 by omega, Nat.add_mul, Nat.one_mul]
      have haj : a = L.addr j := by
        have := haddr j le_rfl hlt
        omega
      rw [if_neg (by omega), wp_bind, wp_assert, ← bind_assoc, wp_bind]
      refine ⟨Layout.pageAt_ne_zero j, ?_⟩
      rw [haj]
      apply (initPage_spec (m := m) (hlt.trans_le hc)).mono
      intro _ m₁ h₁
      rw [Page.nextSibling, Layout.plus_pageAt (by omega), Word.add_eq (by omega)]
      refine (ih (m := m₁) (by omega) (by omega) (fun i hi' => haddr i (by omega))
        (by omega)).mono ?_
      rintro _ m₂ ⟨rfl, h₂⟩
      exact ⟨rfl, h₁.trans h₂ (by omega) (by omega) hc⟩

/-! ### The pages of the table -/

/-- The object works on the table of `L`. -/
structure OnTable (L : Layout) (object : PageAllocator) : Prop where
  pagesHead : object.pagesHead = L.config.pagesHead
  pagesTail : object.pagesTail = L.config.pagesTail
  pageSize : object.pageSize = L.config.pageSize

/-- The last descriptor is followed by the end of the table. -/
theorem Layout.next_tail : Page.nextSibling (L.pageAt (L.count - 1)) = L.pageAt L.count := by
  have := L.count_pos
  rw [Page.nextSibling, plus_pageAt (by omega), Nat.sub_add_cancel this]

/-- Among the pages from `c` on exactly the first `n` ones begin in front of the end of the
table. -/
structure HoldsTable (L : Layout) (c hi n : ℕ) : Prop where
  le : c + n ≤ hi
  inside : ∀ i, c ≤ i → i < c + n → L.addr i < L.pageAt L.count
  outside : c + n < hi → L.pageAt L.count ≤ L.addr (c + n)

/-- The loop of `reserveDescPages` marks the pages that hold the table. -/
theorem reserveDescPagesFrom_spec (descRegion : RegionInfo) {s : PageState} {m₀ : Mem}
    {tag : ℕ → ℕ} {used : ℕ → Bool} {c hi n k fuel : ℕ} (hself : OnTable L s.self)
    (hst : FlagStep L m₀ s.mem tag used) (hh : HoldsTable L c hi n) (hhi : hi ≤ L.count)
    (haddr : ∀ i, c ≤ i → i < hi → addrAt L m₀ i = L.addr i)
    (hlast : descRegion.lastPage = L.pageAt (hi - 1)) (hk : k ≤ n) (hkhi : c + k < hi)
    (hfuel : n - k < fuel) :
    wp (PageAllocator.reserveDescPagesFrom descRegion fuel (L.pageAt (c + k)) k) (fun r s' =>
      r = n ∧ s'.self = s.self ∧ FlagStep L m₀ s'.mem tag
        fun j => if c + k ≤ j ∧ j < c + n then true else used j) s := by
  induction fuel generalizing k s used with
  | zero => omega
  | succ fuel ih =>
    have hlt : c + k < L.count := by omega
    have htail : ¬L.pageAt (c + k) > L.pageAt (L.count - 1) := by
      rw [gt_iff_lt, Nat.not_lt]
      exact Layout.pageAt_le_pageAt (by omega)
    have ha : s.mem (L.pageAt (c + k) + 2 * wordBytes) = L.addr (c + k) :=
      (hst.addr _ hlt).trans (haddr _ (by omega) hkhi)
    have hle := hh.le
    simp only [PageAllocator.reserveDescPagesFrom, wp_bind, wp_get, wp_ite, wp_pure, wp_liftMem,
      Page.wp_address, hself.pagesTail, Layout.tail_eq_pageAt, Layout.next_tail, htail, ha,
      Layout.pageAt_ne_zero, ne_eq, not_false_eq_true, true_and, false_implies, true_implies]
    refine ⟨fun hge => ?_, fun hnot => ?_⟩
    · -- the table ends in front of this page
      have hkn : k = n := by
        by_contra hne
        have := hh.inside (c + k) (by omega) (by omega)
        omega
      subst hkn
      exact ⟨rfl, hst.congr (fun _ _ => rfl) fun j _ => by rw [if_neg (by omega)]⟩
    · have hkn : k < n := by
        by_contra hge
        have := hh.outside (by omega)
        rw [show n = k by omega] at this
        omega
      apply (Page.setUsed_spec hst hlt true).mono
      intro _ m₁ h₁
      have hupd : ∀ j, Function.update used (c + k) true j =
          if c + k ≤ j ∧ j < c + (k + 1) then true else used j := by
        intro j
        rw [Function.update_apply]
        split_ifs <;> first | rfl | omega
      refine ⟨fun heq => ?_, fun hne => ?_⟩
      · rw [hlast, Layout.pageAt_inj] at heq
        have hn : n = k + 1 := by omega
        refine ⟨hn.symm, h₁.congr (fun _ _ => rfl) fun j _ => ?_⟩
        rw [hupd, hn]
      · rw [hlast, Layout.pageAt_inj] at hne
        rw [Page.nextSibling, Layout.plus_pageAt (by omega)]
        refine (ih (s := { s with mem := m₁ }) hself h₁ (k := k + 1) (by omega) (by omega)
          (by omega)).mono ?_
        rintro r s' ⟨rfl, hs', h₂⟩
        refine ⟨rfl, hs', h₂.congr (fun _ _ => rfl) fun j _ => ?_⟩
        rw [hupd]
        split_ifs <;> first | rfl | omega

/-! ### One region -/

/-- What a region contributes: its pages are the pages from `c` to `hi` of the table, the first `n`
of them are reserved, and the free lists have changed from `f` to `f'` by groups with `k` pages. -/
structure RegionStep (L : Layout) (c hi n k : ℕ) (f f' : ℕ → List Group) (tag : ℕ → ℕ)
    (s s' : PageState) : Prop where
  frame : ∀ x ∉ L.table, s'.mem x = s.mem x
  counter : s'.self.freePagesCount = Word.add s.self.freePagesCount k
  listed : Listed L f' s'
  oldLinks : ∀ i < c, Fresh f i → s'.mem (L.pageAt i) = s.mem (L.pageAt i) ∧
    s'.mem (L.pageAt i + wordBytes) = s.mem (L.pageAt i + wordBytes)
  oldAddr : ∀ i < c, addrAt L s'.mem i = addrAt L s.mem i
  oldTag : ∀ i < c, tagAt L s'.mem i = tagAt L s.mem i
  oldUsed : ∀ i < c, usedAt L s'.mem i = usedAt L s.mem i
  links : ∀ i, c ≤ i → i < hi → Fresh f' i →
    s'.mem (L.pageAt i) = 0 ∧ s'.mem (L.pageAt i + wordBytes) = 0
  addr : ∀ i, c ≤ i → i < hi → addrAt L s'.mem i = L.addr i
  tag : ∀ i, c ≤ i → i < hi → tagAt L s'.mem i = tag i
  used : ∀ i, c ≤ i → i < hi → usedAt L s'.mem i = decide (i < c + n)

/-- The state before `addGroup`: fresh descriptors with the tags and flags of the region. -/
structure Prepared (L : Layout) (c hi n : ℕ) (tag : ℕ → ℕ) (m m' : Mem) : Prop where
  fresh : ∃ m₁ tag' used', FreshStep L c hi m m₁ ∧ FlagStep L m₁ m' tag' used' ∧
    (∀ i < c, tag' i = tagAt L m₁ i) ∧ (∀ i < c, used' i = usedAt L m₁ i) ∧
    (∀ i, c ≤ i → i < hi → tag' i = tag i) ∧ ∀ i, c ≤ i → i < hi → used' i = decide (i < c + n)

variable {c hi n : ℕ} {tag : ℕ → ℕ} {f : ℕ → List Group} {s : PageState}

/-- A region without free pages is set up once its descriptors are. -/
theorem Prepared.regionStep (hp : Prepared L c hi n tag s.mem m) (hc : hi ≤ L.count)
    (hchi : c ≤ hi) (hl : Listed L f s) (hbelow : ∀ j < maxGroupIdx, ∀ h ∈ f j, h.first < c)
    (hcount : s.self.freePagesCount < 2 ^ width) {p : PageAllocator}
    (hheads : p.freeGroupLists = s.self.freeGroupLists)
    (hfree : p.freePagesCount = s.self.freePagesCount) :
    RegionStep L c hi n 0 f f tag s { self := p, mem := m } := by
  obtain ⟨m₁, tag', used', hfs, hst, htag, hused, htag', hused'⟩ := hp
  have hold : ∀ i < c, ∀ k < 4,
      m₁ (L.pageAt i + k * wordBytes) = s.mem (L.pageAt i + k * wordBytes) :=
    fun i hi => hfs.other i (by omega) (Or.inl hi)
  have hlinks : ∀ i < c, m (L.pageAt i) = s.mem (L.pageAt i) ∧
      m (L.pageAt i + wordBytes) = s.mem (L.pageAt i + wordBytes) := by
    intro i hi
    have h₀ := hold i hi 0 (by omega)
    have h₁ := hold i hi 1 (by omega)
    simp only [Nat.zero_mul, Nat.add_zero, Nat.one_mul] at h₀ h₁
    have hl := hst.links i (by omega)
    exact ⟨hl.1.trans h₀, hl.2.trans h₁⟩
  refine ⟨fun x hx => (hst.frame x hx).trans (hfs.frame x hx), ?_, ⟨fun j hjm => ?_, hl.first_lt,
    hl.apart⟩, fun i hi _ => hlinks i hi, fun i hi => ?_, fun i hi => ?_, fun i hi => ?_,
    fun i hi hi' _ => ?_, fun i hi hi' => ?_, fun i hi hi' => ?_, fun i hi hi' => ?_⟩
  · simp only [hfree]
    rw [Word.add_eq (by omega), Nat.add_zero]
  · have hlj := hl.lists j hjm
    have hmem : ∀ x ∈ nodes L (f j), ∃ i < c, L.pageAt i = x := by
      intro x hx
      obtain ⟨h, hh, rfl⟩ := mem_nodes.mp hx
      exact ⟨h.first, hbelow j hjm h hh, rfl⟩
    rw [← hheads] at hlj
    refine hlj.congr (fun x hx => ?_) fun x hx => ?_
    · obtain ⟨i, hi, rfl⟩ := hmem x hx
      exact (hlinks i hi).1
    · obtain ⟨i, hi, rfl⟩ := hmem x hx
      exact (hlinks i hi).2
  · exact (hst.addr i (by omega)).trans (hold i hi 2 (by omega))
  · rw [hst.tag i (by omega), htag i hi]
    exact congrArg flagsGroupSize (hold i hi 3 (by omega))
  · rw [hst.used i (by omega), hused i hi]
    exact congrArg flagsUsed (hold i hi 3 (by omega))
  · have hl := hst.links i (by omega)
    have hf := hfs.links i hi hi'
    exact ⟨hl.1.trans hf.1, hl.2.trans hf.2⟩
  · exact (hst.addr i (by omega)).trans (hfs.addr i hi hi')
  · rw [hst.tag i (by omega), htag' i hi hi']
  · rw [hst.used i (by omega), hused' i hi hi']

/-- The rest of a region becomes a free group. -/
theorem RegionStep.addGroup {g : Group} {s₁ : PageState} (hs : RegionStep L c hi n 0 f f tag s s₁)
    (hc : hi ≤ L.count) (hbelow : ∀ j < maxGroupIdx, ∀ h ∈ f j, h.first < c)
    (hcount : s.self.freePagesCount < 2 ^ width) (hfirst : g.first = c + n) (hlt : g.first < hi)
    (hstop : g.first + g.size ≤ hi) (htag : tag g.first = g.size) :
    wp (PageAllocator.addGroup (L.pageAt g.first)) (fun _ s' =>
      RegionStep L c hi n g.size f (insertGroup f g) tag s s' ∧ Keeps L s₁ s') s₁ := by
  have hfresh : ∀ i, c ≤ i → Fresh f i := by
    intro i hi j hjm h hh
    have := hbelow j hjm h hh
    omega
  have hlinks := hs.links g.first (by omega) hlt (hfresh _ (by omega))
  have htag' := (hs.tag g.first (by omega) hlt).trans htag
  refine (addGroup_step hs.listed (by omega) (by omega) htag' (hfresh _ (by omega)) hlinks.1
    hlinks.2).mono fun _ s' ha => ⟨?_, ha.keeps⟩
  refine ⟨fun x hx => (ha.keeps.frame x hx).trans (hs.frame x hx), ?_, ha.listed,
    fun i hi hf => ?_, fun i hi => ?_, fun i hi => ?_, fun i hi => ?_, fun i hi hi' hf => ?_,
    fun i hi hi' => ?_, fun i hi hi' => ?_, fun i hi hi' => ?_⟩
  · rw [ha.counter, hs.counter, Word.add_eq (show s.self.freePagesCount + 0 < 2 ^ width from hcount),
      Nat.add_zero]
  · have hl := ha.links i (by omega) (by omega) hf
    have ho := hs.oldLinks i hi hf
    exact ⟨hl.1.trans ho.1, hl.2.trans ho.2⟩
  · exact (ha.addr i (by omega)).trans (hs.oldAddr i hi)
  · exact (ha.tag i (by omega)).trans (hs.oldTag i hi)
  · rw [ha.used i (by omega), if_neg (by simp only [Span.Covers]; omega)]
    exact hs.oldUsed i hi
  · have hne : i ≠ g.first := by
      rintro rfl
      have hidx : groupIdx g.size < maxGroupIdx := by
        apply Pages.groupIdx_lt
        rw [← htag']
        exact Nat.mod_lt _ (by omega)
      exact hf _ hidx g (by simp [insertGroup]) rfl
    have hl := ha.links i (by omega) hne (hfresh i hi)
    have hz := hs.links i hi hi' (hfresh i hi)
    exact ⟨hl.1.trans hz.1, hl.2.trans hz.2⟩
  · exact (ha.addr i (by omega)).trans (hs.addr i hi hi')
  · exact (ha.tag i (by omega)).trans (hs.tag i hi hi')
  · rw [ha.used i (by omega), hs.used i hi hi']
    by_cases hcov : g.Covers i
    · rw [if_pos hcov, decide_eq_false]
      simp only [Span.Covers] at hcov
      omega
    · rw [if_neg hcov]

/-- The tags of a region with `size` pages from `c` on, `n` of them reserved. -/
def regionTags (c size n : ℕ) : ℕ → ℕ :=
  let tags := setTags (fun _ => 0) ⟨c, size⟩ (size % 2 ^ 21)
  if n = 0 ∨ n = size % 2 ^ 21 then tags else splitTags tags ⟨c, size % 2 ^ 21⟩ n

/-- The free lists after a region with `size` pages from `c` on, `n` of them reserved. -/
def regionLists (f : ℕ → List Group) (c size n : ℕ) : ℕ → List Group :=
  if 0 < n ∧ n = size % 2 ^ 21 then f else insertGroup f ⟨c + n, size % 2 ^ 21 - n⟩

omit [Platform] in
/-- The tag of a page depends on its old one only. -/
theorem splitTags_congr {tag tag' : ℕ → ℕ} {g : Span} {n i : ℕ} (h : tag i = tag' i) :
    splitTags tag g n i = splitTags tag' g n i := by
  simp only [splitTags, setTags_apply, h]

/-- The record of a region whose pages are the pages from `c` on of the table at `head`. -/
def RegionInfo.place (region : RegionInfo) (head c : ℕ) : RegionInfo :=
  { region with
    firstPage := head + c * sizeofPage
    lastPage := head + (c + region.pageCount - 1) * sizeofPage }

omit [Platform] in
/-- The rule for reading a record of the array. -/
@[simp] theorem PageAllocator.wp_regionAt {i : ℕ} {Q : RegionInfo → PageState → Prop}
    {s : PageState} : wp (PageAllocator.regionAt i) Q s ↔
      i < maxRegionsCount ∧ Q (s.self.regionsInfo.getD i clearRegionInfo) s := by
  rw [PageAllocator.regionAt]
  by_cases hi : i ≥ maxRegionsCount
  · simp [hi]
  · simp [hi, Nat.lt_of_not_le hi]

/-- The region number `i` of the object, whose pages are the pages from `c` on. -/
structure RegionAt (L : Layout) (object : PageAllocator) (i c : ℕ) (region : RegionInfo) :
    Prop where
  get : object.regionsInfo[i]? = some region
  idx_lt : i < maxRegionsCount
  pos : 0 < region.pageCount
  le : c + region.pageCount ≤ L.count
  addr : ∀ j, c ≤ j → j < c + region.pageCount →
    L.addr j = region.alignedStart + (j - c) * L.config.pageSize
  alignedEnd_eq : region.alignedEnd = region.alignedStart + region.pageCount * L.config.pageSize
  alignedEnd_lt : region.alignedEnd < 2 ^ width
  pageSize_pos : 0 < L.config.pageSize

variable {region : RegionInfo} {object : PageAllocator} {i : ℕ}

/-- The part of `initRegion` behind `initGroup`, with the region number `d` holding the table. -/
private def finishRegion (d i group page : ℕ) : PageM ℕ := do
  let group ← if i = d then do
      let descPagesCount ← PageAllocator.reserveDescPages
      modify fun s => { s with self := { s.self with descPagesCount := descPagesCount } }
      pure (← splitGroup group descPagesCount).2
    else pure group
  if group ≠ 0 then
    PageAllocator.addGroup group
  return page

/-- The part of `initRegion` up to `initGroup`: the number of the region with the table, the group
of the region, and the descriptor behind its last one. -/
private def enterRegion (i page : ℕ) : PageM (ℕ × ℕ × ℕ) := do
  let region ← PageAllocator.regionAt i
  let region := { region with
    firstPage := page, lastPage := Page.minus (Page.plus page region.pageCount) 1 }
  modify fun s => { s with self := { s.self with
    regionsInfo := s.self.regionsInfo.set i region } }
  let self := (← get).self
  let page ← PageAllocator.initPages self.pageSize region.alignedEnd loopBound page
    region.alignedStart
  let group := region.firstPage
  initGroup group region.pageCount
  return (self.descRegionIdx, group, page)

/-- The two parts of `initRegion`. -/
private theorem initRegion_eq (i page : ℕ) : PageAllocator.initRegion i page = (do
    let (d, group, page) ← enterRegion i page
    finishRegion d i group page) := by
  simp [PageAllocator.initRegion, enterRegion, finishRegion]

/-- The first steps for a region: its descriptors are written and it becomes one group. -/
private theorem RegionAt.enterRegion (hr : RegionAt L s.self i c region) (hself : OnTable L s.self) :
    wp (enterRegion i (L.pageAt c)) (fun x s' =>
      x = (s.self.descRegionIdx, L.pageAt c, L.pageAt (c + region.pageCount)) ∧
      s'.self = { s.self with
        regionsInfo := s.self.regionsInfo.set i (region.place L.config.pagesHead c) } ∧
      ∃ m₁, FreshStep L c (c + region.pageCount) s.mem m₁ ∧ FlagStep L m₁ s'.mem
        (setTags (tagAt L m₁) ⟨c, region.pageCount⟩ (region.pageCount % 2 ^ 21))
        (usedAt L m₁)) s := by
  have hget : s.self.regionsInfo.getD i clearRegionInfo = region := by
    rw [List.getD_eq_getElem?_getD, hr.get, Option.getD_some]
  have hlast := Layout.last_pageAt (L := L) (g := ⟨c, region.pageCount⟩)
    (Nat.add_pos_right _ hr.pos) hr.le
  simp only at hlast
  simp only [Liballocator.enterRegion, wp_bind, PageAllocator.wp_regionAt, wp_modify, wp_get,
    wp_liftMem, hget, hlast, hself.pageSize, wp_pure]
  refine ⟨hr.idx_lt, ?_⟩
  have hend : region.alignedStart + (c + region.pageCount - c) * L.config.pageSize =
      region.alignedEnd := by
    rw [hr.alignedEnd_eq, Nat.add_sub_cancel_left]
  have hpages := initPages_spec (m := s.mem) hr.pageSize_pos (Nat.le_add_right c region.pageCount)
    hr.le hend (fun j h₁ h₂ => ?_) hr.alignedEnd_lt (show c + region.pageCount - c < loopBound by
      have := Layout.count_lt_loopBound (L := L)
      have := hr.le
      omega)
  · apply hpages.mono
    rintro _ m₁ ⟨rfl, hfresh⟩
    have hgroup := initGroup_spec (FlagStep.refl (L := L) (m := m₁))
      (g := ⟨c, region.pageCount⟩) hr.pos hr.le
    exact hgroup.mono fun _ m' hst => ⟨rfl, rfl, m₁, hfresh, hst⟩
  · rw [hr.addr j h₁ h₂, hr.alignedEnd_eq, Nat.add_assoc, ← Nat.add_mul]
    congr 2
    omega

/-- The rule for a region: it remains to finish the region. -/
private theorem RegionAt.enter (hr : RegionAt L s.self i c region) (hself : OnTable L s.self)
    {Q : ℕ → PageState → Prop}
    (hQ : ∀ m₁ m', FreshStep L c (c + region.pageCount) s.mem m₁ →
      FlagStep L m₁ m' (setTags (tagAt L m₁) ⟨c, region.pageCount⟩ (region.pageCount % 2 ^ 21))
        (usedAt L m₁) →
      wp (finishRegion s.self.descRegionIdx i (L.pageAt c) (L.pageAt (c + region.pageCount))) Q
        { self := { s.self with
            regionsInfo := s.self.regionsInfo.set i (region.place L.config.pagesHead c) }, mem := m' }) :
    wp (PageAllocator.initRegion i (L.pageAt c)) Q s := by
  rw [initRegion_eq, wp_bind]
  apply (hr.enterRegion hself).mono
  rintro _ ⟨self, m'⟩ ⟨rfl, rfl, m₁, hfresh, hst⟩
  exact hQ m₁ m' hfresh hst

/-- What the loop of `init` does with the fields of the object for one region. -/
def afterRegion (L : Layout) (object : PageAllocator) (i c n : ℕ) (region : RegionInfo) :
    PageAllocator :=
  { object with
    regionsInfo := object.regionsInfo.set i (region.place L.config.pagesHead c)
    descPagesCount := if i = object.descRegionIdx then n else object.descPagesCount }

/-- The fields that change in the later life of the object too. -/
def withLists (object lists : PageAllocator) : PageAllocator :=
  { object with freeGroupLists := lists.freeGroupLists, freePagesCount := lists.freePagesCount }

/-- A region that does not hold the table: all of its pages become one free group. -/
theorem RegionAt.other (hr : RegionAt L s.self i c region) (hself : OnTable L s.self)
    (hne : i ≠ s.self.descRegionIdx) (hl : Listed L f s)
    (hbelow : ∀ j < maxGroupIdx, ∀ h ∈ f j, h.first < c)
    (hcount : s.self.freePagesCount < 2 ^ width) :
    wp (PageAllocator.initRegion i (L.pageAt c)) (fun r s' =>
      r = L.pageAt (c + region.pageCount) ∧
      s'.self = withLists (afterRegion L s.self i c 0 region) s'.self ∧
      RegionStep L c (c + region.pageCount) 0 (region.pageCount % 2 ^ 21) f
        (regionLists f c region.pageCount 0) (regionTags c region.pageCount 0) s s') s := by
  have hpos := hr.pos
  apply hr.enter hself
  intro m₁ m' hfresh hst
  simp only [finishRegion, wp_bind, hne, if_false, wp_pure, Layout.pageAt_ne_zero, ne_eq,
    not_false_eq_true, if_true]
  have hprep : Prepared L c (c + region.pageCount) 0 (regionTags c region.pageCount 0) s.mem m' := by
    refine ⟨m₁, _, _, hfresh, hst, fun j hj => ?_, fun j hj => rfl, fun j h₁ h₂ => ?_,
      fun j h₁ h₂ => ?_⟩
    · rw [setTags_apply, if_neg (by simp only; omega)]
    · simp only [regionTags, true_or, if_true, setTags_apply, hfresh.tag j h₁ h₂]
    · rw [hfresh.used j h₁ h₂, decide_eq_false (by omega)]
  have hstep := hprep.regionStep (p := { s.self with
    regionsInfo := s.self.regionsInfo.set i (region.place L.config.pagesHead c) }) hr.le
    (by omega) hl hbelow hcount rfl rfl
  have hmod := Nat.mod_le region.pageCount (2 ^ 21)
  refine (hstep.addGroup (g := ⟨c, region.pageCount % 2 ^ 21⟩) hr.le hbelow hcount rfl
    (by simp only; omega) (by simp only; omega) ?_).mono ?_
  · simp [regionTags, setTags_apply]
  · rintro _ s' ⟨hs', hk⟩
    refine ⟨trivial, ?_, ?_⟩
    · rw [hk.self, afterRegion, if_neg hne]
      rfl
    · simpa [regionLists] using hs'

/-- In the region that holds the table `reserveDescPages` reserves the first `n` pages. -/
private theorem RegionAt.reserve (hr : RegionAt L s.self i c region) (hself : OnTable L s.self)
    (hd : i = s.self.descRegionIdx) (hh : HoldsTable L c (c + region.pageCount) n) {m₁ m' : Mem}
    {tag' : ℕ → ℕ} {used : ℕ → Bool} (hfresh : FreshStep L c (c + region.pageCount) s.mem m₁)
    (hst : FlagStep L m₁ m' tag' used) :
    wp PageAllocator.reserveDescPages (fun r s₂ => r = n ∧
      s₂.self = { s.self with
        regionsInfo := s.self.regionsInfo.set i (region.place L.config.pagesHead c) } ∧
      FlagStep L m₁ s₂.mem tag' fun j => if c + 0 ≤ j ∧ j < c + n then true else used j)
      { self := { s.self with
          regionsInfo := s.self.regionsInfo.set i (region.place L.config.pagesHead c) },
        mem := m' } := by
  have hpos := hr.pos
  have hlen : i < s.self.regionsInfo.length := (List.getElem?_eq_some_iff.mp hr.get).1
  have hget : (s.self.regionsInfo.set i (region.place L.config.pagesHead c)).getD
      s.self.descRegionIdx clearRegionInfo = region.place L.config.pagesHead c := by
    rw [List.getD_eq_getElem?_getD, ← hd, List.getElem?_set_self hlen, Option.getD_some]
  simp only [PageAllocator.reserveDescPages, wp_bind, wp_get, PageAllocator.wp_regionAt, hget]
  rw [show (region.place L.config.pagesHead c).firstPage = L.pageAt (c + 0) from rfl]
  refine ⟨hd ▸ hr.idx_lt, ?_⟩
  exact reserveDescPagesFrom_spec (region.place L.config.pagesHead c)
    ⟨hself.pagesHead, hself.pagesTail, hself.pageSize⟩ hst hh hr.le hfresh.addr rfl (Nat.zero_le n)
    (by omega) (show n - 0 < loopBound by
      have := Layout.count_lt_loopBound (L := L)
      have := hh.le
      have := hr.le
      omega)

/-- The region that holds the table: its first `n` pages are reserved. -/
theorem RegionAt.desc (hr : RegionAt L s.self i c region) (hself : OnTable L s.self)
    (hd : i = s.self.descRegionIdx) (hh : HoldsTable L c (c + region.pageCount) n) (hn : 0 < n)
    (hle : n ≤ region.pageCount % 2 ^ 21) (hl : Listed L f s)
    (hbelow : ∀ j < maxGroupIdx, ∀ h ∈ f j, h.first < c)
    (hcount : s.self.freePagesCount < 2 ^ width) :
    wp (PageAllocator.initRegion i (L.pageAt c)) (fun r s' =>
      r = L.pageAt (c + region.pageCount) ∧
      s'.self = withLists (afterRegion L s.self i c n region) s'.self ∧
      RegionStep L c (c + region.pageCount) n (region.pageCount % 2 ^ 21 - n) f
        (regionLists f c region.pageCount n) (regionTags c region.pageCount n) s s') s := by
  have hpos := hr.pos
  have hrle := hr.le
  have hmod := Nat.mod_le region.pageCount (2 ^ 21)
  apply hr.enter hself
  intro m₁ m' hfresh hst
  set s₁ : PageState := { self := { s.self with
    regionsInfo := s.self.regionsInfo.set i (region.place L.config.pagesHead c) }, mem := m' } with hs₁
  simp only [finishRegion, if_pos hd, wp_bind, wp_modify, wp_liftMem, wp_pure]
  apply (hr.reserve hself hd hh hfresh hst).mono
  rintro r s₂ ⟨hrn, hs₂, hst₂⟩
  rw [hrn]
  have htag : setTags (tagAt L m₁) ⟨c, region.pageCount⟩ (region.pageCount % 2 ^ 21) c =
      region.pageCount % 2 ^ 21 := by
    rw [setTags_apply, if_pos (Or.inr rfl)]
  -- the tags and flags of the region and of the pages in front of it
  have htags : ∀ j, c ≤ j → j < c + region.pageCount →
      setTags (tagAt L m₁) ⟨c, region.pageCount⟩ (region.pageCount % 2 ^ 21) j =
        setTags (fun _ => 0) ⟨c, region.pageCount⟩ (region.pageCount % 2 ^ 21) j := by
    intro j h₁ h₂
    rw [setTags_apply, setTags_apply, hfresh.tag j h₁ h₂]
  have hused : ∀ j, c ≤ j → j < c + region.pageCount →
      (if c + 0 ≤ j ∧ j < c + n then true else usedAt L m₁ j) = decide (j < c + n) := by
    intro j h₁ h₂
    rw [hfresh.used j h₁ h₂]
    by_cases hj : j < c + n
    · rw [if_pos ⟨by omega, hj⟩, decide_eq_true hj]
    · rw [if_neg (by omega), decide_eq_false hj]
  have hafter : afterRegion L s.self i c n region = { s₁.self with descPagesCount := n } := by
    rw [afterRegion, if_pos hd]
  by_cases hexact : n = region.pageCount % 2 ^ 21
  · -- nothing is left over
    have htag₂ : tagAt L s₂.mem c = n := (hst₂.tag c (by omega)).trans (htag.trans hexact.symm)
    apply (splitGroup_exact (g := ⟨c, n⟩) hn htag₂).mono
    rintro _ m₃ ⟨rfl, rfl⟩
    have hprep : Prepared L c (c + region.pageCount) n (regionTags c region.pageCount n) s.mem
        s₂.mem := by
      refine ⟨m₁, _, _, hfresh, hst₂, fun j hj => ?_, fun j hj => ?_, fun j h₁ h₂ => ?_, hused⟩
      · rw [setTags_apply, if_neg (by simp only; omega)]
      · rw [if_neg (by omega)]
      · simp only [regionTags, if_pos (Or.inr hexact)]
        exact htags j h₁ h₂
    simp only [ne_eq, not_true_eq_false, if_false, wp_pure]
    refine ⟨trivial, ?_, ?_⟩
    · rw [hafter, hs₂]
      rfl
    · rw [regionLists, if_pos ⟨hn, hexact⟩, ← hexact, Nat.sub_self]
      refine hprep.regionStep hr.le (by omega) hl hbelow hcount ?_ ?_ <;> rw [hs₂]
  · have hlt : n < region.pageCount % 2 ^ 21 := by omega
    have hsplit := splitGroup_spec (g := ⟨c, region.pageCount % 2 ^ 21⟩) hst₂ hn hlt
      (by simp only; omega) htag
    apply hsplit.mono
    rintro _ m₃ ⟨rfl, hst₃⟩
    have hprep : Prepared L c (c + region.pageCount) n (regionTags c region.pageCount n) s.mem
        m₃ := by
      refine ⟨m₁, _, _, hfresh, hst₃, fun j hj => ?_, fun j hj => ?_, fun j h₁ h₂ => ?_, hused⟩
      · simp only [splitTags, setTags_apply]
        split_ifs <;> first | rfl | omega
      · rw [if_neg (by omega)]
      · simp only [regionTags, hn.ne', hexact, or_self, if_false]
        exact splitTags_congr (htags j h₁ h₂)
    simp only [Layout.pageAt_ne_zero, ne_eq, not_false_eq_true, if_true, wp_bind, wp_pure]
    have hstep := hprep.regionStep (p := { s₂.self with descPagesCount := n }) hr.le (by omega)
      hl hbelow hcount (by rw [hs₂]) (by rw [hs₂])
    refine (hstep.addGroup (g := ⟨c + n, region.pageCount % 2 ^ 21 - n⟩) hr.le hbelow hcount rfl
      (by simp only; omega) (by simp only; omega) ?_).mono ?_
    · simp only [regionTags, hn.ne', hexact, or_self, if_false, splitTags]
      rw [setTags_apply, if_pos (Or.inr rfl)]
    · rintro _ s' ⟨hs', hk⟩
      refine ⟨trivial, ?_, ?_⟩
      · rw [hk.self, hafter, hs₂]
        rfl
      · rw [regionLists, if_neg (by omega)]
        exact hs'

/-- The region that holds the table: `splitGroup` fails when the size in the descriptor is less than
`n`. -/
theorem RegionAt.desc_le (hr : RegionAt L s.self i c region) (hself : OnTable L s.self)
    (hd : i = s.self.descRegionIdx) (hh : HoldsTable L c (c + region.pageCount) n) :
    wlp (PageAllocator.initRegion i (L.pageAt c)) (fun _ _ => n ≤ region.pageCount % 2 ^ 21) s := by
  have hpos := hr.pos
  have hrle := hr.le
  rw [initRegion_eq, wlp_bind]
  refine (hr.enterRegion hself).wlp.mono ?_
  rintro _ ⟨self, m'⟩ ⟨rfl, rfl, m₁, hfresh, hst⟩
  simp only [finishRegion, if_pos hd, wlp_bind]
  refine (hr.reserve hself hd hh hfresh hst).wlp.mono ?_
  rintro r s₂ ⟨rfl, hs₂, hst₂⟩
  have htag : tagAt L s₂.mem c = region.pageCount % 2 ^ 21 := by
    rw [hst₂.tag c (by omega), setTags_apply, if_pos (Or.inr rfl)]
  simp only [wlp_modify, wlp_liftMem, splitGroup, wlp_bind, wlp_assert]
  have htag' : flagsGroupSize (s₂.mem (L.pageAt c + 3 * wordBytes)) = region.pageCount % 2 ^ 21 :=
    htag
  refine fun _ hn => (Page.wp_groupSize.mpr ⟨Layout.pageAt_ne_zero c, fun hle => ?_⟩).wlp
  rw [htag'] at hle
  exact wlp_of_forall fun _ _ => wlp_of_forall fun _ _ => wlp_of_forall fun _ _ => hle

/-! ### All regions -/

/-- The records of the regions, whose pages are the pages from `c` on of the table at `head`. -/
def placeRegions (head : ℕ) : (c : ℕ) → List RegionInfo → List RegionInfo
  | _, [] => []
  | c, region :: regions =>
    region.place head c :: placeRegions head (c + region.pageCount) regions

/-- Number of the pages of the regions. -/
def pageSum (regions : List RegionInfo) : ℕ := (regions.map RegionInfo.pageCount).sum

omit [Platform] in
/-- No region has no pages. -/
@[simp] theorem pageSum_nil : pageSum [] = 0 := rfl

omit [Platform] in
/-- The pages of the first region and those of the others. -/
@[simp] theorem pageSum_cons (r : RegionInfo) (rs : List RegionInfo) :
    pageSum (r :: rs) = r.pageCount + pageSum rs := by
  simp [pageSum]

/-- The regions whose pages are the pages from `c` on of the table. -/
structure RegionsAt (L : Layout) (c : ℕ) (regions : List RegionInfo) : Prop where
  count : c + pageSum regions = L.count
  addr : ∀ j < pageSum regions, L.addr (c + j) = pageAddr L.config.pageSize regions j
  pos : ∀ r ∈ regions, 0 < r.pageCount
  alignedEnd_eq : ∀ r ∈ regions,
    r.alignedEnd = r.alignedStart + r.pageCount * L.config.pageSize
  alignedEnd_lt : ∀ r ∈ regions, r.alignedEnd < 2 ^ width
  pageSize_pos : 0 < L.config.pageSize

/-- The regions behind the first one. -/
theorem RegionsAt.tail {r : RegionInfo} {rs : List RegionInfo} (h : RegionsAt L c (r :: rs)) :
    RegionsAt L (c + r.pageCount) rs := by
  refine ⟨?_, fun j hj => ?_, fun r' hr' => h.pos r' (List.mem_cons_of_mem _ hr'),
    fun r' hr' => h.alignedEnd_eq r' (List.mem_cons_of_mem _ hr'),
    fun r' hr' => h.alignedEnd_lt r' (List.mem_cons_of_mem _ hr'), h.pageSize_pos⟩
  · rw [← h.count, pageSum_cons, Nat.add_assoc]
  · have := h.addr (r.pageCount + j) (by rw [pageSum_cons]; omega)
    rw [Nat.add_assoc, this, pageAddr, if_neg (by omega), Nat.add_sub_cancel_left]

/-- The first region. -/
theorem RegionsAt.head {r : RegionInfo} {rs done : List RegionInfo}
    (h : RegionsAt L c (r :: rs)) (hobj : object.regionsInfo = done ++ r :: rs)
    (hlen : object.regionsInfo.length ≤ maxRegionsCount) :
    RegionAt L object done.length c r := by
  have hcount := h.count
  rw [pageSum_cons] at hcount
  refine ⟨by rw [hobj]; simp, ?_, h.pos r List.mem_cons_self, by omega, fun j h₁ h₂ => ?_,
    h.alignedEnd_eq r List.mem_cons_self, h.alignedEnd_lt r List.mem_cons_self, h.pageSize_pos⟩
  · rw [hobj, List.length_append, List.length_cons] at hlen
    omega
  · have := h.addr (j - c) (by rw [pageSum_cons]; omega)
    rwa [Nat.add_sub_cancel' h₁, pageAddr, if_pos (by omega)] at this

/-- The reserved pages of the region number `i`: `n` of them in the region number `d`. -/
def reservedAt (d n i : ℕ) : ℕ := if i = d then n else 0

/-- The object after the regions behind `done`, with their pages from `c` on, have been set up. -/
def afterRegions (L : Layout) (object : PageAllocator) (done rest : List RegionInfo) (c d n : ℕ) :
    PageAllocator :=
  { object with
    regionsInfo := done ++ placeRegions L.config.pagesHead c rest
    descPagesCount :=
      if done.length ≤ d ∧ d < done.length + rest.length then n else object.descPagesCount }

/-- The region number `d` among those behind `done` holds the table in its first `n` pages. -/
def HoldsTableAt (L : Layout) (i c d n : ℕ) (rest : List RegionInfo) : Prop :=
  ∀ pre r post, rest = pre ++ r :: post → i + pre.length = d →
    HoldsTable L (c + pageSum pre) (c + pageSum pre + r.pageCount) n ∧ 0 < n ∧
      n ≤ r.pageCount % 2 ^ 21

/-- The table does not lie in the first region. -/
theorem HoldsTableAt.tail {d : ℕ} {r : RegionInfo} {rs : List RegionInfo}
    (h : HoldsTableAt L i c d n (r :: rs)) :
    HoldsTableAt L (i + 1) (c + r.pageCount) d n rs := by
  rintro pre r' post rfl hd
  have := h (r :: pre) r' post rfl (by rw [List.length_cons]; omega)
  rwa [pageSum_cons, ← Nat.add_assoc] at this

/-- Between two regions: the lists hold groups of the pages in front of page `c`. -/
structure Started (L : Layout) (c : ℕ) (f : ℕ → List Group) (s : PageState) : Prop where
  listed : Listed L f s
  below : ∀ j < maxGroupIdx, ∀ h ∈ f j, h.first < c
  counter : s.self.freePagesCount < 2 ^ width

/-- The lists after a further region. -/
theorem Started.step {size : ℕ} {s' : PageState} (hpos : 0 < size) (hn : n ≤ size % 2 ^ 21)
    (h : Started L c f s) (hst : RegionStep L c (c + size) n (size % 2 ^ 21 - n) f
      (regionLists f c size n) tag s s') :
    Started L (c + size) (regionLists f c size n) s' := by
  refine ⟨hst.listed, fun j hj g hg => ?_, hst.counter ▸ Word.add_lt _ _⟩
  have hmod := Nat.mod_le size (2 ^ 21)
  have hold : g ∈ f j → g.first < c + size := fun hg => (h.below j hj g hg).trans_le (by omega)
  unfold regionLists at hg
  split_ifs at hg with hall
  · exact hold hg
  · rw [insertGroup, Function.update_apply] at hg
    split_ifs at hg with hj'
    · rcases List.mem_cons.mp hg with rfl | hg
      · simp only
        omega
      · exact hold (hj' ▸ hg)
    · exact hold hg

/-- When the loop over the regions returns, the descriptor of the region with the table could hold
the number of its reserved pages. -/
theorem initRegions_reserved {d : ℕ} (done : List RegionInfo) {pre post : List RegionInfo}
    {r : RegionInfo} (hat : RegionsAt L c (pre ++ r :: post))
    (hobj : s.self.regionsInfo = done ++ (pre ++ r :: post))
    (hlen : s.self.regionsInfo.length ≤ maxRegionsCount) (hself : OnTable L s.self)
    (hd : s.self.descRegionIdx = d) (hdpre : done.length + pre.length = d)
    (hh : HoldsTable L (c + pageSum pre) (c + pageSum pre + r.pageCount) n)
    (hs : Started L c f s) :
    wlp (PageAllocator.initRegions (pre ++ r :: post).length done.length (L.pageAt c))
      (fun _ _ => n ≤ r.pageCount % 2 ^ 21) s := by
  induction pre generalizing done c f s with
  | nil =>
    have hr := hat.head hobj hlen
    rw [List.nil_append, List.length_cons, PageAllocator.initRegions, wlp_bind]
    rw [pageSum_nil, Nat.add_zero] at hh
    refine (hr.desc_le hself ?_ hh).mono fun _ _ hle => wlp_of_forall fun _ _ => hle
    rw [hd, ← hdpre]
    rfl
  | cons q qs ih =>
    have hr := hat.head hobj hlen
    have hne : done.length ≠ s.self.descRegionIdx := by
      rw [hd, ← hdpre, List.length_cons]
      omega
    rw [List.cons_append, List.length_cons, PageAllocator.initRegions, wlp_bind]
    refine (hr.other hself hne hs.listed hs.below hs.counter).wlp.mono ?_
    rintro _ s₁ ⟨rfl, hs₁, hst⟩
    have hobj₁ : s₁.self.regionsInfo =
        (done ++ [q.place L.config.pagesHead c]) ++ (qs ++ r :: post) := by
      rw [hs₁]
      simp [withLists, afterRegion, hobj]
    have hlen₁ : (done ++ [q.place L.config.pagesHead c]).length = done.length + 1 := by simp
    rw [← hlen₁]
    refine ih (done ++ [q.place L.config.pagesHead c]) hat.tail hobj₁ ?_ ?_ ?_ ?_ ?_
      (hs.step hr.pos (Nat.zero_le _) hst)
    · rw [hobj₁]
      rw [hobj] at hlen
      simpa using hlen
    · rw [hs₁]
      exact ⟨hself.pagesHead, hself.pagesTail, hself.pageSize⟩
    · rw [hs₁]
      exact hd
    · rw [hlen₁, ← hdpre, List.length_cons]
      omega
    · rwa [pageSum_cons, ← Nat.add_assoc] at hh

/-- The rule for the loop of `init` over the regions: a relation that every region keeps holds at
the end. -/
theorem initRegions_spec {d : ℕ} (done : List RegionInfo)
    (I : (rest : List RegionInfo) → (i c : ℕ) → (ℕ → List Group) → PageState → Prop)
    (hI : ∀ rest i c f s, I rest i c f s → Started L c f s)
    (hstep : ∀ r rest i c f s s', I (r :: rest) i c f s → 0 < r.pageCount →
      c + r.pageCount ≤ L.count → reservedAt d n i ≤ r.pageCount % 2 ^ 21 →
      RegionStep L c (c + r.pageCount) (reservedAt d n i)
        (r.pageCount % 2 ^ 21 - reservedAt d n i) f
        (regionLists f c r.pageCount (reservedAt d n i))
        (regionTags c r.pageCount (reservedAt d n i)) s s' →
      I rest (i + 1) (c + r.pageCount) (regionLists f c r.pageCount (reservedAt d n i)) s')
    {rest : List RegionInfo} (hat : RegionsAt L c rest)
    (hobj : s.self.regionsInfo = done ++ rest)
    (hlen : s.self.regionsInfo.length ≤ maxRegionsCount) (hself : OnTable L s.self)
    (hd : s.self.descRegionIdx = d) (hdesc : HoldsTableAt L done.length c d n rest)
    (hinv : I rest done.length c f s) :
    wp (PageAllocator.initRegions rest.length done.length (L.pageAt c)) (fun _ s' =>
      (∃ f', I [] (done.length + rest.length) L.count f' s') ∧
      s'.self = withLists (afterRegions L s.self done rest c d n) s'.self ∧
      ∀ x ∉ L.table, s'.mem x = s.mem x) s := by
  induction rest generalizing done c f s with
  | nil =>
    have hcount := hat.count
    rw [pageSum_nil, Nat.add_zero] at hcount
    rw [List.length_nil, PageAllocator.initRegions, wp_pure]
    refine ⟨⟨f, hcount ▸ hinv⟩, ?_, fun _ _ => rfl⟩
    rw [afterRegions, if_neg (by simp only [List.length_nil]; omega), placeRegions, ← hobj]
    rfl
  | cons r rs ih =>
    obtain ⟨hl, hbelow, hcount⟩ := hI _ _ _ _ _ hinv
    have hr := hat.head hobj hlen
    rw [List.length_cons, PageAllocator.initRegions, wp_bind]
    have hround : wp (PageAllocator.initRegion done.length (L.pageAt c)) (fun page s' =>
        page = L.pageAt (c + r.pageCount) ∧
        s'.self = withLists (afterRegion L s.self done.length c (reservedAt d n done.length) r)
          s'.self ∧
        reservedAt d n done.length ≤ r.pageCount % 2 ^ 21 ∧
        RegionStep L c (c + r.pageCount) (reservedAt d n done.length)
          (r.pageCount % 2 ^ 21 - reservedAt d n done.length) f
          (regionLists f c r.pageCount (reservedAt d n done.length))
          (regionTags c r.pageCount (reservedAt d n done.length)) s s') s := by
      by_cases hid : done.length = d
      · obtain ⟨hh, hn, hle⟩ := hdesc [] r rs rfl hid
        rw [reservedAt, if_pos hid]
        apply (hr.desc hself (hid.trans hd.symm) hh hn hle hl hbelow hcount).mono
        rintro _ s' ⟨rfl, hs', hst⟩
        exact ⟨rfl, hs', hle, hst⟩
      · rw [reservedAt, if_neg hid]
        refine (hr.other hself (fun e => hid (e.trans hd)) hl hbelow hcount).mono ?_
        rintro _ s' ⟨rfl, hs', hst⟩
        exact ⟨rfl, hs', Nat.zero_le _, hst⟩
    apply hround.mono
    rintro _ s₁ ⟨rfl, hs₁, hle, hst⟩
    have hobj₁ : s₁.self.regionsInfo =
        (done ++ [r.place L.config.pagesHead c]) ++ rs := by
      rw [hs₁]
      simp [withLists, afterRegion, hobj]
    have hlen₁ : (done ++ [r.place L.config.pagesHead c]).length = done.length + 1 := by simp
    rw [← hlen₁]
    refine (ih (done ++ [r.place L.config.pagesHead c]) hat.tail hobj₁ ?_ ?_ ?_ ?_
      (hlen₁ ▸ hstep _ _ _ _ _ _ _ hinv hr.pos hr.le hle hst)).mono ?_
    · rw [hobj₁]
      rw [hobj] at hlen
      simpa using hlen
    · rw [hs₁]
      exact ⟨hself.pagesHead, hself.pagesTail, hself.pageSize⟩
    · rw [hs₁]
      exact hd
    · rw [hlen₁]
      exact hdesc.tail
    · rintro _ s₂ ⟨⟨f', hf'⟩, hs₂, hfr⟩
      refine ⟨⟨f', ?_⟩, ?_, fun x hx => (hfr x hx).trans (hst.frame x hx)⟩
      · rwa [hlen₁, Nat.add_assoc, Nat.add_comm 1] at hf'
      · rw [hs₂, hs₁]
        simp only [withLists, afterRegions, afterRegion, List.append_assoc, List.singleton_append,
          placeRegions, hlen₁, hd, reservedAt, List.length_cons]
        congr 1
        split_ifs <;> first | rfl | omega

end Liballocator
