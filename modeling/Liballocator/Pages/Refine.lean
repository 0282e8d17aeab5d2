import Liballocator.Pages.Groups

/-!
# The operations on groups refine the abstract ones

For each of `removeGroup`, `addGroup`, `splitGroup` and `joinGroup` of the code: run in a state that
represents groups `a` it returns without a fault, and the state it ends in represents the groups
after the operation of the same name on `Pages`.
-/

namespace Liballocator

open Program LinkedList Tiling

variable [Platform]

variable {L : Layout} {a : Pages} {s : PageState} {g h : Group}

/-! ### Accesses to the array of lists -/

omit [Platform] in
/-- The rule for reading the head of a list. -/
@[simp] theorem PageAllocator.wp_freeGroupListAt {i : ℕ} {Q : ℕ → PageState → Prop} :
    wp (PageAllocator.freeGroupListAt i) Q s ↔
      i < maxGroupIdx ∧ Q (s.self.freeGroupLists i) s := by
  rw [PageAllocator.freeGroupListAt]
  by_cases hi : i ≥ maxGroupIdx
  · simp [hi]
  · simp [hi, Nat.lt_of_not_le hi]

omit [Platform] in
/-- The rule for writing the head of a list. -/
@[simp] theorem PageAllocator.wp_setFreeGroupListAt {i v : ℕ} {Q : PUnit → PageState → Prop} :
    wp (PageAllocator.setFreeGroupListAt i v) Q s ↔
      i < maxGroupIdx ∧ Q ⟨⟩ { s with self := { s.self with
        freeGroupLists := Function.update s.self.freeGroupLists i v } } := by
  rw [PageAllocator.setFreeGroupListAt]
  by_cases hi : i ≥ maxGroupIdx
  · simp [hi]
  · simp [hi, Nat.lt_of_not_le hi]

/-! ### Facts about represented groups -/

/-- The descriptors of the groups in a list. -/
def nodes (L : Layout) (l : List Group) : List ℕ := l.map fun g => L.pageAt g.first

/-- The nodes of a list are the first descriptors of its groups. -/
theorem mem_nodes {l : List Group} {x : ℕ} : x ∈ nodes L l ↔ ∃ g ∈ l, L.pageAt g.first = x :=
  List.mem_map

/-- The descriptor of a group of a tiling identifies the group. -/
theorem Pages.Inv.eq_of_pageAt (hi : a.Inv) (hg : g ∈ a.groups) (hh : h ∈ a.groups)
    (heq : L.pageAt g.first = L.pageAt h.first) : g = h :=
  hi.tiles.eq_of_first hg hh (Layout.pageAt_inj.mp heq)

/-- Every group begins in the table. -/
theorem Pages.Inv.first_lt (hi : a.Inv) (hc : a.count ≤ L.count) (hg : g ∈ a.groups) :
    g.first < L.count := (hi.tiles.first_lt hg).trans_le hc

/-- The nodes of the lists are descriptors. -/
theorem Pages.Inv.nodes_subset (hi : a.Inv) (hc : a.count ≤ L.count) {i x : ℕ}
    (hmax : i < maxGroupIdx) (hx : x ∈ nodes L (a.free i)) : x ∈ L.descriptors := by
  obtain ⟨g, hg, rfl⟩ := mem_nodes.mp hx
  exact ⟨g.first, hi.first_lt hc (mem_groups.mpr (Or.inr (mem_freeGroups.mpr ⟨i, hmax, hg⟩))), rfl⟩

/-- Different lists have different nodes. -/
theorem Pages.Inv.nodes_disjoint (hi : a.Inv) {i j x : ℕ} (hij : i ≠ j) (him : i < maxGroupIdx)
    (hjm : j < maxGroupIdx) (hx : x ∈ nodes L (a.free i)) : x ∉ nodes L (a.free j) := by
  intro hx'
  obtain ⟨g, hg, rfl⟩ := mem_nodes.mp hx
  obtain ⟨h, hh, heq⟩ := mem_nodes.mp hx'
  have := hi.eq_of_pageAt (mem_groups.mpr (Or.inr (mem_freeGroups.mpr ⟨j, hjm, hh⟩)))
    (mem_groups.mpr (Or.inr (mem_freeGroups.mpr ⟨i, him, hg⟩))) heq
  subst this
  exact hij ((hi.listed i h hg).symm.trans (hi.listed j h hh))

omit [Platform] in
/-- The groups of a small table are small. -/
theorem Pages.Inv.size_lt (hi : a.Inv) (hc : a.count < 2 ^ 21) (hg : g ∈ a.groups) :
    g.size < 2 ^ 21 :=
  (Nat.le_add_left _ _).trans_lt ((hi.tiles.stop_le hg).trans_lt hc)

omit [Platform] in
/-- Nothing of a group of a small table is lost. -/
theorem Pages.Inv.cut_eq (hi : a.Inv) (hc : a.count < 2 ^ 21) (hg : g ∈ a.groups) : cut g = g :=
  Liballocator.cut_eq (hi.size_lt hc hg)

omit [Platform] in
/-- The pages are free, lost or used. -/
theorem Pages.Inv.freeCount_add_le (hi : a.Inv) :
    (a.used.map Span.size).sum + a.freeCount ≤ a.count := by
  have h := hi.tiles.sum_size
  rw [Pages.groups, List.map_append, List.sum_append] at h
  rw [← h, Pages.freeCount]
  exact Nat.add_le_add_left (List.sum_le_sum fun g _ => cut_size_le g) _

omit [Platform] in
/-- No page of a small table is lost. -/
theorem Pages.Inv.freeCount_eq (hi : a.Inv) (hc : a.count < 2 ^ 21) :
    a.freeCount = (a.freeGroups.map Span.size).sum :=
  congrArg List.sum (List.map_congr_left fun g hg => by
    rw [hi.cut_eq hc (mem_groups.mpr (Or.inr hg))])

omit [Platform] in
/-- The pages of a small table are free or used. -/
theorem Pages.Inv.freeCount_add (hi : a.Inv) (hc : a.count < 2 ^ 21) :
    (a.used.map Span.size).sum + a.freeCount = a.count := by
  have h := hi.tiles.sum_size
  rw [Pages.groups, List.map_append, List.sum_append] at h
  rw [← h, hi.freeCount_eq hc]

omit [Platform] in
/-- The number of free pages is at most the number of pages. -/
theorem Pages.Inv.freeCount_le (hi : a.Inv) : a.freeCount ≤ a.count :=
  (Nat.le_add_left _ _).trans hi.freeCount_add_le

/-- The tags and flags do not depend on the links. -/
theorem flagStep_of_links {m m' : Mem} (hfr : ∀ x ∉ linkWords L.descriptors, m' x = m x) :
    FlagStep L m' m' (tagAt L m) (usedAt L m) := by
  have hfield : ∀ i, m' (L.pageAt i + 3 * wordBytes) = m (L.pageAt i + 3 * wordBytes) :=
    fun i => hfr _ (Layout.field_not_mem_linkWords (by omega) (by omega))
  refine FlagStep.refl.congr (fun i _ => ?_) fun i _ => ?_
  · rw [tagAt, tagAt, hfield]
  · rw [usedAt, usedAt, hfield]

/-- The links do not matter for the addresses of the pages. -/
theorem addrAt_of_links {m m' : Mem} (hfr : ∀ x ∉ linkWords L.descriptors, m' x = m x) (i : ℕ) :
    addrAt L m' i = addrAt L m i :=
  hfr _ (Layout.field_not_mem_linkWords (by omega) (by omega))

/-- The tags in the memory, read through a step. -/
theorem TableRep.flagsGroupSize (hr : TableRep L a s) (hg : g ∈ a.groups) :
    flagsGroupSize (s.mem (L.pageAt g.first + 3 * wordBytes)) = (cut g).size :=
  (hr.tags g hg).first

/-- A list of the memory after a change of flags only. -/
theorem isList_of_flagStep {m m' : Mem} {tag : ℕ → ℕ} {used : ℕ → Bool}
    (hst : FlagStep L m m' tag used) {head : ℕ} {xs : List ℕ} (hl : IsList (links m) head xs)
    (hsub : ∀ x ∈ xs, x ∈ L.descriptors) : IsList (links m') head xs := by
  refine hl.congr (fun x hx => ?_) fun x hx => ?_
  · obtain ⟨i, hi, rfl⟩ := hsub x hx
    exact (hst.links i hi).1
  · obtain ⟨i, hi, rfl⟩ := hsub x hx
    exact (hst.links i hi).2

/-! ### `removeGroup` -/

/-- Taking a free group out of its list, before any flag is changed. -/
private theorem unlinkGroup_spec (hr : TableRep L a s) (hi : a.Inv) (hc : a.count ≤ L.count)
    (hg : g ∈ a.freeGroups) :
    wp (ListNode.removeFromList (L.pageAt g.first) (s.self.freeGroupLists (groupIdx (cut g).size)))
      (fun r m => (∀ x ∉ linkWords L.descriptors, m x = s.mem x) ∧
        (∀ i < maxGroupIdx, IsList (links m)
          (Function.update s.self.freeGroupLists (groupIdx (cut g).size) r i)
          (nodes L ((a.removeGroup g).free i))) ∧
        ∀ i < a.count, (∀ h ∈ (a.removeGroup g).freeGroups, h.first ≠ i) →
          m (L.pageAt i) = 0 ∧ m (L.pageAt i + wordBytes) = 0) s.mem := by
  have hidx := Pages.idx_lt g
  have hmem := hi.mem_free hg
  obtain ⟨xs, ys, hsplit⟩ := List.append_of_mem hmem
  have hlist := hr.lists _ hidx
  have hnodes : (a.free (groupIdx (cut g).size)).map (fun g => L.pageAt g.first) =
      nodes L xs ++ L.pageAt g.first :: nodes L ys := by
    rw [hsplit, List.map_append]
    rfl
  rw [hnodes] at hlist
  have hsub : ∀ x ∈ nodes L xs ++ L.pageAt g.first :: nodes L ys, x ∈ L.descriptors := by
    intro x hx
    rw [← hnodes] at hx
    exact hi.nodes_subset hc hidx hx
  have herase : (a.free (groupIdx (cut g).size)).erase g = xs ++ ys := by
    have hnd : (a.free (groupIdx (cut g).size)).Nodup :=
      ((Pages.freeGroups_perm hidx).nodup_iff.mp
        (List.nodup_append.mp hi.tiles.nodup).2.1).of_append_left
    rw [hsplit] at hnd ⊢
    have hx : g ∉ xs := fun hm => (List.nodup_append.mp hnd).2.2 g hm g (by simp) rfl
    rw [List.erase_append_right _ hx, List.erase_cons_head]
  apply (ListNode.removeFromList_spec Layout.descriptors_apart hlist hsub).mono
  rintro r m ⟨rfl, hlinks, hfr⟩
  refine ⟨hfr, fun i him => ?_, fun i hic hfree => ?_⟩
  · by_cases hii : i = groupIdx (cut g).size
    · subst hii
      simp only [Pages.removeGroup, Function.update_self, herase]
      have hl := hlist.unlink
      rw [show nodes L (xs ++ ys) = nodes L xs ++ nodes L ys from List.map_append]
      exact hl.congr (fun x hx => (hlinks x (hsub x (by simp at hx ⊢; tauto))).1)
        fun x hx => (hlinks x (hsub x (by simp at hx ⊢; tauto))).2
    · simp only [Pages.removeGroup, Function.update_of_ne hii]
      have hl := hlist.unlink_other (hr.lists i him) fun x hx => by
        rw [← hnodes]
        exact hi.nodes_disjoint hii him hidx hx
      exact hl.congr (fun x hx => (hlinks x (hi.nodes_subset hc him hx)).1)
        fun x hx => (hlinks x (hi.nodes_subset hc him hx)).2
  · have hiL : i < L.count := hic.trans_le hc
    obtain ⟨hn, hp⟩ := hlinks (L.pageAt i) ⟨i, hiL, rfl⟩
    by_cases hig : i = g.first
    · subst hig
      exact ⟨hn.trans Links.unlink_self.1, hp.trans Links.unlink_self.2⟩
    · have hperm := Pages.freeGroups_removeGroup hmem
      have hold := hr.unlinked i hic fun h hh => by
        rcases List.mem_cons.mp (hperm.mem_iff.mp hh) with rfl | hh
        · exact Ne.symm hig
        · exact hfree h hh
      -- the neighbours of `g` are free groups
      have hnb : ∀ x, x ∈ nodes L xs ∨ x ∈ nodes L ys → L.pageAt i ≠ x := by
        rintro x hx rfl
        have hx' : L.pageAt i ∈ nodes L ((a.removeGroup g).free (groupIdx (cut g).size)) := by
          simp only [Pages.removeGroup, Function.update_self, herase, nodes, List.map_append,
            List.mem_append]
          exact hx
        obtain ⟨h, hh, heq⟩ := mem_nodes.mp hx'
        exact hfree h (Pages.mem_freeGroups.mpr ⟨_, hidx, hh⟩) (Layout.pageAt_inj.mp heq)
      obtain ⟨hnx, hpv⟩ := hlist.neighbours_mem
      have hkeep := Links.unlink_eq_of_ne (L := links s.mem) (n := L.pageAt g.first)
        (a := L.pageAt i) (fun e => hig (Layout.pageAt_inj.mp e)) (fun e => ?_) fun e => ?_
      · exact ⟨(hn.trans hkeep.1).trans hold.1, (hp.trans hkeep.2).trans hold.2⟩
      · rcases hnx with h0 | hm
        · exact Layout.pageAt_ne_zero i (e.trans h0)
        · exact hnb _ (Or.inr hm) e
      · rcases hpv with h0 | hm
        · exact Layout.pageAt_ne_zero i (e.trans h0)
        · exact hnb _ (Or.inl hm) e

/-- The rule for `removeGroup`: a free group becomes a used one. -/
theorem removeGroup_spec (hr : TableRep L a s) (hi : a.Inv) (hc : a.count ≤ L.count)
    (hg : g ∈ a.freeGroups) :
    wp (PageAllocator.removeGroup (L.pageAt g.first))
      (fun _ s' => TableRep L (a.removeGroup g) s' ∧ Keeps L s s') s := by
  have hgg := Pages.mem_groups.mpr (Or.inr hg)
  have hidx := Pages.idx_lt g
  have hmem := hi.mem_free hg
  have hlt := hi.first_lt hc hgg
  have hstop : g.first + (cut g).size ≤ L.count :=
    (Nat.add_le_add_left (cut_size_le g) _).trans ((hi.tiles.stop_le hgg).trans hc)
  have hperm := Pages.freeGroups_removeGroup hmem
  simp only [PageAllocator.removeGroup, wp_bind, wp_assert, wp_liftMem, Page.wp_groupSize,
    hr.flagsGroupSize hgg, PageAllocator.wp_freeGroupListAt,
    PageAllocator.wp_setFreeGroupListAt, wp_modify]
  refine ⟨Layout.pageAt_ne_zero _, Layout.pageAt_ne_zero _, hidx, ?_⟩
  apply (unlinkGroup_spec hr hi hc hg).mono
  rintro r m ⟨hfr, hlists, hunl⟩
  have hst := flagStep_of_links hfr
  have htag : tagAt L s.mem g.first = (cut g).size := (hr.tags g hgg).first
  have ht : flagsGroupSize (m (L.pageAt g.first + 3 * wordBytes)) = (cut g).size :=
    (hst.tag g.first hlt).trans htag
  simp only [ht]
  refine ⟨hidx, Layout.pageAt_ne_zero _, ?_⟩
  have hfuel : (cut g).size - 0 < loopBound := by
    have := Layout.count_lt_loopBound (L := L)
    omega
  refine (setGroupUsed_spec (g := cut g) hst hstop htag hlt (Nat.zero_le _) hfuel).mono
    fun _ m' hst' => ?_
  refine ⟨⟨?_, fun i hic => ?_, fun i him => ?_, fun i hic hfree => ?_, fun h hh => ?_,
    fun h hh i hcov => ?_, fun h hh i hcov => ?_⟩, ⟨rfl, fun x hx => ?_⟩⟩
  · -- the counter
    have hsum : a.freeCount = (cut g).size + (a.removeGroup g).freeCount := by
      rw [Pages.freeCount, (hperm.map _).sum_eq, List.map_cons, List.sum_cons]
      rfl
    have := hi.freeCount_le
    have := Layout.count_lt_loopBound (L := L)
    unfold loopBound at this
    simp only [hr.freeCount]
    rw [Word.sub_eq (by omega) (by omega)]
    omega
  · exact ((hst'.addr i (hic.trans_le hc)).trans (addrAt_of_links hfr i)).trans (hr.addr i hic)
  · apply isList_of_flagStep hst' (hlists i him)
    intro x hx
    exact (hi.removeGroup hg).nodes_subset hc him hx
  · have hl := hst'.links i (hic.trans_le hc)
    have hu := hunl i hic hfree
    exact ⟨hl.1.trans hu.1, hl.2.trans hu.2⟩
  · have hh' : h ∈ a.groups := (Pages.groups_removeGroup hmem).mem_iff.mpr hh
    refine (hr.tags h hh').congr (hi.tiles.size_pos hh') fun i hcov => hst'.tag i ?_
    exact (hi.tiles.lt_of_covers hh' hcov).trans_le hc
  · have hh' : h ∈ a.groups :=
      (Pages.groups_removeGroup hmem).mem_iff.mpr (Pages.mem_groups.mpr (Or.inl hh))
    apply (hst'.used i ((hi.tiles.lt_of_covers hh' hcov).trans_le hc)).trans
    split_ifs with hig
    · rfl
    · rcases List.mem_cons.mp hh with rfl | hh
      · -- the page is one of those that are lost
        have h₁ := hcov.1
        rw [hr.free h hg i hcov, decide_eq_true]
        simp only [cut_first] at hig
        omega
      · exact hr.used h hh i hcov
  · have hne : ¬(cut g).Covers i := by
      have hnd := hi.tiles.perm (List.Perm.append_left _ hperm)
      rintro ⟨h₁, h₂⟩
      have hgi : g.Covers i := ⟨h₁, h₂.trans_le (Nat.add_le_add_left (cut_size_le g) _)⟩
      have := hnd.eq_of_covers (g := g) (h := h) (by simp) (by simp [hh]) hgi hcov
      subst this
      have hnd' := (List.nodup_append.mp hnd.nodup).2.1
      exact (List.nodup_cons.mp hnd').1 hh
    have hh' : h ∈ a.freeGroups := hperm.mem_iff.mpr (List.mem_cons_of_mem _ hh)
    refine (hst'.used i ?_).trans ?_
    · exact (hi.tiles.lt_of_covers (Pages.mem_groups.mpr (Or.inr hh')) hcov).trans_le hc
    · rw [if_neg (by simpa [Span.Covers] using hne)]
      exact hr.free h hh' i hcov
  · exact (hst'.frame x hx).trans (hfr x (Layout.linkWords_subset_table hx))

/-! ### `addGroup` -/

/-- The free lists with the group `g` in front of the list for its size. -/
def insertGroup (f : ℕ → List Group) (g : Group) : ℕ → List Group :=
  Function.update f (groupIdx g.size) (g :: f (groupIdx g.size))

/-- The lists of the state `s` hold the groups that `f` gives for each of them. -/
structure Listed (L : Layout) (f : ℕ → List Group) (s : PageState) : Prop where
  lists : ∀ i < maxGroupIdx, IsList (links s.mem) (s.self.freeGroupLists i) (nodes L (f i))
  first_lt : ∀ i < maxGroupIdx, ∀ h ∈ f i, h.first < L.count
  /-- No group is in two lists. -/
  apart : ∀ i < maxGroupIdx, ∀ j < maxGroupIdx, ∀ h ∈ f i, ∀ k ∈ f j, h.first = k.first → i = j

/-- The group `g` is not in one of the lists. -/
def Fresh (f : ℕ → List Group) (i : ℕ) : Prop := ∀ j < maxGroupIdx, ∀ h ∈ f j, h.first ≠ i

variable {f : ℕ → List Group}

/-- The nodes of the lists are descriptors. -/
theorem Listed.nodes_subset (hl : Listed L f s) {i x : ℕ} (him : i < maxGroupIdx)
    (hx : x ∈ nodes L (f i)) : x ∈ L.descriptors := by
  obtain ⟨h, hh, rfl⟩ := mem_nodes.mp hx
  exact ⟨h.first, hl.first_lt i him h hh, rfl⟩

/-- A descriptor that is fresh is in no list. -/
theorem Fresh.not_mem_nodes {i : ℕ} (hf : Fresh f i) {j : ℕ} (hjm : j < maxGroupIdx) :
    L.pageAt i ∉ nodes L (f j) := by
  intro hx
  obtain ⟨h, hh, heq⟩ := mem_nodes.mp hx
  exact hf j hjm h hh (Layout.pageAt_inj.mp heq)

/-- A head that is not null is a node of its list. -/
theorem Listed.head_mem (hl : Listed L f s) {i : ℕ} (him : i < maxGroupIdx)
    (h0 : s.self.freeGroupLists i ≠ 0) : s.self.freeGroupLists i ∈ nodes L (f i) := by
  have hlist := hl.lists i him
  cases hf : f i with
  | nil =>
    rw [hf] at hlist
    exact absurd (isList_nil_iff.mp hlist) h0
  | cons x xs =>
    rw [hf] at hlist
    rw [hlist.head_eq]
    simp [nodes]

/-- Putting a group in front of its list, before any flag is changed. -/
private theorem linkGroup_spec (hl : Listed L f s) (hidx : groupIdx g.size < maxGroupIdx)
    (hg : g.first < L.count) (hfresh : Fresh f g.first) (hnext : s.mem (L.pageAt g.first) = 0)
    (hprev : s.mem (L.pageAt g.first + wordBytes) = 0) :
    wp (ListNode.addToList (L.pageAt g.first) (s.self.freeGroupLists (groupIdx g.size)))
      (fun r m => (∀ x ∉ linkWords L.descriptors, m x = s.mem x) ∧
        (∀ i < maxGroupIdx, IsList (links m)
          (Function.update s.self.freeGroupLists (groupIdx g.size) r i)
          (nodes L (insertGroup f g i))) ∧
        ∀ i < L.count, i ≠ g.first → Fresh f i → m (L.pageAt i) = s.mem (L.pageAt i) ∧
          m (L.pageAt i + wordBytes) = s.mem (L.pageAt i + wordBytes)) s.mem := by
  have hgS : L.pageAt g.first ∈ L.descriptors := ⟨_, hg, rfl⟩
  have hlist := hl.lists _ hidx
  refine (ListNode.addToList_spec Layout.descriptors_apart hgS
    (fun h0 => hl.nodes_subset hidx (hl.head_mem hidx h0)) (Layout.pageAt_ne_zero _) hnext
    hprev).mono ?_
  rintro r m ⟨rfl, hlinks, hfr⟩
  refine ⟨hfr, fun i him => ?_, fun i hic hig hfi => ?_⟩
  · by_cases hii : i = groupIdx g.size
    · subst hii
      simp only [insertGroup, Function.update_self]
      have hp := hlist.push (Layout.pageAt_ne_zero _) (hfresh.not_mem_nodes hidx) hnext hprev
      have hsub : ∀ x ∈ nodes L (g :: f (groupIdx g.size)), x ∈ L.descriptors := by
        intro x hx
        rcases List.mem_cons.mp hx with rfl | hx
        · exact hgS
        · exact hl.nodes_subset hidx hx
      exact hp.congr (fun x hx => (hlinks x (hsub x hx)).1) fun x hx => (hlinks x (hsub x hx)).2
    · simp only [insertGroup, Function.update_of_ne hii]
      have hp := hlist.push_other (hl.lists i him) (hfresh.not_mem_nodes him) fun x hx hx' => by
        obtain ⟨h, hh, rfl⟩ := mem_nodes.mp hx
        obtain ⟨k, hk, heq⟩ := mem_nodes.mp hx'
        exact hii (hl.apart i him _ hidx h hh k hk (Layout.pageAt_inj.mp heq.symm))
      exact hp.congr (fun x hx => (hlinks x (hl.nodes_subset him hx)).1)
        fun x hx => (hlinks x (hl.nodes_subset him hx)).2
  · obtain ⟨hn, hp⟩ := hlinks (L.pageAt i) ⟨i, hic, rfl⟩
    have hne : L.pageAt i ≠ s.self.freeGroupLists (groupIdx g.size) := by
      intro e
      have hmem := hl.head_mem hidx (e ▸ Layout.pageAt_ne_zero i)
      exact hfi.not_mem_nodes hidx (e ▸ hmem)
    have hkeep := Links.push_eq_of_ne (L := links s.mem)
      (fun e => hig (Layout.pageAt_inj.mp e)) hne
    exact ⟨hn.trans hkeep.1, hp.trans hkeep.2⟩

/-- What `addGroup` does with a group `g` that is in none of the lists `f`. -/
structure AddStep (L : Layout) (f : ℕ → List Group) (g : Group) (s s' : PageState) : Prop where
  keeps : Keeps L s s'
  counter : s'.self.freePagesCount = Word.add s.self.freePagesCount g.size
  listed : Listed L (insertGroup f g) s'
  links : ∀ i < L.count, i ≠ g.first → Fresh f i → s'.mem (L.pageAt i) = s.mem (L.pageAt i) ∧
    s'.mem (L.pageAt i + wordBytes) = s.mem (L.pageAt i + wordBytes)
  addr : ∀ i < L.count, addrAt L s'.mem i = addrAt L s.mem i
  tag : ∀ i < L.count, tagAt L s'.mem i = tagAt L s.mem i
  used : ∀ i < L.count, usedAt L s'.mem i = if g.Covers i then false else usedAt L s.mem i

/-- The rule for `addGroup`, for a group whose size is in its first tag. -/
theorem addGroup_step (hl : Listed L f s) (hg : g.first < L.count)
    (hstop : g.first + g.size ≤ L.count) (htag : tagAt L s.mem g.first = g.size)
    (hfresh : Fresh f g.first) (hnext : s.mem (L.pageAt g.first) = 0)
    (hprev : s.mem (L.pageAt g.first + wordBytes) = 0) :
    wp (PageAllocator.addGroup (L.pageAt g.first)) (fun _ s' => AddStep L f g s s') s := by
  have hsize : g.size < 2 ^ 21 := htag ▸ FlagStep.refl.size_lt hg
  have hidx := Pages.groupIdx_lt hsize
  have ht₀ : flagsGroupSize (s.mem (L.pageAt g.first + 3 * wordBytes)) = g.size := htag
  simp only [PageAllocator.addGroup, wp_bind, wp_assert, wp_liftMem, Page.wp_groupSize, ht₀,
    PageAllocator.wp_freeGroupListAt, PageAllocator.wp_setFreeGroupListAt, wp_modify]
  refine ⟨Layout.pageAt_ne_zero _, Layout.pageAt_ne_zero _, hidx, ?_⟩
  apply (linkGroup_spec hl hidx hg hfresh hnext hprev).mono
  rintro r m ⟨hfr, hlists, hkeep⟩
  have hst := flagStep_of_links hfr
  have ht : flagsGroupSize (m (L.pageAt g.first + 3 * wordBytes)) = g.size :=
    (hst.tag g.first hg).trans htag
  simp only [ht]
  refine ⟨hidx, Layout.pageAt_ne_zero _, ?_⟩
  have hfuel : g.size - 0 < loopBound := by
    have := two_pow_32_le
    unfold loopBound
    omega
  apply (setGroupUsed_spec hst hstop htag hg (Nat.zero_le _) hfuel).mono
  intro _ m' hst'
  have hmem : ∀ i < maxGroupIdx, ∀ h ∈ insertGroup f g i, h = g ∧ i = groupIdx g.size ∨ h ∈ f i := by
    intro i _ h hh
    by_cases hii : i = groupIdx g.size
    · subst hii
      simp only [insertGroup, Function.update_self, List.mem_cons] at hh
      exact hh.imp (fun e => ⟨e, rfl⟩) id
    · rw [insertGroup, Function.update_of_ne hii] at hh
      exact Or.inr hh
  have hlt : ∀ i < maxGroupIdx, ∀ h ∈ insertGroup f g i, h.first < L.count := by
    intro i him h hh
    rcases hmem i him h hh with ⟨rfl, -⟩ | hh
    · exact hg
    · exact hl.first_lt i him h hh
  refine ⟨⟨rfl, fun x hx => ?_⟩, rfl, ⟨fun i him => ?_, hlt, ?_⟩, fun i hic hig hfi => ?_,
    fun i hic => ?_, fun i hic => hst'.tag i hic, fun i hic => ?_⟩
  · exact (hst'.frame x hx).trans (hfr x (Layout.linkWords_subset_table hx))
  · apply isList_of_flagStep hst' (hlists i him)
    intro x hx
    obtain ⟨h, hh, rfl⟩ := mem_nodes.mp hx
    exact ⟨h.first, hlt i him h hh, rfl⟩
  · intro i him j hjm h hh k hk heq
    rcases hmem i him h hh with ⟨rfl, rfl⟩ | hh' <;> rcases hmem j hjm k hk with ⟨rfl, rfl⟩ | hk'
    · rfl
    · exact absurd heq.symm (hfresh j hjm k hk')
    · exact absurd heq (hfresh i him h hh')
    · exact hl.apart i him j hjm h hh' k hk' heq
  · have hk := hkeep i hic hig hfi
    have hl' := hst'.links i hic
    exact ⟨hl'.1.trans hk.1, hl'.2.trans hk.2⟩
  · exact (hst'.addr i hic).trans (addrAt_of_links hfr i)
  · exact hst'.used i hic

/-- The free groups list by list, as their tags describe them. -/
def Pages.listedGroups (a : Pages) (i : ℕ) : List Group := (a.free i).map cut

omit [Platform] in
/-- The lists hold the free groups with their stored sizes. -/
theorem Pages.mem_listedGroups {i : ℕ} : h ∈ a.listedGroups i ↔ ∃ k ∈ a.free i, cut k = h :=
  List.mem_map

/-- The stored sizes do not matter for the nodes. -/
theorem nodes_listedGroups (i : ℕ) : nodes L (a.listedGroups i) = nodes L (a.free i) :=
  List.map_map

omit [Platform] in
/-- The lists with one more group. -/
theorem Pages.listedGroups_addGroup :
    (a.addGroup g).listedGroups = insertGroup a.listedGroups (cut g) := by
  funext i
  unfold insertGroup Pages.listedGroups Pages.addGroup
  by_cases hii : i = groupIdx (cut g).size
  · subst hii
    simp only [Function.update_self, List.map_cons]
  · simp only [Function.update_of_ne hii]

/-- The lists of a represented state hold its free groups. -/
theorem TableRep.listed (hr : TableRep L a s) (hi : a.Inv) (hc : a.count ≤ L.count) :
    Listed L a.listedGroups s := by
  have hmem : ∀ i < maxGroupIdx, ∀ h ∈ a.free i, h ∈ a.groups := fun i him h hh =>
    Pages.mem_groups.mpr (Or.inr (Pages.mem_freeGroups.mpr ⟨i, him, hh⟩))
  refine ⟨fun i him => ?_, fun i him h hh => ?_, fun i him j hjm h hh k hk heq => ?_⟩
  · rw [nodes_listedGroups]
    exact hr.lists i him
  · obtain ⟨h, hf, rfl⟩ := Pages.mem_listedGroups.mp hh
    exact hi.first_lt (g := h) hc (hmem i him h hf)
  · obtain ⟨h, hf, rfl⟩ := Pages.mem_listedGroups.mp hh
    obtain ⟨k, kf, rfl⟩ := Pages.mem_listedGroups.mp hk
    have := hi.tiles.eq_of_first (hmem i him h hf) (hmem j hjm k kf) heq
    subst this
    exact (hi.listed i h hf).symm.trans (hi.listed j h kf)

omit [Platform] in
/-- A used group is in none of the lists. -/
theorem Pages.Inv.fresh (hi : a.Inv) (hg : g ∈ a.used) : Fresh a.listedGroups g.first := by
  intro j hjm h hh heq
  obtain ⟨h, hf, rfl⟩ := mem_listedGroups.mp hh
  have hh' : h ∈ a.freeGroups := mem_freeGroups.mpr ⟨j, hjm, hf⟩
  have := hi.tiles.eq_of_first (mem_groups.mpr (Or.inr hh')) (mem_groups.mpr (Or.inl hg)) heq
  subst this
  exact (List.nodup_append.mp hi.tiles.nodup).2.2 h hg h hh' rfl

omit [Platform] in
/-- A descriptor is fresh when no free group begins there. -/
theorem Pages.fresh_iff {i : ℕ} : Fresh a.listedGroups i ↔ ∀ h ∈ a.freeGroups, h.first ≠ i := by
  constructor
  · intro hf h hh
    obtain ⟨j, hjm, hh⟩ := mem_freeGroups.mp hh
    exact hf j hjm (cut h) (mem_listedGroups.mpr ⟨h, hh, rfl⟩)
  · intro hf j hjm h hh
    obtain ⟨h, hh', rfl⟩ := mem_listedGroups.mp hh
    exact hf h (mem_freeGroups.mpr ⟨j, hjm, hh'⟩)

/-- The rule for `addGroup`: a used group becomes a free one. -/
theorem addGroup_spec (hr : TableRep L a s) (hi : a.Inv) (hc : a.count ≤ L.count)
    (hg : g ∈ a.used) :
    wp (PageAllocator.addGroup (L.pageAt g.first))
      (fun _ s' => TableRep L (a.addGroup g) s' ∧ Keeps L s s') s := by
  have hgg := Pages.mem_groups.mpr (Or.inl hg)
  have hstop : g.first + (cut g).size ≤ L.count :=
    (Nat.add_le_add_left (cut_size_le g) _).trans ((hi.tiles.stop_le hgg).trans hc)
  have hperm := Pages.freeGroups_addGroup (a := a) (g := g)
  have hi' := hi.addGroup hg
  have hfresh := hi.fresh hg
  have hlinks := hr.unlinked g.first (hi.tiles.first_lt hgg) (Pages.fresh_iff.mp hfresh)
  have hfirst := hi.first_lt hc hgg
  refine (addGroup_step (g := cut g) (hr.listed hi hc) hfirst hstop (hr.tags g hgg).first hfresh
    hlinks.1 hlinks.2).mono fun _ s' hst => ⟨?_, hst.keeps⟩
  have hlt : ∀ h ∈ a.groups, ∀ i, h.Covers i → i < L.count :=
    fun h hh i hcov => (hi.tiles.lt_of_covers hh hcov).trans_le hc
  have hother : ∀ h ∈ a.groups, h ≠ g → ∀ i, h.Covers i → ¬(cut g).Covers i := by
    rintro h hh hne i hcov ⟨h₁, h₂⟩
    have hgi : g.Covers i := ⟨h₁, h₂.trans_le (Nat.add_le_add_left (cut_size_le g) _)⟩
    exact hne (hi.tiles.eq_of_covers hh hgg hcov hgi)
  have hnd := List.nodup_append.mp hi.tiles.nodup
  refine ⟨?_, fun i hic => ?_, fun i him => ?_, fun i hic hfree => ?_, fun h hh => ?_,
    fun h hh i hcov => ?_, fun h hh i hcov => ?_⟩
  · -- the counter
    have hsum : (a.addGroup g).freeCount = (cut g).size + a.freeCount := by
      rw [Pages.freeCount, (hperm.map _).sum_eq, List.map_cons, List.sum_cons]
      rfl
    have h₁ := hi'.freeCount_le
    have h₂ : (a.addGroup g).count = a.count := rfl
    have h₃ := Layout.count_lt_loopBound (L := L)
    unfold loopBound at h₃
    rw [hst.counter, hr.freeCount, Word.add_eq (by omega)]
    omega
  · exact (hst.addr i (hic.trans_le hc)).trans (hr.addr i hic)
  · have hl := hst.listed.lists i him
    rw [← Pages.listedGroups_addGroup, nodes_listedGroups] at hl
    exact hl
  · have hfree' : ∀ h ∈ a.freeGroups, h.first ≠ i := fun h hh =>
      hfree h (hperm.mem_iff.mpr (List.mem_cons_of_mem _ hh))
    have hl := hst.links i (hic.trans_le hc)
      (hfree g (hperm.mem_iff.mpr List.mem_cons_self)).symm (Pages.fresh_iff.mpr hfree')
    have hu := hr.unlinked i hic hfree'
    exact ⟨hl.1.trans hu.1, hl.2.trans hu.2⟩
  · have hh' : h ∈ a.groups := (Pages.groups_addGroup hg).mem_iff.mpr hh
    exact (hr.tags h hh').congr (hi.tiles.size_pos hh') fun i hcov => hst.tag i (hlt h hh' i hcov)
  · have hh' : h ∈ a.used := List.mem_of_mem_erase hh
    have hne : h ≠ g := fun e => hnd.1.not_mem_erase (e ▸ hh)
    have hh'' := Pages.mem_groups.mpr (Or.inl hh')
    rw [hst.used i (hlt h hh'' i hcov), if_neg (hother h hh'' hne i hcov)]
    exact hr.used h hh' i hcov
  · rcases List.mem_cons.mp (hperm.mem_iff.mp hh) with rfl | hh'
    · -- the lost pages of the group stay used
      rw [hst.used i (hlt _ hgg i hcov), hr.used _ hg i hcov]
      obtain ⟨h₁, -⟩ := hcov
      simp only [Span.Covers, cut_first, h₁, true_and]
      split_ifs with hcut
      · exact (decide_eq_false (Nat.not_le_of_lt hcut)).symm
      · exact (decide_eq_true (Nat.le_of_not_lt hcut)).symm
    · have hh'' := Pages.mem_groups.mpr (Or.inr hh')
      have hne : h ≠ g := fun e => hnd.2.2 g hg h hh' e.symm
      rw [hst.used i (hlt h hh'' i hcov), if_neg (hother h hh'' hne i hcov)]
      exact hr.free h hh' i hcov

/-! ### `splitGroup` and `joinGroup` -/

/-- A change of tags only: the state represents groups with the same free part. -/
theorem TableRep.of_flagStep {a' : Pages} {m' : Mem} {tag : ℕ → ℕ} (hr : TableRep L a s)
    (hi : a.Inv) (hc : a.count ≤ L.count) (hst : FlagStep L s.mem m' tag (usedAt L s.mem))
    (hcount : a'.count = a.count) (hfree : a'.free = a.free) (hi' : a'.Inv)
    (htags : ∀ g ∈ a'.groups, Tagged tag g)
    (hused : ∀ g ∈ a'.used, ∀ i, g.Covers i → ∃ h ∈ a.used, h.Covers i) :
    TableRep L a' { s with mem := m' } := by
  have hfg : a'.freeGroups = a.freeGroups := by rw [Pages.freeGroups, hfree, Pages.freeGroups]
  have hlt : ∀ h ∈ a'.groups, ∀ i, h.Covers i → i < L.count := by
    intro h hh i hcov
    have h₁ := hi'.tiles.lt_of_covers hh hcov
    have h₂ := hc
    omega
  refine ⟨?_, fun i hic => ?_, fun i him => ?_, fun i hic hf => ?_, fun h hh => ?_,
    fun h hh i hcov => ?_, fun h hh i hcov => ?_⟩
  · rw [Pages.freeCount, hfg]
    exact hr.freeCount
  · rw [hcount] at hic
    exact (hst.addr i (hic.trans_le hc)).trans (hr.addr i hic)
  · rw [hfree]
    exact isList_of_flagStep hst (hr.lists i him) fun x hx => hi.nodes_subset hc him hx
  · rw [hcount] at hic
    rw [hfg] at hf
    have hl := hst.links i (hic.trans_le hc)
    have hu := hr.unlinked i hic hf
    exact ⟨hl.1.trans hu.1, hl.2.trans hu.2⟩
  · exact (htags h hh).congr (hi'.tiles.size_pos hh) fun i hcov => hst.tag i (hlt h hh i hcov)
  · obtain ⟨k, hk, hki⟩ := hused h hh i hcov
    exact (hst.used i (hlt h (Pages.mem_groups.mpr (Or.inl hh)) i hcov)).trans (hr.used k hk i hki)
  · have hi'' := hlt h (Pages.mem_groups.mpr (Or.inr hh)) i hcov
    rw [hfg] at hh
    exact (hst.used i hi'').trans (hr.free h hh i hcov)

/-- The rule for `splitGroup` on a used group that is larger than demanded. -/
theorem splitGroup_rep (hr : TableRep L a s) (hi : a.Inv) (hc : a.count ≤ L.count)
    (hg : g ∈ a.used) {n : ℕ} (hn : 0 < n) (hng : n < (cut g).size) :
    wp (splitGroup (L.pageAt g.first) n) (fun r m' =>
      r = (L.pageAt g.first, L.pageAt (g.first + n)) ∧
      TableRep L (a.splitGroup g n) { s with mem := m' } ∧ Keeps L s { s with mem := m' }) s.mem := by
  have hgg := Pages.mem_groups.mpr (Or.inl hg)
  have hle := cut_size_le g
  have hstop : g.first + (cut g).size ≤ L.count :=
    (Nat.add_le_add_left hle _).trans ((hi.tiles.stop_le hgg).trans hc)
  have htag := hr.tags g hgg
  apply (splitGroup_spec (g := cut g) FlagStep.refl hn hng hstop htag.first).mono
  rintro r m' ⟨rfl, hst⟩
  refine ⟨rfl, hr.of_flagStep hi hc hst rfl rfl (hi.splitGroup hg hn (hng.trans_le hle)) ?_ ?_,
    ⟨rfl, hst.frame⟩⟩
  · intro h hh
    have hh' : h ∈ (⟨g.first, n⟩ :: ⟨g.first + n, g.size - n⟩ :: (a.used.erase g ++ a.freeGroups) :
        List Group) := hh
    have hsplit := htag.split hn hng
    rcases List.mem_cons.mp hh' with rfl | hh'
    · exact hsplit.1
    rcases List.mem_cons.mp hh' with rfl | hh'
    · exact hsplit.2
    have ht := hi.tiles.perm (Pages.groups_perm_cons hg)
    have hne : h ≠ g := fun e => ht.not_mem_tail (e ▸ hh')
    have hhg : h ∈ a.groups :=
      (Pages.groups_perm_cons hg).mem_iff.mpr (List.mem_cons_of_mem _ hh')
    exact (hr.tags h hhg).congr (hi.tiles.size_pos hhg) fun i hcov =>
      splitTags_of_not_covers hn hng fun hgi => hne (hi.tiles.eq_of_covers hhg hgg hcov hgi)
  · intro h hh i hcov
    simp only [Pages.splitGroup, List.mem_cons] at hh
    rcases hh with rfl | rfl | hh
    · simp only [Span.Covers] at hcov
      exact ⟨g, hg, by omega, by omega⟩
    · simp only [Span.Covers] at hcov
      exact ⟨g, hg, by omega, by omega⟩
    · exact ⟨h, List.mem_of_mem_erase hh, hcov⟩

/-- The rule for `joinGroup` on adjacent used groups, nothing of the first one being lost. -/
theorem joinGroup_rep (hr : TableRep L a s) (hi : a.Inv) (hc : a.count ≤ L.count)
    (hg : g ∈ a.used) (hh : h ∈ a.used) (hlt : g.size < 2 ^ 21)
    (hadj : g.first + g.size = h.first) :
    wp (joinGroup (L.pageAt g.first) (L.pageAt h.first)) (fun r m' =>
      r = L.pageAt g.first ∧ TableRep L (a.joinGroup g h) { s with mem := m' } ∧
      Keeps L s { s with mem := m' }) s.mem := by
  have hgg := Pages.mem_groups.mpr (Or.inl hg)
  have hhg := Pages.mem_groups.mpr (Or.inl hh)
  have hpg := hi.tiles.size_pos hgg
  have hph := hi.tiles.size_pos hhg
  have hstop : h.first + (cut h).size ≤ L.count :=
    (Nat.add_le_add_left (cut_size_le h) _).trans ((hi.tiles.stop_le hhg).trans hc)
  have htg := hr.tags g hgg
  have hth := hr.tags h hhg
  have htag : tagAt L s.mem g.first = g.size := by rw [htg.first, cut_eq hlt]
  have hfirst := hi.first_lt hc hhg
  apply (joinGroup_spec (h := cut h) FlagStep.refl hpg hadj hfirst hstop htag hth.first).mono
  rintro r m' ⟨rfl, hst⟩
  refine ⟨rfl, hr.of_flagStep hi hc hst rfl rfl (hi.joinGroup hg hh hadj) ?_ ?_,
    ⟨rfl, hst.frame⟩⟩
  · intro k hk
    have hk' : k ∈ (⟨g.first, g.size + h.size⟩ :: ((a.used.erase g).erase h ++ a.freeGroups) :
        List Group) := hk
    rcases List.mem_cons.mp hk' with rfl | hk'
    · exact htg.join hth hpg hlt hadj
    have hsub : k ∈ a.groups ∧ k ≠ g ∧ k ≠ h := by
      have hnd := List.nodup_append.mp hi.tiles.nodup
      rcases List.mem_append.mp hk' with hk' | hk'
      · have hk₁ := List.mem_of_mem_erase hk'
        refine ⟨Pages.mem_groups.mpr (Or.inl (List.mem_of_mem_erase hk₁)), fun e => ?_, fun e => ?_⟩
        · exact hnd.1.not_mem_erase (e ▸ hk₁)
        · exact (hnd.1.erase g).not_mem_erase (e ▸ hk')
      · refine ⟨Pages.mem_groups.mpr (Or.inr hk'), fun e => ?_, fun e => ?_⟩
        · exact hnd.2.2 g hg k hk' e.symm
        · exact hnd.2.2 h hh k hk' e.symm
    obtain ⟨hkg, hne₁, hne₂⟩ := hsub
    exact (hr.tags k hkg).congr (hi.tiles.size_pos hkg) fun i hcov =>
      joinTags_of_not_covers hpg hph hadj
      (fun hgi => hne₁ (hi.tiles.eq_of_covers hkg hgg hcov hgi))
      fun hhi => hne₂ (hi.tiles.eq_of_covers hkg hhg hcov hhi)
  · intro k hk i hcov
    rcases List.mem_cons.mp hk with rfl | hk
    · simp only [Span.Covers] at hcov
      by_cases hih : i < h.first
      · exact ⟨g, hg, by omega, by omega⟩
      · exact ⟨h, hh, by omega, by omega⟩
    · exact ⟨k, List.mem_of_mem_erase (List.mem_of_mem_erase hk), hcov⟩

end Liballocator
