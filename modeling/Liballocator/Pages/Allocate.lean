import Liballocator.Pages.Refine

/-!
# `allocate` on groups

`Pages.allocate` looks for the first free group with enough pages, in the order of the lists, cuts
the demanded pages off its front and gives the rest back.  `PageRep.allocate` shows that the code
does the same on every state that represents the groups.
-/

namespace Liballocator

open Program LinkedList Tiling

namespace Pages

variable {a : Pages} {g h : Group} {n : ℕ}

/-- The free group `allocate` takes the pages from. -/
def search (a : Pages) (n : ℕ) : Option Group :=
  ((List.range' (groupIdx n) (maxGroupIdx - groupIdx n)).flatMap a.free).find?
    fun g => n ≤ (cut g).size

/-- The group that consists of the first `n` pages of `g`; if no page is left over it takes over
what is lost of `g`. -/
def taken (g : Group) (n : ℕ) : Group := if n = (cut g).size then g else ⟨g.first, n⟩

/-- The first `n` pages of the free group `g` become a used group. -/
def carve (a : Pages) (g : Group) (n : ℕ) : Pages :=
  if n = (cut g).size then a.removeGroup g
  else ((a.removeGroup g).splitGroup g n).addGroup ⟨g.first + n, g.size - n⟩

/-- The allocated group, if there is one, and the groups after the call. -/
def allocate (a : Pages) (n : ℕ) : Option Group × Pages :=
  if a.freeCount < n ∨ n = 0 then (none, a) else
    match a.search n with
    | none => (none, a)
    | some g => (some (taken g n), a.carve g n)

/-- The taken pages are the first ones of the group. -/
@[simp] theorem taken_first : (taken g n).first = g.first := by
  unfold taken
  split_ifs <;> rfl

/-- The tags of an allocated group show the demanded size. -/
theorem cut_taken (hng : n ≤ (cut g).size) : cut (taken g n) = ⟨g.first, n⟩ := by
  unfold taken
  split_ifs with he
  · subst he
    rfl
  · exact cut_eq (by have := cut_size_lt g; simp only; omega)

/-- As many pages are taken as are asked for. -/
theorem taken_eq (hg : g.size < 2 ^ 21) : taken g n = ⟨g.first, n⟩ := by
  unfold taken
  rw [cut_eq hg]
  split_ifs with he
  · rw [he]
  · rfl

/-- The group that is found is free and large enough. -/
theorem search_eq_some (h : a.search n = some g) : g ∈ a.freeGroups ∧ n ≤ (cut g).size := by
  have hmem := List.mem_of_find?_eq_some h
  obtain ⟨i, hi, hg⟩ := List.mem_flatMap.mp hmem
  rw [List.mem_range'] at hi
  obtain ⟨k, hk, rfl⟩ := hi
  exact ⟨mem_freeGroups.mpr ⟨_, by omega, hg⟩, by simpa using List.find?_some h⟩

/-- A group that is taken out of its list is in use. -/
theorem mem_used_removeGroup : g ∈ (a.removeGroup g).used := List.mem_cons_self

/-- The used groups after pages have been cut off a free group. -/
theorem used_carve (hi : a.Inv) (hg : g ∈ a.freeGroups) (hng : n ≤ (cut g).size) :
    (a.carve g n).used = taken g n :: a.used := by
  have hnot : g ∉ a.used := fun hu => (List.nodup_append.mp hi.tiles.nodup).2.2 g hu g hg rfl
  unfold carve taken
  split_ifs with he
  · rfl
  · have hle := cut_size_le g
    have hne : (⟨g.first, n⟩ : Group) ≠ ⟨g.first + n, g.size - n⟩ := by
      intro e
      injection e with e₁ e₂
      omega
    simp [Pages.addGroup, Pages.splitGroup, Pages.removeGroup, hne]

/-- The free groups after pages have been cut off a free group: only that group has changed. -/
theorem freeGroups_carve (hi : a.Inv) (hg : g ∈ a.freeGroups) :
    ∃ rest, a.freeGroups.Perm (g :: rest) ∧ (a.carve g n).freeGroups.Perm
      (if n = (cut g).size then rest else ⟨g.first + n, g.size - n⟩ :: rest) := by
  refine ⟨(a.removeGroup g).freeGroups, freeGroups_removeGroup (hi.mem_free hg), ?_⟩
  unfold carve
  split_ifs with he
  · exact List.Perm.refl _
  · exact freeGroups_addGroup (a := (a.removeGroup g).splitGroup g n)

/-- The invariant is kept when a group is cut. -/
theorem Inv.carve (hi : a.Inv) (hg : g ∈ a.freeGroups) (hn : 0 < n) (hng : n ≤ (cut g).size) :
    (a.carve g n).Inv := by
  unfold Pages.carve
  have hi' := hi.removeGroup hg
  split_ifs with he
  · exact hi'
  · have hle := cut_size_le g
    have hi'' := hi'.splitGroup mem_used_removeGroup hn (by omega)
    exact hi''.addGroup (by simp [Pages.splitGroup])

/-- The number of the pages is kept. -/
@[simp] theorem count_carve : (a.carve g n).count = a.count := by
  unfold carve
  split_ifs <;> rfl

/-- The outcomes of an allocation. -/
theorem allocate_cases (a : Pages) (n : ℕ) :
    a.allocate n = (none, a) ∨ ∃ g ∈ a.freeGroups, 0 < n ∧ n ≤ (cut g).size ∧
      a.search n = some g ∧ a.allocate n = (some (taken g n), a.carve g n) := by
  unfold allocate
  split_ifs with h0
  · exact Or.inl rfl
  · cases hs : a.search n with
    | none => exact Or.inl rfl
    | some g =>
      obtain ⟨hg, hng⟩ := search_eq_some hs
      exact Or.inr ⟨g, hg, by omega, hng, rfl, rfl⟩

/-- `allocate` keeps the invariant. -/
theorem Inv.allocate (hi : a.Inv) : (a.allocate n).2.Inv := by
  rcases allocate_cases a n with he | ⟨g, hg, hn, hng, -, he⟩
  · rw [he]
    exact hi
  · rw [he]
    exact hi.carve hg hn hng

/-- `allocate` keeps the number of the pages. -/
@[simp] theorem count_allocate : (a.allocate n).2.count = a.count := by
  rcases allocate_cases a n with he | ⟨g, -, -, -, -, he⟩ <;> simp [he]

end Pages

/-! ### Refinement -/

section Refinement

variable [Platform]

/-- The state `s` of an initialised page allocator represents the groups `a`. -/
structure PageRep (L : Layout) (a : Pages) (s : PageState) : Prop where
  table : TableRep L a s
  inv : a.Inv
  count : a.count = L.count
  config : s.self = { L.config with
    freeGroupLists := s.self.freeGroupLists, freePagesCount := s.self.freePagesCount }

variable {L : Layout} {a : Pages} {s s' : PageState} {g h : Group} {n : ℕ}

/-- Every group ends in the table. -/
theorem PageRep.stop_le (hr : PageRep L a s) (hg : g ∈ a.groups) : g.first + g.size ≤ L.count :=
  hr.count ▸ hr.inv.tiles.stop_le hg

/-- A step that keeps the fixed fields leads to a represented state. -/
theorem PageRep.step (hr : PageRep L a s) {a' : Pages} (ht : TableRep L a' s') (hi : a'.Inv)
    (hc : a'.count = a.count) (hk : Keeps L s s') : PageRep L a' s' := by
  refine ⟨ht, hi, hc.trans hr.count, ?_⟩
  rw [hk.self, hr.config]

/-- A represented state depends on the table only. -/
theorem PageRep.congr_mem (hr : PageRep L a s) {m : Mem} (hm : ∀ x ∈ L.table, m x = s.mem x) :
    PageRep L a { s with mem := m } := by
  have hfield : ∀ i < L.count, ∀ k < 4,
      m (L.pageAt i + k * wordBytes) = s.mem (L.pageAt i + k * wordBytes) :=
    fun i hi k hk => hm _ (Layout.field_mem_table hi hk)
  have hlink : ∀ i < L.count, m (L.pageAt i) = s.mem (L.pageAt i) ∧
      m (L.pageAt i + wordBytes) = s.mem (L.pageAt i + wordBytes) := by
    intro i hi
    have h₀ := hfield i hi 0 (by omega)
    have h₁ := hfield i hi 1 (by omega)
    simp only [Nat.zero_mul, Nat.add_zero, Nat.one_mul] at h₀ h₁
    exact ⟨h₀, h₁⟩
  have hlt : ∀ g ∈ a.groups, ∀ i, g.Covers i → i < L.count :=
    fun g hg i hcov => hr.count ▸ hr.inv.tiles.lt_of_covers hg hcov
  refine ⟨⟨hr.table.freeCount, fun i hi => ?_, fun i hi => ?_, fun i hi hf => ?_, fun g hg => ?_,
    fun g hg i hcov => ?_, fun g hg i hcov => ?_⟩, hr.inv, hr.count, hr.config⟩
  · exact (hfield i (hr.count ▸ hi) 2 (by omega)).trans (hr.table.addr i hi)
  · refine (hr.table.lists i hi).congr (fun x hx => ?_) fun x hx => ?_
    · obtain ⟨j, hj, rfl⟩ := hr.inv.nodes_subset hr.count.le hi hx
      exact (hlink j hj).1
    · obtain ⟨j, hj, rfl⟩ := hr.inv.nodes_subset hr.count.le hi hx
      exact (hlink j hj).2
  · have hl := hlink i (hr.count ▸ hi)
    have hu := hr.table.unlinked i hi hf
    exact ⟨hl.1.trans hu.1, hl.2.trans hu.2⟩
  · apply (hr.table.tags g hg).congr (hr.inv.tiles.size_pos hg)
    intro i hcov
    exact congrArg flagsGroupSize (hfield i (hlt g hg i hcov) 3 (by omega))
  · have hf := hfield i (hlt g (Pages.mem_groups.mpr (Or.inl hg)) i hcov) 3 (by omega)
    exact (congrArg flagsUsed hf).trans (hr.table.used g hg i hcov)
  · have hf := hfield i (hlt g (Pages.mem_groups.mpr (Or.inr hg)) i hcov) 3 (by omega)
    exact (congrArg flagsUsed hf).trans (hr.table.free g hg i hcov)

/-- The pointer that stands for an optional group. -/
def groupPtr (L : Layout) : Option Group → ℕ
  | none => 0
  | some g => L.pageAt g.first

omit [Platform] in
/-- There are at most as many free groups as pages. -/
theorem Pages.Inv.length_freeGroups_le (hi : a.Inv) : a.freeGroups.length ≤ a.count := by
  have hsum := hi.tiles.sum_size
  rw [Pages.groups, List.map_append, List.sum_append] at hsum
  refine le_trans ?_ (hsum ▸ Nat.le_add_left _ _)
  refine (List.length_le_sum_of_one_le _ fun n hn => ?_).trans_eq' ?_
  · obtain ⟨g, hg, rfl⟩ := List.mem_map.mp hn
    exact hi.tiles.size_pos (Pages.mem_groups.mpr (Or.inr hg))
  · rw [List.length_map]

/-- The lists are shorter than any loop may run. -/
theorem Pages.Inv.length_lt (hi : a.Inv) (hc : a.count ≤ L.count) {i : ℕ} (him : i < maxGroupIdx) :
    (a.free i).length < loopBound := by
  have h₁ : (a.free i).length ≤ a.freeGroups.length := by
    rw [(Pages.freeGroups_perm him).length_eq, List.length_append]
    exact Nat.le_add_right _ _
  have h₂ := hi.length_freeGroups_le
  have h₃ := Layout.count_lt_loopBound (L := L)
  omega

/-- The inner loop of `allocate` finds the first group of a list that is large enough. -/
theorem findGroup_spec {m : Mem} {l : List Group} {p x q : ℕ} {fuel : ℕ}
    (hl : Seg (links m) p x (nodes L l) q 0)
    (htag : ∀ g ∈ l, flagsGroupSize (m (L.pageAt g.first + 3 * wordBytes)) = (cut g).size)
    (hfuel : l.length < fuel) :
    wp (PageAllocator.findGroup n fuel x) (fun r m' =>
      r = groupPtr L (l.find? fun g => n ≤ (cut g).size) ∧ m' = m) m := by
  induction l generalizing p x fuel with
  | nil =>
    obtain ⟨fuel, rfl⟩ := Nat.exists_eq_add_of_lt hfuel
    rw [hl.2]
    simp [PageAllocator.findGroup, groupPtr]
  | cons g l ih =>
    obtain ⟨fuel, rfl⟩ := Nat.exists_eq_add_of_lt hfuel
    obtain ⟨rfl, hx0, -, hl⟩ := hl
    simp only [PageAllocator.findGroup, hx0, if_false, wp_bind, wp_pure, Page.wp_groupSize, wp_ite,
      ListNode.wp_next, htag g List.mem_cons_self, ne_eq, not_false_eq_true, true_and]
    constructor
    · intro hlt
      have hfind : ¬n ≤ (cut g).size := by omega
      rw [List.find?_cons_of_neg (by simpa using hfind)]
      exact ih hl (fun h hh => htag h (List.mem_cons_of_mem _ hh))
        (by simp only [List.length_cons]; omega)
    · intro hge
      have hfind : n ≤ (cut g).size := by omega
      rw [List.find?_cons_of_pos (by simpa using hfind)]
      exact ⟨rfl, trivial⟩

/-- Cutting pages off a free group, as the code does it once it has found the group. -/
private theorem carve_spec (hr : PageRep L a s) (hg : g ∈ a.freeGroups) (hn : 0 < n)
    (hng : n ≤ (cut g).size) :
    wp (do
      PageAllocator.removeGroup (L.pageAt g.first)
      let (allocatedGroup, remainingGroup) ← splitGroup (L.pageAt g.first) n
      if remainingGroup ≠ 0 then
        PageAllocator.addGroup remainingGroup
      return allocatedGroup : PageM ℕ)
      (fun r s' => r = L.pageAt g.first ∧ PageRep L (a.carve g n) s' ∧ Keeps L s s') s := by
  have hi' := hr.inv.removeGroup hg
  have hgg : g ∈ (a.removeGroup g).groups := Pages.mem_groups.mpr (Or.inl Pages.mem_used_removeGroup)
  rw [wp_bind]
  apply (removeGroup_spec hr.table hr.inv hr.count.le hg).mono
  rintro _ s₁ ⟨ht₁, hk₁⟩
  have hr₁ := hr.step ht₁ hi' rfl hk₁
  simp only [wp_bind, wp_liftMem]
  by_cases he : n = (cut g).size
  · subst he
    apply (splitGroup_exact (g := cut g) hn (ht₁.tags g hgg).first).mono
    rintro _ m ⟨rfl, rfl⟩
    simp only [ne_eq, not_true_eq_false, if_false, wp_pure, Pages.carve, if_true]
    exact ⟨rfl, hr₁, hk₁⟩
  · have hlt : n < (cut g).size := by omega
    have hle := cut_size_le g
    apply (splitGroup_rep ht₁ hi' hr.count.le Pages.mem_used_removeGroup hn hlt).mono
    rintro _ m ⟨rfl, ht₂, hk₂⟩
    have hi'' := hi'.splitGroup Pages.mem_used_removeGroup hn (hlt.trans_le hle)
    have hrest : (⟨g.first + n, g.size - n⟩ : Group) ∈ ((a.removeGroup g).splitGroup g n).used := by
      simp [Pages.splitGroup]
    simp only [Layout.pageAt_ne_zero, ne_eq, not_false_eq_true, if_true, wp_bind]
    apply (addGroup_spec ht₂ hi'' hr.count.le hrest).mono
    rintro _ s₃ ⟨ht₃, hk₃⟩
    have hk := (hk₁.trans hk₂).trans hk₃
    refine wp_pure.mpr ⟨rfl, hr.step ?_ ?_ Pages.count_carve hk, hk⟩
    · rw [Pages.carve, if_neg he]
      exact ht₃
    · exact hr.inv.carve hg hn hng

/-- The outer loop of `allocate`. -/
theorem allocateFrom_spec (hr : PageRep L a s) (hn : 0 < n) {k i : ℕ} (hki : i + k = maxGroupIdx) :
    wp (PageAllocator.allocateFrom n k i) (fun r s' =>
      (match ((List.range' i k).flatMap a.free).find? fun g => n ≤ (cut g).size with
        | none => r = 0 ∧ s' = s
        | some g => r = L.pageAt g.first ∧ PageRep L (a.carve g n) s' ∧ Keeps L s s')) s := by
  induction k generalizing i with
  | zero => simp [PageAllocator.allocateFrom]
  | succ k ih =>
    have him : i < maxGroupIdx := by omega
    have hmem : ∀ g ∈ a.free i, g ∈ a.freeGroups :=
      fun g hg => Pages.mem_freeGroups.mpr ⟨i, him, hg⟩
    simp only [PageAllocator.allocateFrom, wp_bind, PageAllocator.wp_freeGroupListAt, wp_liftMem]
    refine ⟨him, ?_⟩
    obtain ⟨q, hl⟩ := hr.table.lists i him
    refine (findGroup_spec hl (fun g hg => hr.table.flagsGroupSize
      (Pages.mem_groups.mpr (Or.inr (hmem g hg)))) (hr.inv.length_lt hr.count.le him)).mono ?_
    rintro _ m ⟨rfl, rfl⟩
    rw [List.range'_succ, List.flatMap_cons, List.find?_append]
    cases hf : (a.free i).find? fun g => n ≤ (cut g).size with
    | none =>
      simp only [groupPtr, if_true, Option.none_or]
      exact ih (by omega)
    | some g =>
      have hg := hmem g (List.mem_of_find?_eq_some hf)
      have hng : n ≤ (cut g).size := by simpa using List.find?_some hf
      simp only [groupPtr, Layout.pageAt_ne_zero, if_false, Option.some_or]
      exact carve_spec hr hg hn hng

/-- `allocate` of the code refines `Pages.allocate`. -/
theorem PageRep.allocate (hr : PageRep L a s) :
    wp (PageAllocator.allocate n) (fun r s' =>
      r = groupPtr L (a.allocate n).1 ∧ PageRep L (a.allocate n).2 s' ∧ Keeps L s s') s := by
  simp only [PageAllocator.allocate, wp_bind, wp_get, hr.table.freeCount]
  by_cases h0 : a.freeCount < n ∨ n = 0
  · simp only [h0, if_true, wp_pure, Pages.allocate]
    exact ⟨rfl, hr, Keeps.refl⟩
  · simp only [h0, if_false]
    by_cases hidx : groupIdx n ≤ maxGroupIdx
    · apply (allocateFrom_spec hr (by omega) (by omega)).mono
      intro r s' h
      simp only [Pages.allocate, h0, if_false, Pages.search]
      split at h
      · obtain ⟨rfl, rfl⟩ := h
        exact ⟨rfl, hr, Keeps.refl⟩
      · simpa only [groupPtr, Pages.taken_first] using h
    · -- there is no list for so many pages
      have hz : maxGroupIdx - groupIdx n = 0 := by omega
      simp only [Pages.allocate, h0, if_false, Pages.search, hz, PageAllocator.allocateFrom,
        List.range'_zero, List.flatMap_nil, List.find?_nil, wp_pure]
      exact ⟨rfl, hr, Keeps.refl⟩

end Refinement

end Liballocator
