import Liballocator.Pages.Release

/-!
# Releasing a page that is in use

`PageAllocator::release` does not ask whether its argument is the first page of a group that was
allocated.  Whatever page of a used group it gets, if it returns then that page heads a list of free
groups or more pages are free than before (`PageRep.release_covered`).
-/

namespace Liballocator

open Program LinkedList Tiling

variable [Platform]

variable {L : Layout} {a : Pages} {s : PageState} {g : Group} {i fuel group : ℕ}

/-! ### Partial correctness of the parts of `release` -/

theorem wlp_joinGroup {firstGroup secondGroup : ℕ} {m : Mem} :
    wlp (joinGroup firstGroup secondGroup) (fun r _ => r = firstGroup) m := by
  simp only [joinGroup, wlp_bind, wlp_assert]
  refine fun _ _ => wlp_of_forall fun _ _ => wlp_of_forall fun _ _ => wlp_of_forall fun _ _ => ?_
  exact wlp_of_forall fun _ _ => wlp_of_forall fun _ _ => wlp_pure.mpr rfl

namespace PageAllocator

/-- The second loop of `release` joins other groups to the one it gets. -/
theorem wlp_joinBelow : wlp (joinBelow fuel group) (fun r _ => r = group) s := by
  induction fuel generalizing s with
  | zero => exact wlp_throw.mpr trivial
  | succ fuel ih =>
    simp only [joinBelow, wlp_bind, wlp_ite, wlp_get, wlp_pure, wlp_liftMem]
    refine wlp_of_forall fun _ _ => wlp_of_forall fun _ _ => ⟨fun _ => trivial, fun _ => ?_⟩
    refine wlp_of_forall fun _ _ => wlp_of_forall fun _ _ => ⟨fun _ => trivial, fun _ => ?_⟩
    refine wlp_of_forall fun _ _ => ⟨fun _ => trivial, fun _ => wlp_of_forall fun _ _ => ?_⟩
    exact wlp_joinGroup.mono fun r _ hr => hr ▸ ih

/-- `addGroup` puts its argument at the head of a list. -/
theorem wlp_addGroup : wlp (addGroup group)
    (fun _ s' => ∃ k < maxGroupIdx, s'.self.freeGroupLists k = group) s := by
  have hadd : ∀ {head : ℕ} {m : Mem},
      wlp (ListNode.addToList group head) (fun r _ => r = group) m := by
    intro head m
    simp only [ListNode.addToList, wlp_bind, wlp_assert, wlp_ite, wlp_pure]
    refine wlp_of_forall fun _ _ _ => wlp_of_forall fun _ _ _ => ⟨fun _ => ?_, fun _ => trivial⟩
    exact wlp_of_forall fun _ _ => wlp_of_forall fun _ _ => wlp_of_forall fun _ _ => trivial
  simp only [addGroup, setFreeGroupListAt, wlp_bind, wlp_assert, wlp_ite, wlp_throw, wlp_modify,
    wlp_liftMem]
  refine fun _ => wlp_of_forall fun size _ => wlp_of_forall fun _ _ => hadd.mono ?_
  rintro _ _ rfl
  refine ⟨fun _ => trivial, fun hk => wlp_of_forall fun _ _ => wlp_of_forall fun _ _ => ?_⟩
  exact ⟨groupIdx size, Nat.lt_of_not_le hk, Function.update_self _ _ _⟩

end PageAllocator

/-! ### Pages of a used group -/

/-- No list is headed by a page of a used group. -/
theorem PageRep.freeGroupLists_ne (hr : PageRep L a s) (hg : g ∈ a.used) (hi : g.Covers i) {k : ℕ}
    (hk : k < maxGroupIdx) : s.self.freeGroupLists k ≠ L.pageAt i := by
  intro he
  have hl := hr.table.lists k hk
  cases hfree : a.free k with
  | nil =>
    rw [hfree, List.map_nil, isList_nil_iff, he] at hl
    exact Layout.pageAt_ne_zero i hl
  | cons h hs =>
    rw [hfree, List.map_cons] at hl
    have hfirst : L.pageAt i = L.pageAt h.first := he.symm.trans hl.head_eq
    have hh : h ∈ a.freeGroups := Pages.mem_freeGroups.mpr ⟨k, hk, hfree ▸ List.mem_cons_self⟩
    have hhg := Pages.mem_groups.mpr (Or.inr hh)
    have hcov : h.Covers i := by
      rw [Layout.pageAt_inj.mp hfirst]
      exact ⟨le_rfl, Nat.lt_add_of_pos_right (hr.inv.tiles.size_pos hhg)⟩
    have heq := hr.inv.tiles.eq_of_covers (Pages.mem_groups.mpr (Or.inl hg)) hhg hi hcov
    exact (List.nodup_append.mp hr.inv.tiles.nodup).2.2 g hg h hh heq

/-- The first loop of `release` does nothing for a page that does not begin its group. -/
private theorem PageRep.joinAbove_inner (hr : PageRep L a s) (hg : g ∈ a.used) (hi : g.Covers i)
    (hne : g.first ≠ i) :
    wp (PageAllocator.joinAbove (fuel + 1) (L.pageAt i)) (fun r s' => r = L.pageAt i ∧ s' = s) s := by
  have hlt : i < L.count :=
    hr.count ▸ hr.inv.tiles.lt_of_covers (Pages.mem_groups.mpr (Or.inl hg)) hi
  obtain ⟨h₁, h₂⟩ := hi
  have hprev : Page.prevSibling (L.pageAt i) = L.pageAt (i - 1) :=
    Layout.minus_pageAt (by omega) hlt.le
  have hlt' : i - 1 < L.count := by omega
  have hused := hr.table.used g hg (i - 1) ⟨by omega, by omega⟩
  rw [usedAt] at hused
  simp only [PageAllocator.joinAbove, wp_bind, PageAllocator.wp_isValidPage, wp_ite, wp_pure,
    wp_get, wp_liftMem, Page.wp_address, Page.wp_isUsed, hprev, hr.isValid_iff,
    decide_eq_true hlt', Bool.not_true, Bool.false_eq_true, false_implies, not_false_eq_true,
    true_and, Layout.pageAt_ne_zero, ne_eq, hused, not_true_eq_false, implies_true]

/-- When a page of a used group is released, the free groups change. -/
theorem PageRep.release_covered (hr : PageRep L a s) (hc : a.count < 2 ^ 21) (hg : g ∈ a.used)
    (hi : g.Covers i) :
    wlp (PageAllocator.release (L.pageAt i)) (fun _ s' =>
      s'.self.freeGroupLists ≠ s.self.freeGroupLists ∨
      s'.self.freePagesCount ≠ s.self.freePagesCount) s := by
  by_cases hfirst : g.first = i
  · subst hfirst
    refine (hr.release hg).wlp.mono ?_
    rintro _ s' ⟨hr', -⟩
    apply Or.inr
    -- the pages of the group are free now
    have hpos := hr.inv.tiles.size_pos (Pages.mem_groups.mpr (Or.inl hg))
    rw [hr'.table.freeCount, hr.table.freeCount, hr.inv.freeCount_release hc hg]
    omega
  · obtain ⟨n, hn⟩ := Nat.exists_eq_add_of_le' (Nat.one_le_two_pow (n := width))
    simp only [PageAllocator.release, PageAllocator.releaseWithin, Layout.pageAt_ne_zero, if_false,
      wlp_bind]
    rw [loopBound, hn]
    refine (hr.joinAbove_inner hg hi hfirst).wlp.mono ?_
    rintro _ _ ⟨rfl, rfl⟩
    refine PageAllocator.wlp_joinBelow.mono ?_
    rintro _ _ rfl
    refine PageAllocator.wlp_addGroup.mono ?_
    rintro _ s' ⟨k, hk, hhead⟩
    exact Or.inl fun he => hr.freeGroupLists_ne hg hi hk (by rw [← he, hhead])

end Liballocator
