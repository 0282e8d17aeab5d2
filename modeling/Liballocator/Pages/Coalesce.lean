import Liballocator.Pages.Release

/-!
# Complete coalescing

`Coalesced L a` says that every free group is a maximal run of free pages.  `allocate` and `release`
keep it, and it has two consequences: a release joins at most one group on each side, and the free
groups are determined by the groups in use.
-/

namespace Liballocator

open Program LinkedList Tiling

variable [Platform]

namespace Pages

variable {L : Layout} {a : Pages} {g h : Group} {n : ℕ}

/-! ### Properties of groups -/

/-- A property of groups that passes to the parts of a split group and to joined groups. -/
structure Closed (L : Layout) (P : Group → Prop) : Prop where
  split : ∀ (g : Group) (n : ℕ), P g → 0 < n → n < g.size →
    P ⟨g.first, n⟩ ∧ P ⟨g.first + n, g.size - n⟩
  join : ∀ g h : Group, P g → P h → g.first + g.size = h.first → L.Glued (h.first - 1) →
    P ⟨g.first, g.size + h.size⟩

/-- A closed property of the free groups holds of the allocated group and of the remaining free
groups. -/
theorem Inv.forall_allocate (hi : a.Inv) {P : Group → Prop} (hP : Closed L P)
    (hfree : ∀ h ∈ a.freeGroups, P h) :
    (∀ g, (a.allocate n).1 = some g → P g) ∧ ∀ h ∈ (a.allocate n).2.freeGroups, P h := by
  rcases allocate_cases a n with he | ⟨g, hg, hn, hng, -, he⟩
  · rw [he]
    exact ⟨fun _ h => absurd h (by simp), hfree⟩
  · rw [he]
    obtain ⟨rest, hold, hnew⟩ := freeGroups_carve (n := n) hi hg
    have hrest : ∀ h ∈ rest, P h := fun h hh =>
      hfree h (hold.mem_iff.mpr (List.mem_cons_of_mem _ hh))
    have hle := cut_size_le g
    by_cases hsize : n = (cut g).size
    · rw [if_pos hsize] at hnew
      refine ⟨?_, fun h hh => hrest h (hnew.mem_iff.mp hh)⟩
      rintro _ ⟨⟩
      rw [taken, if_pos hsize]
      exact hfree g hg
    · rw [if_neg hsize] at hnew
      obtain ⟨h₁, h₂⟩ := hP.split g n (hfree g hg) hn (by omega)
      refine ⟨?_, fun h hh => ?_⟩
      · rintro _ ⟨⟩
        rw [taken, if_neg hsize]
        exact h₁
      · rcases List.mem_cons.mp (hnew.mem_iff.mp hh) with rfl | hh
        · exact h₂
        · exact hrest h hh

/-- All neighbours inside of the group satisfy `J`. -/
def Uncut (J : ℕ → Prop) (g : Group) : Prop := ∀ i, g.Covers i → g.Covers (i + 1) → J i

/-- Runs of neighbours are closed when a join of adjacent pages is one of neighbours. -/
theorem closed_uncut {J R : ℕ → Prop} (hJ : ∀ i, L.Glued i → ¬R i → ¬R (i + 1) → J i) :
    Closed L fun g => (∀ i, g.Covers i → ¬R i) ∧ Uncut J g := by
  refine ⟨fun g n hg hn hng => ?_, fun g h hg hh hadj hglue => ?_⟩
  · refine ⟨⟨fun i hi => hg.1 i ?_, fun i hi hi' => hg.2 i ?_ ?_⟩,
      ⟨fun i hi => hg.1 i ?_, fun i hi hi' => hg.2 i ?_ ?_⟩⟩ <;>
    · simp only [Span.Covers] at *
      omega
  · refine ⟨fun i hi => ?_, fun i hi hi' => ?_⟩
    · by_cases hig : g.Covers i
      · exact hg.1 i hig
      · apply hh.1 i
        simp only [Span.Covers] at *
        omega
    · by_cases hig : g.Covers (i + 1)
      · refine hg.2 i ?_ hig
        simp only [Span.Covers] at *
        omega
      · by_cases hih : h.Covers i
        · apply hh.2 i hih
          simp only [Span.Covers] at *
          omega
        · -- the place where the two groups are joined
          simp only [Span.Covers] at *
          have hi₁ : i = h.first - 1 := by omega
          have hgi : g.Covers i := ⟨by omega, by omega⟩
          have hhi : h.Covers (i + 1) := ⟨by omega, by omega⟩
          exact hJ i (hi₁ ▸ hglue) (hg.1 i hgi) (hh.1 (i + 1) hhi)

/-! ### Free pages -/

/-- The page `i` is free. -/
def FreePage (a : Pages) (i : ℕ) : Prop := ∃ h ∈ a.freeGroups, h.Covers i

omit [Platform] in
/-- The free pages are those that no group in use covers. -/
theorem Inv.freePage_iff (hi : a.Inv) {i : ℕ} :
    a.FreePage i ↔ i < a.count ∧ ∀ g ∈ a.used, ¬g.Covers i := by
  constructor
  · rintro ⟨h, hh, hcov⟩
    have hhg := mem_groups.mpr (Or.inr hh)
    refine ⟨hi.tiles.lt_of_covers hhg hcov, fun g hg hgi => ?_⟩
    have := hi.tiles.eq_of_covers hhg (mem_groups.mpr (Or.inl hg)) hcov hgi
    subst this
    exact (List.nodup_append.mp hi.tiles.nodup).2.2 h hg h hh rfl
  · rintro ⟨hlt, hused⟩
    obtain ⟨g, hg, hcov⟩ := hi.tiles.exists_covers hlt
    rcases mem_groups.mp hg with hg | hg
    · exact absurd hcov (hused g hg)
    · exact ⟨g, hg, hcov⟩

/-! ### Coalesced groups -/

/-- Every free group is a maximal run of free pages. -/
def Coalesced (L : Layout) (a : Pages) : Prop :=
  ∀ h ∈ a.freeGroups, MaximalRun a.FreePage L.Glued h

/-- No two free groups could be joined. -/
def Separate (L : Layout) (l : List Group) : Prop :=
  ∀ g ∈ l, ∀ h ∈ l, g.first + g.size = h.first → ¬L.Glued (h.first - 1)

theorem Inv.coalesced_iff (hi : a.Inv) : a.Coalesced L ↔
    (∀ h ∈ a.freeGroups, Uncut L.Glued h) ∧ Separate L a.freeGroups := by
  constructor
  · intro hco
    refine ⟨fun h hh => (hco h hh).glued, fun g hg h hh hadj hglue => ?_⟩
    have hpos := hi.tiles.size_pos (mem_groups.mpr (Or.inr hg))
    refine (hco h hh).left (h.first - 1) (by omega) ⟨⟨g, hg, ?_⟩, hglue⟩
    exact ⟨by omega, by omega⟩
  · rintro ⟨huncut, hsep⟩ h hh
    have hhg := mem_groups.mpr (Or.inr hh)
    have hpos := hi.tiles.size_pos hhg
    refine ⟨hpos, fun i hcov => ⟨h, hh, hcov⟩, huncut h hh, ?_, ?_⟩
    · rintro i hfirst ⟨⟨g, hg, hcov⟩, hglue⟩
      have hadj := hi.tiles.adjacent (mem_groups.mpr (Or.inr hg)) hhg (by omega)
        (by rwa [← hfirst, Nat.add_sub_cancel])
      apply hsep g hg h hh hadj
      rwa [← hfirst, Nat.add_sub_cancel]
    · rintro i hstop ⟨⟨g, hg, hcov⟩, hglue⟩
      have hadj := hi.tiles.adjacent_right hhg (mem_groups.mpr (Or.inr hg)) (hstop ▸ hcov)
      apply hsep h hh g hg hadj
      rwa [← hadj, ← hstop, Nat.add_sub_cancel]

/-- Runs of one region are closed. -/
theorem closed_glued : Closed L (Uncut L.Glued) := by
  have h := closed_uncut (L := L) (J := L.Glued) (R := fun _ => False) fun i hi _ _ => hi
  refine ⟨fun g n hg hn hng => ?_, fun g h' hg hh hadj hglue => ?_⟩
  · obtain ⟨h₁, h₂⟩ := h.split g n ⟨fun _ _ => id, hg⟩ hn hng
    exact ⟨h₁.2, h₂.2⟩
  · exact (h.join g h' ⟨fun _ _ => id, hg⟩ ⟨fun _ _ => id, hh⟩ hadj hglue).2

/-- An allocation keeps the free groups coalesced: the pages come from the front of a group. -/
theorem Coalesced.allocate (hco : a.Coalesced L) (hi : a.Inv) :
    (a.allocate n).2.Coalesced L := by
  obtain ⟨huncut, hsep⟩ := hi.coalesced_iff.mp hco
  refine hi.allocate.coalesced_iff.mpr ⟨(hi.forall_allocate closed_glued huncut).2, ?_⟩
  rcases allocate_cases a n with he | ⟨g, hg, hn, hng, -, he⟩
  · rw [he]
    exact hsep
  · rw [he]
    obtain ⟨rest, hold, hnew⟩ := freeGroups_carve (n := n) hi hg
    have hgg := mem_groups.mpr (Or.inr hg)
    have hle := cut_size_le g
    have hmem : ∀ k ∈ rest, k ∈ a.freeGroups := fun k hk =>
      hold.mem_iff.mpr (List.mem_cons_of_mem _ hk)
    have hnot : g ∉ rest := by
      have hnd : a.freeGroups.Nodup := (List.nodup_append.mp hi.tiles.nodup).2.1
      exact (List.nodup_cons.mp (hold.nodup_iff.mp hnd)).1
    intro k hk l hl
    have hk := hnew.mem_iff.mp hk
    have hl := hnew.mem_iff.mp hl
    split_ifs at hk hl with hsize
    · exact hsep k (hmem k hk) l (hmem l hl)
    · intro hadj
      rcases List.mem_cons.mp hl with rfl | hl
      · -- what ends where the remaining group begins was a part of `g`
        exfalso
        simp only at hadj
        rcases List.mem_cons.mp hk with rfl | hk
        · simp only at hadj
          omega
        · have hkg := mem_groups.mpr (Or.inr (hmem k hk))
          have hpos := hi.tiles.size_pos hkg
          have := hi.tiles.eq_of_covers hkg hgg (i := g.first + n - 1) ⟨by omega, by omega⟩
            ⟨by omega, by omega⟩
          exact hnot (this ▸ hk)
      · rcases List.mem_cons.mp hk with rfl | hk
        · apply hsep g hg l (hmem l hl)
          simp only at hadj
          omega
        · exact hsep k (hmem k hk) l (hmem l hl) hadj

/-- A release keeps the free groups coalesced. -/
theorem Coalesced.release (hco : a.Coalesced L) (hi : a.Inv) (hc : a.count < 2 ^ 21)
    (hg : g ∈ a.used) (hgl : Uncut L.Glued g) : (a.release L g).Coalesced L := by
  obtain ⟨huncut, hsep⟩ := hi.coalesced_iff.mp hco
  have hi' := hi.release (L := L) hg
  have hc' : (a.release L g).count < 2 ^ 21 := (hi.count_release hg).trans_lt hc
  refine hi'.coalesced_iff.mpr
    ⟨hi.forall_release hg hgl huncut closed_glued.join, fun k hk l hl hadj => ?_⟩
  have hj := hi.joinAll (L := L) (n := a.freeGroups.length) hg
  have hset := hi.settled (L := L) hg le_rfl
  have hpos := hj.inv.tiles.size_pos (mem_groups.mpr (Or.inl hj.mem))
  have habove := above_joinBelow (n := a.freeGroups.length) (hi.joinAbove hg).inv
    (hi.joinAbove hg).mem hset.above
  have hksmall := hi'.size_lt hc' (mem_groups.mpr (Or.inr hk))
  have hlg := mem_groups.mpr (Or.inr hl)
  have hk := freeGroups_release.mem_iff.mp hk
  have hl := freeGroups_release.mem_iff.mp hl
  rcases List.mem_cons.mp hk with rfl | hk
  · rcases List.mem_cons.mp hl with rfl | hl
    · omega
    · intro hglue
      have hzero := below_eq_none.mp hset.below l hl hadj hglue hksmall
      rw [hi'.cut_eq hc' hlg] at hzero
      exact (hi'.tiles.size_pos hlg).ne' hzero
  · rcases List.mem_cons.mp hl with rfl | hl
    · exact fun hglue =>
        absurd hksmall (Nat.not_lt_of_le (above_eq_none.mp habove k hk hadj hglue))
    · exact hsep k (hj.free k hk) l (hj.free l hl) hadj

/-- Each of the loops of `release` joins at most once. -/
theorem Coalesced.settled_one (hco : a.Coalesced L) (hi : a.Inv) (hg : g ∈ a.used) :
    Settled L 1 a g := by
  have hsep := (hi.coalesced_iff.mp hco).2
  have hj := hi.joinAbove (L := L) (n := 1) hg
  constructor
  · simp only [joinAbove]
    cases ha : a.above L g with
    | none => exact ha
    | some h =>
      obtain ⟨hh, -, -⟩ := above_eq_some ha
      rw [above_eq_none]
      exact fun k hk hadj hglue => absurd hglue (hsep k (mem_of_mem_removeGroup hk) h hh hadj)
  · simp only [joinAll, joinBelow]
    cases hb : (joinAbove L 1 g a).2.below L (joinAbove L 1 g a).1 with
    | none => exact hb
    | some h =>
      obtain ⟨hh, hadj, -⟩ := below_eq_some hb
      rw [below_eq_none]
      intro k hk hadj' hglue
      refine absurd hglue (hsep h (hj.free h hh) k (hj.free k (mem_of_mem_removeGroup hk)) ?_)
      simp only at hadj'
      omega

omit [Platform] in
/-- Two lists of used groups with the same members leave the same pages free. -/
theorem freePage_congr {b : Pages} (hia : a.Inv) (hib : b.Inv) (hcount : a.count = b.count)
    (hused : ∀ g, g ∈ a.used ↔ g ∈ b.used) {i : ℕ} : a.FreePage i ↔ b.FreePage i := by
  rw [hia.freePage_iff, hib.freePage_iff, hcount]
  simp only [hused]

/-- The free groups are determined by the free pages. -/
theorem Coalesced.mem_freeGroups {b : Pages} (hca : a.Coalesced L) (hcb : b.Coalesced L)
    (hfree : ∀ i, a.FreePage i ↔ b.FreePage i) : g ∈ a.freeGroups ↔ g ∈ b.freeGroups := by
  have hpred : a.FreePage = b.FreePage := funext fun i => propext (hfree i)
  have hca' : ∀ h ∈ a.freeGroups, MaximalRun b.FreePage L.Glued h := hpred ▸ hca
  constructor
  · exact mem_of_maximalRun hca' hcb fun i hi => hi
  · exact mem_of_maximalRun hcb hca' fun i hi => (hfree i).mpr hi

end Pages

end Liballocator
