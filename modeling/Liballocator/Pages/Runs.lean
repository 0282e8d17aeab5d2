import Liballocator.Pages.Initial

/-!
# Runs of the page allocator

`PageRun` is a run of the code after `init`: allocations, releases of groups that are live, and
writes of the users to memory outside of the table.  `Pages.Reach` is a run on groups.  Every run of
the code is a run on groups (`PageRun.simulation`), and in every reachable state the next call
returns (`PageRun.allocate_returns`, `PageRun.release_returns`).
-/

namespace Liballocator

open Program LinkedList Tiling Families

variable [Platform]

/-! ### Runs on groups -/

namespace Pages

/-- The groups after some calls, together with the groups that are live. -/
inductive Reach (L : Layout) (a₀ : Pages) : Pages → List Group → Prop
  | start : Reach L a₀ a₀ []
  | allocate {a : Pages} {live : List Group} (n : ℕ) :
    Reach L a₀ a live → Reach L a₀ (a.allocate n).2 ((a.allocate n).1.toList ++ live)
  | release {a : Pages} {live : List Group} {g : Group} :
    Reach L a₀ a live → g ∈ live → Reach L a₀ (a.release L g) (live.erase g)

variable {L : Layout} {a₀ a : Pages} {live : List Group} {g : Group} {n : ℕ}

omit [Platform] in
/-- The used groups after an allocation. -/
theorem used_allocate (hi : a.Inv) : (a.allocate n).2.used = (a.allocate n).1.toList ++ a.used := by
  rcases allocate_cases a n with he | ⟨g, hg, hn, hng, -, he⟩
  · rw [he]
    rfl
  · rw [he]
    exact used_carve hi hg hng

/-- The invariant holds in every reachable state. -/
theorem Reach.inv (h : Reach L a₀ a live) (hi : a₀.Inv) :
    a.Inv ∧ a.count = a₀.count ∧ a.used.Perm (live ++ a₀.used) := by
  induction h with
  | start => exact ⟨hi, rfl, List.Perm.refl _⟩
  | @allocate a live n _ ih =>
    obtain ⟨hi, hcount, hused⟩ := ih
    refine ⟨hi.allocate, (count_allocate).trans hcount, ?_⟩
    rw [used_allocate hi, List.append_assoc]
    exact hused.append_left _
  | @release a live g _ hg ih =>
    obtain ⟨hi, hcount, hused⟩ := ih
    have hgu : g ∈ a.used := hused.mem_iff.mpr (List.mem_append_left _ hg)
    refine ⟨hi.release hgu, (hi.count_release hgu).trans hcount, ?_⟩
    apply (hi.used_release hgu).trans
    have := hused.erase g
    rwa [List.erase_append_left _ hg] at this

/-- Live groups are in use. -/
theorem Reach.mem_used (h : Reach L a₀ a live) (hi : a₀.Inv)
    (hg : g ∈ live) : g ∈ a.used :=
  (h.inv hi).2.2.mem_iff.mpr (List.mem_append_left _ hg)

/-- A closed property of the free groups at the start holds of all free and all live groups. -/
theorem Reach.forall_groups (h : Reach L a₀ a live) (hi : a₀.Inv)
    {P : Group → Prop} (hP : Closed L P) (h₀ : ∀ g ∈ a₀.freeGroups, P g) :
    (∀ g ∈ a.freeGroups, P g) ∧ ∀ g ∈ live, P g := by
  induction h with
  | start => exact ⟨h₀, fun g hg => absurd hg List.not_mem_nil⟩
  | @allocate a live n h ih =>
    obtain ⟨hi', hcount, -⟩ := h.inv hi
    obtain ⟨hnew, hfree⟩ := hi'.forall_allocate (n := n) hP ih.1
    refine ⟨hfree, fun g hg => ?_⟩
    rcases List.mem_append.mp hg with hg | hg
    · exact hnew g (Option.mem_toList.mp hg)
    · exact ih.2 g hg
  | @release a live g h hg ih =>
    obtain ⟨hi', hcount, -⟩ := h.inv hi
    exact ⟨hi'.forall_release (h.mem_used hi hg) (ih.2 g hg) ih.1 hP.join,
      fun k hk => ih.2 k (List.mem_of_mem_erase hk)⟩

/-- Coalesced groups stay coalesced. -/
theorem Reach.coalesced (h : Reach L a₀ a live) (hi : a₀.Inv) (hc : a₀.count < 2 ^ 21)
    (hco : a₀.Coalesced L) : a.Coalesced L := by
  induction h with
  | start => exact hco
  | @allocate a live n h ih =>
    obtain ⟨hi', hcount, -⟩ := h.inv hi
    exact ih.allocate hi'
  | @release a live g h hg ih =>
    obtain ⟨hi', hcount, -⟩ := h.inv hi
    have hglued := h.forall_groups hi closed_glued (hi.coalesced_iff.mp hco).1
    exact ih.release hi' (hcount ▸ hc) (h.mem_used hi hg) (hglued.2 g hg)

/-- The free groups depend on the live groups only, not on the order of the calls. -/
theorem Reach.mem_freeGroups {b : Pages} {live' : List Group} (h : Reach L a₀ a live)
    (h' : Reach L a₀ b live') (hi : a₀.Inv) (hc : a₀.count < 2 ^ 21) (hco : a₀.Coalesced L)
    (hlive : live.Perm live') : g ∈ a.freeGroups ↔ g ∈ b.freeGroups := by
  obtain ⟨hia, hca, hua⟩ := h.inv hi
  obtain ⟨hib, hcb, hub⟩ := h'.inv hi
  apply (h.coalesced hi hc hco).mem_freeGroups (h'.coalesced hi hc hco)
  intro i
  apply freePage_congr hia hib (hca.trans hcb.symm)
  intro g
  rw [hua.mem_iff, hub.mem_iff, List.mem_append, List.mem_append, hlive.mem_iff]

/-! ### Calls that keep one group -/

/-- The groups after some calls that do not release the group `r`. -/
inductive Steps (L : Layout) (r : Group) (a : Pages) : Pages → Prop
  | refl : Steps L r a a
  | allocate {b : Pages} (n : ℕ) : Steps L r a b → Steps L r a (b.allocate n).2
  | release {b : Pages} {g : Group} :
    Steps L r a b → g ∈ b.used → g ≠ r → Steps L r a (b.release L g)

section Steps

variable {r : Group} {b c : Pages}

/-- Some calls after others. -/
theorem Steps.trans (h₁ : Steps L r a b) (h₂ : Steps L r b c) : Steps L r a c := by
  induction h₂ with
  | refl => exact h₁
  | allocate n _ ih => exact ih.allocate n
  | release _ hg hne ih => exact ih.release hg hne

/-- The calls keep the invariant. -/
theorem Steps.inv (h : Steps L r a b) (hi : a.Inv) :
    b.Inv ∧ b.count = a.count := by
  induction h with
  | refl => exact ⟨hi, rfl⟩
  | @allocate b n _ ih =>
    obtain ⟨hib, hcount⟩ := ih
    exact ⟨hib.allocate, count_allocate.trans hcount⟩
  | @release b g _ hg _ ih =>
    obtain ⟨hib, hcount⟩ := ih
    exact ⟨hib.release hg, (hib.count_release hg).trans hcount⟩

/-- A closed property of all groups but `r` stays one. -/
theorem Steps.forall_groups (h : Steps L r a b) (hi : a.Inv)
    {P : Group → Prop} (hP : Closed L P) (hfree : ∀ g ∈ a.freeGroups, P g)
    (hused : ∀ g ∈ a.used, g ≠ r → P g) :
    (∀ g ∈ b.freeGroups, P g) ∧ ∀ g ∈ b.used, g ≠ r → P g := by
  induction h with
  | refl => exact ⟨hfree, hused⟩
  | @allocate b n h ih =>
    obtain ⟨hib, hcount⟩ := h.inv hi
    obtain ⟨hnew, hrest⟩ := hib.forall_allocate (n := n) hP ih.1
    refine ⟨hrest, fun g hg hne => ?_⟩
    rw [used_allocate hib] at hg
    rcases List.mem_append.mp hg with hg | hg
    · exact hnew g (Option.mem_toList.mp hg)
    · exact ih.2 g hg hne
  | @release b g h hg hne ih =>
    obtain ⟨hib, hcount⟩ := h.inv hi
    refine ⟨hib.forall_release hg (ih.2 g hg hne) ih.1 hP.join, fun k hk hkr => ?_⟩
    exact ih.2 k (List.mem_of_mem_erase ((hib.used_release hg).mem_iff.mp hk)) hkr

/-- Coalesced groups stay coalesced. -/
theorem Steps.coalesced (h : Steps L r a b) (hi : a.Inv) (hc : a.count < 2 ^ 21)
    (hused : ∀ g ∈ a.used, g ≠ r → Uncut L.Glued g) (hco : a.Coalesced L) : b.Coalesced L := by
  induction h with
  | refl => exact hco
  | @allocate b n h ih =>
    obtain ⟨hib, hcount⟩ := h.inv hi
    exact ih.allocate hib
  | @release b g h hg hne ih =>
    obtain ⟨hib, hcount⟩ := h.inv hi
    have hall := h.forall_groups hi closed_glued (hi.coalesced_iff.mp hco).1 hused
    exact ih.release hib (hcount ▸ hc) hg (hall.2 g hg hne)

end Steps

end Pages

/-! ### Runs of the code -/

/-- A group as the users of the page allocator know it: its descriptor and the number of pages. -/
structure PageBlock where
  /-- The pointer that `allocate` has returned. -/
  page : ℕ
  /-- The number of pages that were demanded. -/
  count : ℕ
  deriving DecidableEq, Repr

/-- The memory of the table of an object. -/
def PageAllocator.tableWords (object : PageAllocator) : Set ℕ :=
  {x | object.pagesHead ≤ x ∧ x < object.pagesHead + object.pagesCount * sizeofPage}

/-- The states that calls on the object lead to from the state `s₀`, with the groups that are live;
between the calls the users write to memory outside of the table. -/
inductive PageRun (s₀ : PageState) : PageState → List PageBlock → Prop
  | start : PageRun s₀ s₀ []
  | allocate {s s' : PageState} {live : List PageBlock} {count page : ℕ} :
    PageRun s₀ s live → PageAllocator.allocate count s = .ok (page, s') →
    PageRun s₀ s' (if page = 0 then live else ⟨page, count⟩ :: live)
  | release {s s' : PageState} {live : List PageBlock} {b : PageBlock} :
    PageRun s₀ s live → b ∈ live → PageAllocator.release b.page s = .ok (⟨⟩, s') →
    PageRun s₀ s' (live.erase b)
  | write {s : PageState} {live : List PageBlock} {m : Mem} :
    PageRun s₀ s live → (∀ x ∈ s.self.tableWords, m x = s.mem x) →
    PageRun s₀ { s with mem := m } live

variable {L : Layout} {a₀ a : Pages} {s₀ s s' : PageState} {live : List PageBlock} {n : ℕ}

/-- The block of a group. -/
def blockOf (L : Layout) (g : Group) : PageBlock := ⟨L.pageAt g.first, g.size⟩

/-- Different groups are different blocks. -/
theorem blockOf_injective : Function.Injective (blockOf L) := by
  rintro ⟨i, n⟩ ⟨j, k⟩ h
  injection h with h₁ h₂
  rw [Layout.pageAt_inj] at h₁
  simp only at h₁ h₂
  rw [h₁, h₂]

/-- The words of the table are those of the layout. -/
theorem PageRep.tableWords (hr : PageRep L a s) : s.self.tableWords = L.table := by
  rw [hr.config]
  simp only [PageAllocator.tableWords, Layout.table, Layout.pageAt, Nat.zero_mul, Nat.add_zero]

omit [Platform] in
/-- The tags of an allocated group show the demanded size. -/
theorem cut_of_allocate {g : Group} (h : (a.allocate n).1 = some g) : (cut g).size = n := by
  rcases Pages.allocate_cases a n with he | ⟨k, -, -, hnk, -, he⟩ <;> rw [he] at h
  · exact absurd h (by simp)
  · cases h
    rw [Pages.cut_taken hnk]

omit [Platform] in
/-- In a small table an allocated group has the demanded size. -/
theorem size_of_allocate (hi : a.Inv) (hc : a.count < 2 ^ 21) {g : Group}
    (h : (a.allocate n).1 = some g) : g.size = n := by
  have hgu : g ∈ (a.allocate n).2.used := by
    rw [Pages.used_allocate hi, h]
    exact List.mem_cons_self
  rw [← cut_of_allocate h,
    hi.allocate.cut_eq (Pages.count_allocate.trans_lt hc) (Pages.mem_groups.mpr (Or.inl hgu))]

/-- Every run of the code is a run on groups. -/
theorem PageRun.simulation (h : PageRun s₀ s live) (hr : PageRep L a₀ s₀) :
    ∃ a gs, Pages.Reach L a₀ a gs ∧ PageRep L a s ∧
      live = gs.map fun g => blockOf L (cut g) := by
  induction h with
  | start => exact ⟨a₀, [], .start, hr, rfl⟩
  | @allocate s s' live count page _ hcall ih =>
    obtain ⟨a, gs, hreach, hra, rfl⟩ := ih
    obtain ⟨rfl, hra', -⟩ := (hra.allocate (n := count)).of_run_eq hcall
    refine ⟨_, _, hreach.allocate count, hra', ?_⟩
    cases hal : (a.allocate count).1 with
    | none => rfl
    | some g =>
      have hsize := cut_of_allocate hal
      simp only [groupPtr, Layout.pageAt_ne_zero, if_false, Option.toList_some, List.map_cons,
        List.singleton_append, blockOf, hsize, cut_first]
  | @release s s' live b _ hb hcall ih =>
    obtain ⟨a, gs, hreach, hra, rfl⟩ := ih
    obtain ⟨g, hg, rfl⟩ := List.mem_map.mp hb
    have hgu := hreach.mem_used hr.inv hg
    obtain ⟨hra', -⟩ := (hra.release hgu).of_run_eq hcall
    refine ⟨_, _, hreach.release hg, hra', (map_erase_of_injOn fun k hk he => ?_).symm⟩
    -- a live group is known by its first page
    have hku := hreach.mem_used hr.inv hk
    exact hra.inv.tiles.eq_of_first (Pages.mem_groups.mpr (Or.inl hku))
      (Pages.mem_groups.mpr (Or.inl hgu)) (Layout.pageAt_inj.mp (congrArg PageBlock.page he))
  | @write s live m _ hm ih =>
    obtain ⟨a, gs, hreach, hra, rfl⟩ := ih
    rw [hra.tableWords] at hm
    exact ⟨a, gs, hreach, hra.congr_mem hm, rfl⟩

/-- A run goes on with an allocation. -/
theorem PageRun.exists_allocate (h : PageRun s₀ s live) (hr : PageRep L a s) {g : Group}
    (hal : (a.allocate n).1 = some g) :
    ∃ s', PageRun s₀ s' (blockOf L (cut g) :: live) ∧ PageRep L (a.allocate n).2 s' := by
  obtain ⟨page, s', hcall, rfl, hr', -⟩ := hr.allocate (n := n)
  have h' := h.allocate hcall
  rw [hal, groupPtr, if_neg (Layout.pageAt_ne_zero _)] at h'
  rw [blockOf, cut_of_allocate hal]
  exact ⟨s', h', hr'⟩

/-- A run goes on with the release of a live group. -/
theorem PageRun.exists_release (h : PageRun s₀ s live) (hr : PageRep L a s) {g : Group}
    (hg : g ∈ a.used) (hb : blockOf L (cut g) ∈ live) :
    ∃ s', PageRun s₀ s' (live.erase (blockOf L (cut g))) ∧ PageRep L (a.release L g) s' := by
  obtain ⟨⟨⟩, s', hcall, hr', -⟩ := hr.release hg
  exact ⟨s', h.release hb hcall, hr'⟩

/-- In every reachable state `allocate` returns. -/
theorem PageRun.allocate_returns (h : PageRun s₀ s live) (hr : PageRep L a₀ s₀) (count : ℕ) :
    ∃ page s', PageAllocator.allocate count s = .ok (page, s') := by
  obtain ⟨a, gs, -, hra, -⟩ := h.simulation hr
  obtain ⟨page, s', hcall, -⟩ := hra.allocate (n := count)
  exact ⟨page, s', hcall⟩

/-- In every reachable state the release of a live group returns. -/
theorem PageRun.release_returns (h : PageRun s₀ s live) (hr : PageRep L a₀ s₀) {b : PageBlock}
    (hb : b ∈ live) : ∃ s', PageAllocator.release b.page s = .ok (⟨⟩, s') := by
  obtain ⟨a, gs, hreach, hra, rfl⟩ := h.simulation hr
  obtain ⟨g, hg, rfl⟩ := List.mem_map.mp hb
  obtain ⟨_, s', hcall, -⟩ := hra.release (hreach.mem_used hr.inv hg)
  exact ⟨s', hcall⟩

end Liballocator
