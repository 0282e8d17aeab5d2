import Liballocator.Pages.Allocate

/-!
# `release` on groups

`Pages.release` joins the released group with the free groups in front of it, then with those behind
it, and makes the result a free group.  The loops of the code run until there is no further group to
join with; `releaseWithin n` stops after `n` rounds, and the two agree as soon as `n` rounds leave
nothing to join (`Settled`).
-/

namespace Liballocator

open Program LinkedList Tiling

variable [Platform]

namespace Pages

section Definitions

variable (L : Layout)

/-- The free group that `release` joins with the group `g` behind it.  It is not found when its last
page is lost. -/
def above (a : Pages) (g : Group) : Option Group :=
  a.freeGroups.find? fun h =>
    h.first + h.size = g.first ∧ L.Glued (g.first - 1) ∧ h.size < 2 ^ 21

/-- The free group that `release` joins with the group `g` in front of it.  It is not found when
the last page of `g` or its own first page is lost. -/
def below (a : Pages) (g : Group) : Option Group :=
  a.freeGroups.find? fun h =>
    g.first + g.size = h.first ∧ L.Glued (h.first - 1) ∧ g.size < 2 ^ 21 ∧ 0 < (cut h).size

/-- At most `n` rounds of the first loop of `release`. -/
def joinAbove : (n : ℕ) → Group → Pages → Group × Pages
  | 0, g, a => (g, a)
  | n + 1, g, a =>
    match a.above L g with
    | none => (g, a)
    | some h => joinAbove n ⟨h.first, h.size + g.size⟩ ((a.removeGroup h).joinGroup h g)

/-- At most `n` rounds of the second loop of `release`. -/
def joinBelow : (n : ℕ) → Group → Pages → Group × Pages
  | 0, g, a => (g, a)
  | n + 1, g, a =>
    match a.below L g with
    | none => (g, a)
    | some h => joinBelow n ⟨g.first, g.size + h.size⟩ ((a.removeGroup h).joinGroup g h)

/-- The two loops of `release`, `n` rounds each. -/
def joinAll (n : ℕ) (a : Pages) (g : Group) : Group × Pages :=
  joinBelow L n (joinAbove L n g a).1 (joinAbove L n g a).2

/-- The groups after the release of `g` with `n` rounds for each loop. -/
def releaseWithin (n : ℕ) (a : Pages) (g : Group) : Pages :=
  (joinAll L n a g).2.addGroup (joinAll L n a g).1

/-- The groups after the release of `g`. -/
def release (a : Pages) (g : Group) : Pages := releaseWithin L a.freeGroups.length a g

/-- After `n` rounds neither of the loops finds a further group. -/
structure Settled (n : ℕ) (a : Pages) (g : Group) : Prop where
  above : (joinAbove L n g a).2.above L (joinAbove L n g a).1 = none
  below : (joinAll L n a g).2.below L (joinAll L n a g).1 = none

end Definitions

variable {L : Layout} {a : Pages} {g h : Group} {n : ℕ}

/-- The free group that ends where `g` begins, when the two are joined. -/
theorem above_eq_some (ha : a.above L g = some h) :
    h ∈ a.freeGroups ∧ h.first + h.size = g.first ∧ L.Glued (g.first - 1) ∧ h.size < 2 ^ 21 :=
  ⟨List.mem_of_find?_eq_some ha, by simpa using List.find?_some ha⟩

/-- The free group that begins where `g` ends, when the two are joined. -/
theorem below_eq_some (hb : a.below L g = some h) :
    h ∈ a.freeGroups ∧ g.first + g.size = h.first ∧ L.Glued (h.first - 1) ∧ g.size < 2 ^ 21 ∧
      0 < (cut h).size :=
  ⟨List.mem_of_find?_eq_some hb, by simpa using List.find?_some hb⟩

/-- Nothing is joined at the beginning of `g` when every free group there has a size that is not
stored whole. -/
theorem above_eq_none : a.above L g = none ↔
    ∀ h ∈ a.freeGroups, h.first + h.size = g.first → L.Glued (g.first - 1) → 2 ^ 21 ≤ h.size := by
  simp [above, List.find?_eq_none]

/-- Nothing is joined at the end of `g` when its own size or that of the group there is not stored
whole. -/
theorem below_eq_none : a.below L g = none ↔
    ∀ h ∈ a.freeGroups, g.first + g.size = h.first → L.Glued (h.first - 1) → g.size < 2 ^ 21 →
      (cut h).size = 0 := by
  simp [below, List.find?_eq_none]

omit [Platform] in
/-- Removing a group does not make others free. -/
theorem mem_of_mem_removeGroup {k : Group} (hk : k ∈ (a.removeGroup h).freeGroups) :
    k ∈ a.freeGroups := by
  obtain ⟨i, him, hk⟩ := mem_freeGroups.mp hk
  by_cases hii : i = groupIdx (cut h).size
  · subst hii
    simp only [removeGroup, Function.update_self] at hk
    exact mem_freeGroups.mpr ⟨_, him, List.mem_of_mem_erase hk⟩
  · simp only [removeGroup, Function.update_of_ne hii] at hk
    exact mem_freeGroups.mpr ⟨_, him, hk⟩

/-! ### One round -/

/-- What a round of one of the loops leads to: the used group `g` has taken over the free group
`h` and is now `g'`. -/
structure Joins (a a' : Pages) (g h g' : Group) : Prop where
  inv : a'.Inv
  count : a'.count = a.count
  used : a'.used.Perm (g' :: a.used.erase g)
  free : a.freeGroups.Perm (h :: a'.freeGroups)
  size : g'.size = g.size + h.size

omit [Platform] in
/-- A used group is joined with a free group, whichever of them comes first. -/
private theorem joins_erase (hi : a.Inv) (hg : g ∈ a.used)
    (hh : h ∈ a.freeGroups) {k : Group} :
    (k :: ((a.removeGroup h).used.erase h).erase g).Perm (k :: a.used.erase g) ∧
      (k :: ((a.removeGroup h).used.erase g).erase h).Perm (k :: a.used.erase g) ∧
      a.freeGroups.Perm (h :: (a.removeGroup h).freeGroups) := by
  have hne : h ≠ g := by
    rintro rfl
    exact (List.nodup_append.mp hi.tiles.nodup).2.2 h hg h hh rfl
  refine ⟨?_, ?_, freeGroups_removeGroup (hi.mem_free hh)⟩
  · rw [removeGroup, List.erase_cons_head]
  · rw [removeGroup, List.erase_cons_tail (by simpa using hne), List.erase_cons_head]

omit [Platform] in
/-- A free group in front of a used one is joined with it. -/
theorem Inv.joinsAbove (hi : a.Inv) (hg : g ∈ a.used)
    (hh : h ∈ a.freeGroups) (hadj : h.first + h.size = g.first) :
    Joins a ((a.removeGroup h).joinGroup h g) g h ⟨h.first, h.size + g.size⟩ := by
  obtain ⟨hp, -, hf⟩ := joins_erase hi hg hh (k := ⟨h.first, h.size + g.size⟩)
  exact ⟨(hi.removeGroup hh).joinGroup mem_used_removeGroup (List.mem_cons_of_mem _ hg) hadj,
    rfl, hp, hf, Nat.add_comm _ _⟩

omit [Platform] in
/-- A free group behind a used one is joined with it. -/
theorem Inv.joinsBelow (hi : a.Inv) (hg : g ∈ a.used)
    (hh : h ∈ a.freeGroups) (hadj : g.first + g.size = h.first) :
    Joins a ((a.removeGroup h).joinGroup g h) g h ⟨g.first, g.size + h.size⟩ := by
  obtain ⟨-, hp, hf⟩ := joins_erase hi hg hh (k := ⟨g.first, g.size + h.size⟩)
  exact ⟨(hi.removeGroup hh).joinGroup (List.mem_cons_of_mem _ hg) mem_used_removeGroup hadj,
    rfl, hp, hf, rfl⟩

variable {a' : Pages} {g' : Group}

omit [Platform] in
/-- The joined group is in use. -/
theorem Joins.mem_used (hj : Joins a a' g h g') : g' ∈ a'.used :=
  hj.used.mem_iff.mpr List.mem_cons_self

omit [Platform] in
/-- The other groups in use are those from before. -/
theorem Joins.erase (hj : Joins a a' g h g') : (a'.used.erase g').Perm (a.used.erase g) := by
  have := hj.used.erase g'
  rwa [List.erase_cons_head] at this

omit [Platform] in
/-- One free group less is left. -/
theorem Joins.length (hj : Joins a a' g h g') :
    a.freeGroups.length = a'.freeGroups.length + 1 := by
  simpa using hj.free.length_eq

/-! ### All rounds -/

/-- What the loops of `release` lead to: the used group `g` has taken over some free groups and is
now `g'`. -/
structure JoinedTo (a a' : Pages) (g g' : Group) : Prop where
  inv : a'.Inv
  count : a'.count = a.count
  mem : g' ∈ a'.used
  used : (a'.used.erase g').Perm (a.used.erase g)
  free : ∀ h ∈ a'.freeGroups, h ∈ a.freeGroups
  length : a'.freeGroups.length ≤ a.freeGroups.length
  size : g.size ≤ g'.size
  kept : ∀ h ∈ a.freeGroups, h ∈ a'.freeGroups ∨ h.size ≤ g'.size

omit [Platform] in
/-- Nothing has been joined yet. -/
theorem JoinedTo.refl (hi : a.Inv) (hg : g ∈ a.used) : JoinedTo a a g g :=
  ⟨hi, rfl, hg, List.Perm.refl _, fun _ h => h, le_rfl, le_rfl, fun _ h => Or.inl h⟩

omit [Platform] in
/-- One join, and then the others. -/
theorem Joins.joinedTo (hj : Joins a a' g h g') {a'' : Pages} {g'' : Group}
    (hto : JoinedTo a' a'' g' g'') : JoinedTo a a'' g g'' := by
  have hsize := hj.size
  have hle := hto.size
  refine ⟨hto.inv, hto.count.trans hj.count, hto.mem, hto.used.trans hj.erase,
    fun k hk => hj.free.mem_iff.mpr (List.mem_cons_of_mem _ (hto.free k hk)),
    hto.length.trans (by rw [hj.length]; exact Nat.le_succ _), by omega, fun k hk => ?_⟩
  rcases List.mem_cons.mp (hj.free.mem_iff.mp hk) with rfl | hk
  · exact Or.inr (by omega)
  · exact hto.kept k hk

omit [Platform] in
/-- Some joins after others. -/
theorem JoinedTo.trans {a'' : Pages} {g'' : Group} (h₁ : JoinedTo a a' g g')
    (h₂ : JoinedTo a' a'' g' g'') : JoinedTo a a'' g g'' := by
  refine ⟨h₂.inv, h₂.count.trans h₁.count, h₂.mem, h₂.used.trans h₁.used,
    fun k hk => h₁.free k (h₂.free k hk), h₂.length.trans h₁.length, h₁.size.trans h₂.size,
    fun k hk => ?_⟩
  rcases h₁.kept k hk with hk | hle
  · exact h₂.kept k hk
  · exact Or.inr (hle.trans h₂.size)

/-- The first loop of `release` joins groups. -/
theorem Inv.joinAbove (hi : a.Inv) (hg : g ∈ a.used) :
    JoinedTo a (Pages.joinAbove L n g a).2 g (Pages.joinAbove L n g a).1 := by
  induction n generalizing a g with
  | zero => exact JoinedTo.refl hi hg
  | succ n ih =>
    unfold Pages.joinAbove
    cases ha : a.above L g with
    | none => exact JoinedTo.refl hi hg
    | some h =>
      obtain ⟨hh, hadj, -⟩ := above_eq_some ha
      have hj := hi.joinsAbove hg hh hadj
      exact hj.joinedTo (ih hj.inv hj.mem_used)

/-- The second loop of `release` joins groups. -/
theorem Inv.joinBelow (hi : a.Inv) (hg : g ∈ a.used) :
    JoinedTo a (Pages.joinBelow L n g a).2 g (Pages.joinBelow L n g a).1 := by
  induction n generalizing a g with
  | zero => exact JoinedTo.refl hi hg
  | succ n ih =>
    unfold Pages.joinBelow
    cases hb : a.below L g with
    | none => exact JoinedTo.refl hi hg
    | some h =>
      obtain ⟨hh, hadj, -⟩ := below_eq_some hb
      have hj := hi.joinsBelow hg hh hadj
      exact hj.joinedTo (ih hj.inv hj.mem_used)

/-- Both loops join groups. -/
theorem Inv.joinAll (hi : a.Inv) (hg : g ∈ a.used) :
    JoinedTo a (Pages.joinAll L n a g).2 g (Pages.joinAll L n a g).1 := by
  have h₁ := hi.joinAbove (L := L) (n := n) hg
  exact h₁.trans (h₁.inv.joinBelow h₁.mem)

/-- After as many rounds as there are free groups the first loop is done. -/
theorem above_joinAbove (hi : a.Inv) (hg : g ∈ a.used)
    (hn : a.freeGroups.length ≤ n) :
    (joinAbove L n g a).2.above L (joinAbove L n g a).1 = none := by
  induction n generalizing a g with
  | zero =>
    have hnil : a.freeGroups = [] := List.length_eq_zero_iff.mp (Nat.le_zero.mp hn)
    simp [joinAbove, above, hnil]
  | succ n ih =>
    unfold joinAbove
    cases ha : a.above L g with
    | none => exact ha
    | some h =>
      obtain ⟨hh, hadj, -⟩ := above_eq_some ha
      have hj := hi.joinsAbove hg hh hadj
      have := hj.length
      exact ih hj.inv hj.mem_used (by omega)

/-- After as many rounds as there are free groups the second loop is done. -/
theorem below_joinBelow (hi : a.Inv) (hg : g ∈ a.used)
    (hn : a.freeGroups.length ≤ n) :
    (joinBelow L n g a).2.below L (joinBelow L n g a).1 = none := by
  induction n generalizing a g with
  | zero =>
    have hnil : a.freeGroups = [] := List.length_eq_zero_iff.mp (Nat.le_zero.mp hn)
    simp [joinBelow, below, hnil]
  | succ n ih =>
    unfold joinBelow
    cases hb : a.below L g with
    | none => exact hb
    | some h =>
      obtain ⟨hh, hadj, -⟩ := below_eq_some hb
      have hj := hi.joinsBelow hg hh hadj
      have := hj.length
      exact ih hj.inv hj.mem_used (by omega)

/-- With as many turns as there are free groups, the loops come to their end. -/
theorem Inv.settled (hi : a.Inv) (hg : g ∈ a.used)
    (hn : a.freeGroups.length ≤ n) : Settled L n a g := by
  have h₁ := hi.joinAbove (L := L) (n := n) hg
  exact ⟨above_joinAbove hi hg hn,
    below_joinBelow h₁.inv h₁.mem (h₁.length.trans hn)⟩

/-- A group that has found nothing above it finds nothing later either. -/
theorem above_joinBelow (hi : a.Inv) (hg : g ∈ a.used)
    (ha : a.above L g = none) :
    (joinBelow L n g a).2.above L (joinBelow L n g a).1 = none := by
  have hfirst : ∀ {n : ℕ} {g : Group} {a : Pages}, (joinBelow L n g a).1.first = g.first := by
    intro n
    induction n with
    | zero => exact rfl
    | succ n ih =>
      intro g a
      unfold joinBelow
      cases a.below L g with
      | none => rfl
      | some h => exact ih
  rw [above_eq_none] at ha ⊢
  rw [hfirst]
  exact fun h hh => ha h ((hi.joinBelow hg).free h hh)

/-- More rounds do not change anything once the first loop is done. -/
theorem joinAbove_eq {k : ℕ} (h : (joinAbove L n g a).2.above L (joinAbove L n g a).1 = none)
    (hk : n ≤ k) : joinAbove L k g a = joinAbove L n g a := by
  induction n generalizing k a g with
  | zero =>
    have ha : a.above L g = none := h
    cases k with
    | zero => rfl
    | succ k => simp [joinAbove, ha]
  | succ n ih =>
    obtain ⟨k, rfl⟩ := Nat.exists_eq_add_of_le' (Nat.one_le_of_lt hk)
    unfold joinAbove at h ⊢
    cases ha : a.above L g with
    | none => rfl
    | some h' =>
      simp only [ha] at h
      exact ih h (by omega)

/-- More rounds do not change anything once the second loop is done. -/
theorem joinBelow_eq {k : ℕ} (h : (joinBelow L n g a).2.below L (joinBelow L n g a).1 = none)
    (hk : n ≤ k) : joinBelow L k g a = joinBelow L n g a := by
  induction n generalizing k a g with
  | zero =>
    have hb : a.below L g = none := h
    cases k with
    | zero => rfl
    | succ k => simp [joinBelow, hb]
  | succ n ih =>
    obtain ⟨k, rfl⟩ := Nat.exists_eq_add_of_le' (Nat.one_le_of_lt hk)
    unfold joinBelow at h ⊢
    cases hb : a.below L g with
    | none => rfl
    | some h' =>
      simp only [hb] at h
      exact ih h (by omega)

/-- Further turns change nothing. -/
theorem Settled.joinAll_eq (hs : Settled L n a g) {k : ℕ} (hk : n ≤ k) :
    joinAll L k a g = joinAll L n a g := by
  unfold joinAll
  rw [joinAbove_eq hs.above hk]
  exact joinBelow_eq hs.below hk

/-- The number of rounds does not matter when it is large enough. -/
theorem Settled.release_eq (hs : Settled L n a g) (hi : a.Inv)
    (hg : g ∈ a.used) : a.release L g = a.releaseWithin L n g := by
  have hall := hi.settled (L := L) hg (le_max_right n a.freeGroups.length)
  have hlen := hi.settled (L := L) hg (le_refl a.freeGroups.length)
  unfold release releaseWithin
  rw [← hlen.joinAll_eq (le_max_right n _), ← hs.joinAll_eq (le_max_left n _)]

/-! ### The released groups -/

/-- The invariant is kept, whatever the number of turns is. -/
theorem Inv.releaseWithin (hi : a.Inv) (hg : g ∈ a.used) :
    (a.releaseWithin L n g).Inv := by
  have hj := hi.joinAll (L := L) (n := n) hg
  exact hj.inv.addGroup hj.mem

/-- `release` keeps the invariant. -/
theorem Inv.release (hi : a.Inv) (hg : g ∈ a.used) :
    (a.release L g).Inv := hi.releaseWithin hg

/-- `release` keeps the number of the pages. -/
theorem Inv.count_release (hi : a.Inv) (hg : g ∈ a.used) :
    (a.release L g).count = a.count := (hi.joinAll hg).count

/-- The used groups after a release are those before without the released one. -/
theorem Inv.used_release (hi : a.Inv) (hg : g ∈ a.used) :
    (a.release L g).used.Perm (a.used.erase g) := (hi.joinAll hg).used

/-- The counter of free pages after a release. -/
theorem Inv.freeCount_release (hi : a.Inv) (hc : a.count < 2 ^ 21) (hg : g ∈ a.used) :
    (a.release L g).freeCount = a.freeCount + g.size := by
  have hsum := ((hi.used_release (L := L) hg).map Span.size).sum_eq
  have herase := ((List.perm_cons_erase hg).map Span.size).sum_eq
  rw [List.map_cons, List.sum_cons] at herase
  have h₁ := hi.freeCount_add hc
  have h₂ := (hi.release (L := L) hg).freeCount_add ((hi.count_release hg).trans_lt hc)
  rw [hi.count_release hg] at h₂
  omega

/-- The free groups after a release: the joined group and free groups from before. -/
theorem freeGroups_release : (a.release L g).freeGroups.Perm
    ((joinAll L a.freeGroups.length a g).1 :: (joinAll L a.freeGroups.length a g).2.freeGroups) :=
  freeGroups_addGroup

/-- No free group gets smaller in a release. -/
theorem Inv.exists_freeGroup_release (hi : a.Inv) (hg : g ∈ a.used) (hh : h ∈ a.freeGroups) :
    ∃ k ∈ (a.release L g).freeGroups, h.size ≤ k.size := by
  have hfree := freeGroups_release (L := L) (a := a) (g := g)
  rcases (hi.joinAll (L := L) hg).kept h hh with hk | hle
  · exact ⟨h, hfree.mem_iff.mpr (List.mem_cons_of_mem _ hk), le_rfl⟩
  · exact ⟨_, hfree.mem_iff.mpr List.mem_cons_self, hle⟩

/-- A property that holds of the released group and of all free groups, and that passes to two
joined groups, holds of all free groups after the release. -/
theorem Inv.forall_release (hi : a.Inv) (hg : g ∈ a.used)
    {P : Group → Prop} (hP : P g) (hfree : ∀ h ∈ a.freeGroups, P h)
    (hjoin : ∀ g h : Group, P g → P h → g.first + g.size = h.first → L.Glued (h.first - 1) →
      P ⟨g.first, g.size + h.size⟩) : ∀ h ∈ (a.release L g).freeGroups, P h := by
  have habove : ∀ n (a : Pages) g, P g → (∀ h ∈ a.freeGroups, P h) →
      P (Pages.joinAbove L n g a).1 := by
    intro n
    induction n with
    | zero => exact fun _ _ hP _ => hP
    | succ n ih =>
      intro a g hP hfree
      unfold Pages.joinAbove
      cases ha : a.above L g with
      | none => exact hP
      | some h =>
        obtain ⟨hh, hadj, hglue, -⟩ := above_eq_some ha
        refine ih _ _ (hjoin h g (hfree h hh) hP hadj hglue) fun k hk => hfree k ?_
        exact mem_of_mem_removeGroup hk
  have hbelow : ∀ n (a : Pages) g, P g → (∀ h ∈ a.freeGroups, P h) →
      P (Pages.joinBelow L n g a).1 := by
    intro n
    induction n with
    | zero => exact fun _ _ hP _ => hP
    | succ n ih =>
      intro a g hP hfree
      unfold Pages.joinBelow
      cases hb : a.below L g with
      | none => exact hP
      | some h =>
        obtain ⟨hh, hadj, hglue, -⟩ := below_eq_some hb
        refine ih _ _ (hjoin g h hP (hfree h hh) hadj hglue) fun k hk => hfree k ?_
        exact mem_of_mem_removeGroup hk
  intro h hh
  have h₁ := hi.joinAbove (L := L) (n := a.freeGroups.length) hg
  rcases List.mem_cons.mp (freeGroups_release.mem_iff.mp hh) with rfl | hh
  · exact hbelow _ _ _ (habove _ _ _ hP hfree) fun k hk => hfree k (h₁.free k hk)
  · exact hfree h ((hi.joinAll hg).free h hh)

end Pages

/-! ### Refinement -/

variable {L : Layout} {a : Pages} {s : PageState} {g h : Group} {n fuel : ℕ}

/-- The region of an address is that of the layout. -/
theorem PageRep.getRegion (hr : PageRep L a s) (x : ℕ) :
    s.self.getRegion x = L.config.getRegion x := by
  rw [hr.config]
  rfl

omit [Platform] in
/-- The rule for `isValidPage`. -/
@[simp] theorem PageAllocator.wp_isValidPage {page : ℕ} {Q : Bool → PageState → Prop} :
    wp (PageAllocator.isValidPage page) Q s ↔
      Q (page ≥ s.self.pagesHead && page ≤ s.self.pagesTail) s := by
  simp [PageAllocator.isValidPage]

/-- The valid descriptors are those of the table. -/
theorem PageRep.isValid_iff (hr : PageRep L a s) {i : ℕ} :
    (L.pageAt i ≥ s.self.pagesHead && L.pageAt i ≤ s.self.pagesTail) = decide (i < L.count) := by
  have hpos := L.count_pos
  have hself := hr.config
  have h₁ : s.self.pagesHead = L.pageAt 0 := by
    rw [hself]
    exact Layout.head_eq
  have h₂ : s.self.pagesTail = L.pageAt (L.count - 1) := by
    rw [hself]
    exact Layout.tail_eq_pageAt
  rw [h₁, h₂, ← Bool.decide_and, decide_eq_decide, ge_iff_le, Layout.pageAt_le_iff,
    Layout.pageAt_le_iff]
  omega

/-- The descriptor in front of the table is not valid. -/
theorem PageRep.not_isValid (hr : PageRep L a s) :
    (Page.prevSibling (L.pageAt 0) ≥ s.self.pagesHead &&
      Page.prevSibling (L.pageAt 0) ≤ s.self.pagesTail) = false := by
  have h₁ : s.self.pagesHead = L.pageAt 0 := by
    rw [hr.config]
    exact Layout.head_eq
  have := Layout.prevSibling_head_lt (L := L)
  rw [h₁, Bool.and_eq_false_iff]
  exact Or.inl (decide_eq_false (by omega))

/-- The address in the descriptor of a page. -/
theorem PageRep.addr (hr : PageRep L a s) {i : ℕ} (hi : i < L.count) :
    s.mem (L.pageAt i + 2 * wordBytes) = L.addr i := hr.table.addr i (hr.count ▸ hi)

/-- A page whose used flag is not set belongs to a free group. -/
theorem PageRep.exists_free (hr : PageRep L a s) {i : ℕ} (hi : i < L.count)
    (hu : usedAt L s.mem i = false) :
    ∃ h ∈ a.freeGroups, h.Covers i ∧ i < h.first + (cut h).size := by
  obtain ⟨h, hh, hcov⟩ := hr.inv.tiles.exists_covers (hr.count ▸ hi)
  rcases Pages.mem_groups.mp hh with hh | hh
  · rw [hr.table.used h hh i hcov] at hu
    cases hu
  · rw [hr.table.free h hh i hcov] at hu
    exact ⟨h, hh, hcov, Nat.lt_of_not_le (of_decide_eq_false hu)⟩

/-- The pointer to the last descriptor of a group, which for a group of size zero may be the one in
front of the table: it is not null, and the next descriptor is the one behind the group. -/
theorem Layout.nextSibling_last {i k : ℕ} (h : i + k ≤ L.count) :
    Page.minus (Page.plus (L.pageAt i) k) 1 ≠ 0 ∧
      Page.nextSibling (Page.minus (Page.plus (L.pageAt i) k) 1) = L.pageAt (i + k) := by
  rw [plus_pageAt h]
  obtain h0 | hpos := Nat.eq_zero_or_pos (i + k)
  · have hs := sizeofPage_pos
    have hgt : sizeofPage < L.pageAt 0 := by simpa [pageAt] using L.head_gt
    have hlt := pageAt_lt (L := L) (Nat.zero_le _)
    rw [h0, Page.minus, Word.mul_eq (by omega), Word.sub_eq (by omega) hlt, Page.nextSibling,
      Page.plus, Word.mul_eq (by omega), Word.add_eq (by omega)]
    exact ⟨by omega, by omega⟩
  · rw [minus_pageAt hpos h, Page.nextSibling, plus_pageAt (by omega), Nat.sub_add_cancel hpos]
    exact ⟨pageAt_ne_zero _, rfl⟩

/-- The first descriptor of the group whose last descriptor is `pageAt i`. -/
theorem Layout.first_pageAt {i k : ℕ} (hk : k ≤ i + 1) (hk0 : 0 < k) (hi : i < L.count) :
    Page.plus (Page.minus (L.pageAt i) k) 1 = L.pageAt (i + 1 - k) := by
  obtain rfl | hlt := Nat.eq_or_lt_of_le hk
  · -- the pointer passes through the place in front of the table
    have hs : L.pageAt i + sizeofPage = L.pageAt 0 + (i + 1) * sizeofPage := by
      simp only [pageAt, Nat.add_mul, Nat.zero_mul, Nat.one_mul]
      omega
    have hge : sizeofPage ≤ L.pageAt 0 := by simpa [pageAt] using L.head_gt.le
    have hl := pageAt_lt (L := L) hi.le
    have h0 := pageAt_lt (L := L) (Nat.zero_le _)
    have hm : (i + 1) * sizeofPage < 2 ^ width := by
      have h₁ := pageAt_lt (L := L) (i := i + 1) hi
      rw [← Nat.zero_add (i + 1), pageAt_add] at h₁
      omega
    rw [Page.minus, Word.mul_eq hm, Word.sub_eq (by omega) hl, Page.plus,
      Word.mul_eq (by omega), Word.add_eq (by omega), Nat.sub_self]
    omega
  · rw [minus_pageAt (by omega) hi.le, plus_pageAt (by omega)]
    congr 1
    omega

/-- Joining a used and a free group in the code, the free one in front. -/
theorem PageRep.joinsAbove (hr : PageRep L a s) (hg : g ∈ a.used) (hh : h ∈ a.freeGroups)
    (hlt : h.size < 2 ^ 21) (hadj : h.first + h.size = g.first) :
    wp (do
      PageAllocator.removeGroup (L.pageAt h.first)
      joinGroup (L.pageAt h.first) (L.pageAt g.first) : PageM ℕ)
      (fun r s' => r = L.pageAt h.first ∧
        PageRep L ((a.removeGroup h).joinGroup h g) s' ∧ Keeps L s s') s := by
  have hj := hr.inv.joinsAbove hg hh hadj
  have hi' := hr.inv.removeGroup hh
  rw [wp_bind]
  apply (removeGroup_spec hr.table hr.inv hr.count.le hh).mono
  rintro _ s₁ ⟨ht₁, hk₁⟩
  rw [wp_liftMem]
  refine (joinGroup_rep ht₁ hi' hr.count.le Pages.mem_used_removeGroup
    (List.mem_cons_of_mem _ hg) hlt hadj).mono ?_
  rintro _ m ⟨rfl, ht₂, hk₂⟩
  exact ⟨rfl, hr.step ht₂ hj.inv rfl (hk₁.trans hk₂), hk₁.trans hk₂⟩

/-- Joining a used and a free group in the code, the used one in front. -/
theorem PageRep.joinsBelow (hr : PageRep L a s) (hg : g ∈ a.used) (hh : h ∈ a.freeGroups)
    (hlt : g.size < 2 ^ 21) (hadj : g.first + g.size = h.first) :
    wp (do
      PageAllocator.removeGroup (L.pageAt h.first)
      joinGroup (L.pageAt g.first) (L.pageAt h.first) : PageM ℕ)
      (fun r s' => r = L.pageAt g.first ∧
        PageRep L ((a.removeGroup h).joinGroup g h) s' ∧ Keeps L s s') s := by
  have hj := hr.inv.joinsBelow hg hh hadj
  have hi' := hr.inv.removeGroup hh
  rw [wp_bind]
  apply (removeGroup_spec hr.table hr.inv hr.count.le hh).mono
  rintro _ s₁ ⟨ht₁, hk₁⟩
  rw [wp_liftMem]
  refine (joinGroup_rep ht₁ hi' hr.count.le (List.mem_cons_of_mem _ hg)
    Pages.mem_used_removeGroup hlt hadj).mono ?_
  rintro _ m ⟨rfl, ht₂, hk₂⟩
  exact ⟨rfl, hr.step ht₂ hj.inv rfl (hk₁.trans hk₂), hk₁.trans hk₂⟩

/-- The first loop of `release` ends when there is nothing to join with. -/
private theorem PageRep.joinAbove_none (hr : PageRep L a s) (hg : g ∈ a.used)
    (ha : a.above L g = none) :
    wp (PageAllocator.joinAbove (fuel + 1) (L.pageAt g.first))
      (fun r s' => r = L.pageAt g.first ∧ s' = s) s := by
  have hlt := hr.inv.first_lt hr.count.le (Pages.mem_groups.mpr (Or.inl hg))
  simp only [PageAllocator.joinAbove, wp_bind, PageAllocator.wp_isValidPage, wp_ite, wp_pure,
    wp_get, wp_liftMem, Page.wp_address, Page.wp_isUsed]
  obtain h0 | hpos := Nat.eq_zero_or_pos g.first
  · rw [h0, hr.not_isValid]
    simp
  have hprev : Page.prevSibling (L.pageAt g.first) = L.pageAt (g.first - 1) :=
    Layout.minus_pageAt hpos hlt.le
  have hlt' : g.first - 1 < L.count := by omega
  rw [hprev, hr.isValid_iff, decide_eq_true hlt']
  simp only [Bool.not_true, Bool.false_eq_true, false_implies, not_false_eq_true, true_implies,
    true_and, Layout.pageAt_ne_zero, ne_eq, hr.addr hlt, hr.addr hlt', hr.getRegion]
  refine ⟨fun _ => trivial, fun hglue => ⟨fun _ => trivial, fun hu => ?_⟩⟩
  obtain ⟨h, hh, hcov, hcut⟩ := hr.exists_free hlt' (by simpa [usedAt] using hu)
  have hadj := hr.inv.tiles.adjacent (Pages.mem_groups.mpr (Or.inr hh))
    (Pages.mem_groups.mpr (Or.inl hg)) hpos hcov
  have hglue' : L.Glued (g.first - 1) := by
    rw [Layout.Glued, Nat.sub_add_cancel hpos]
    exact (not_not.mp hglue).symm
  have hlarge := Pages.above_eq_none.mp ha h hh hadj hglue'
  have hcut_lt := cut_size_lt h
  omega

/-- A round of the first loop of `release` that finds the free group `h`. -/
private theorem PageRep.joinAbove_some (hr : PageRep L a s) (hg : g ∈ a.used)
    (ha : a.above L g = some h) {Q : ℕ → PageState → Prop}
    (hQ : ∀ s', PageRep L ((a.removeGroup h).joinGroup h g) s' → Keeps L s s' →
      wp (PageAllocator.joinAbove fuel (L.pageAt h.first)) Q s') :
    wp (PageAllocator.joinAbove (fuel + 1) (L.pageAt g.first)) Q s := by
  obtain ⟨hh, hadj, hglue, hsmall⟩ := Pages.above_eq_some ha
  have hgg := Pages.mem_groups.mpr (Or.inl hg)
  have hhg := Pages.mem_groups.mpr (Or.inr hh)
  have hlt := hr.inv.first_lt hr.count.le hgg
  have hph := hr.inv.tiles.size_pos hhg
  have hlast : g.first - 1 = h.first + h.size - 1 := by omega
  have hprev : Page.prevSibling (L.pageAt g.first) = L.pageAt (g.first - 1) :=
    Layout.minus_pageAt (by omega) hlt.le
  have hlt' : g.first - 1 < L.count := by omega
  have hfree : usedAt L s.mem (g.first - 1) = false := by
    rw [hr.table.free h hh _ ⟨by omega, by omega⟩, cut_eq hsmall]
    exact decide_eq_false (by omega)
  have htag : flagsGroupSize (s.mem (L.pageAt (g.first - 1) + 3 * wordBytes)) = h.size := by
    rw [hlast]
    exact (hr.table.tags h hhg).last hsmall
  have hfirst : Page.plus (Page.minus (L.pageAt (g.first - 1)) h.size) 1 = L.pageAt h.first := by
    rw [Layout.first_pageAt (by omega) hph hlt']
    congr 1
    omega
  have hsame : L.config.getRegion (L.addr g.first) = L.config.getRegion (L.addr (g.first - 1)) := by
    rw [Layout.Glued, Nat.sub_add_cancel (by omega)] at hglue
    exact hglue.symm
  have hround := hr.joinsAbove hg hh hsmall hadj
  rw [wp_bind] at hround
  rw [usedAt] at hfree
  simp only [PageAllocator.joinAbove, wp_bind, PageAllocator.wp_isValidPage, wp_ite, wp_pure,
    wp_get, wp_liftMem, Page.wp_address, Page.wp_isUsed, Page.wp_groupSize, hprev,
    hr.isValid_iff, decide_eq_true hlt', Bool.not_true, Bool.false_eq_true, false_implies,
    not_false_eq_true, true_implies, true_and, Layout.pageAt_ne_zero, ne_eq, hr.addr hlt,
    hr.addr hlt', hr.getRegion, hsame, not_true_eq_false, hfree, htag, hfirst]
  apply hround.mono
  intro _ s₁ hjoin
  rw [wp_liftMem] at hjoin
  apply hjoin.mono
  rintro _ m ⟨rfl, hr', hk⟩
  exact hQ _ hr' hk

/-- The first loop of `release` does `n` rounds if nothing is left to join after them. -/
theorem PageRep.joinAbove (hr : PageRep L a s) (hg : g ∈ a.used) (hn : n < fuel)
    (hset : (Pages.joinAbove L n g a).2.above L (Pages.joinAbove L n g a).1 = none) :
    wp (PageAllocator.joinAbove fuel (L.pageAt g.first)) (fun r s' =>
      r = L.pageAt (Pages.joinAbove L n g a).1.first ∧
        PageRep L (Pages.joinAbove L n g a).2 s' ∧ Keeps L s s') s := by
  induction n generalizing a g s fuel with
  | zero =>
    obtain ⟨fuel, rfl⟩ := Nat.exists_eq_add_of_le' hn
    apply (hr.joinAbove_none hg hset).mono
    rintro _ _ ⟨rfl, rfl⟩
    exact ⟨rfl, hr, Keeps.refl⟩
  | succ n ih =>
    obtain ⟨fuel, rfl⟩ := Nat.exists_eq_add_of_le' (Nat.one_le_of_lt hn)
    cases ha : a.above L g with
    | none =>
      simp only [Pages.joinAbove, ha]
      apply (hr.joinAbove_none hg ha).mono
      rintro _ _ ⟨rfl, rfl⟩
      exact ⟨rfl, hr, Keeps.refl⟩
    | some h =>
      simp only [Pages.joinAbove, ha] at hset ⊢
      obtain ⟨hh, hadj, -, -⟩ := Pages.above_eq_some ha
      have hj := hr.inv.joinsAbove hg hh hadj
      apply hr.joinAbove_some hg ha
      intro s₁ hr₁ hk₁
      apply (ih hr₁ hj.mem_used (by omega) hset).mono
      rintro _ s₂ ⟨rfl, hr₂, hk₂⟩
      exact ⟨rfl, hr₂, hk₁.trans hk₂⟩

/-- The second loop of `release` ends when there is nothing to join with. -/
private theorem PageRep.joinBelow_none (hr : PageRep L a s) (hg : g ∈ a.used)
    (hb : a.below L g = none) :
    wp (PageAllocator.joinBelow (fuel + 1) (L.pageAt g.first))
      (fun r s' => r = L.pageAt g.first ∧ s' = s) s := by
  have hgg := Pages.mem_groups.mpr (Or.inl hg)
  have hpos := hr.inv.tiles.size_pos hgg
  have hstop := hr.stop_le hgg
  have hle := cut_size_le g
  obtain ⟨hlast, hnext⟩ := Layout.nextSibling_last (L := L) (i := g.first) (k := (cut g).size)
    (by omega)
  simp only [PageAllocator.joinBelow, wp_bind, PageAllocator.wp_isValidPage, wp_ite, wp_pure,
    wp_get, wp_liftMem, Page.wp_address, Page.wp_isUsed, Page.wp_groupSize,
    hr.table.flagsGroupSize hgg, hnext, hlast, Layout.pageAt_ne_zero, ne_eq, not_false_eq_true,
    true_and, hr.isValid_iff, hr.getRegion]
  by_cases hend : g.first + (cut g).size < L.count
  · simp only [hend, decide_true, Bool.not_true, Bool.false_eq_true, false_implies,
      not_false_eq_true, true_implies, true_and, hr.addr hend]
    refine ⟨fun _ => trivial, fun hglue => ⟨fun _ => trivial, fun hu => ?_⟩⟩
    have hunused : usedAt L s.mem (g.first + (cut g).size) = false := by simpa [usedAt] using hu
    -- the page that is read is not a lost page of the group itself
    have hsmall : g.size < 2 ^ 21 := by
      by_contra hlarge
      have hcut := cut_size_lt g
      rw [hr.table.used g hg _ ⟨by omega, by omega⟩] at hunused
      cases hunused
    rw [cut_eq hsmall] at hend hglue hunused
    obtain ⟨h, hh, hcov, hcut⟩ := hr.exists_free hend hunused
    have hadj := hr.inv.tiles.adjacent_right hgg (Pages.mem_groups.mpr (Or.inr hh)) hcov
    rw [Layout.last_pageAt (by omega) hstop, hr.addr (by omega)] at hglue
    have hglue' : L.Glued (h.first - 1) := by
      rw [← hadj, Layout.Glued, Nat.sub_add_cancel (by omega)]
      exact not_not.mp hglue
    have hzero := Pages.below_eq_none.mp hb h hh hadj hglue' hsmall
    omega
  · simp [hend]

/-- A round of the second loop of `release` that finds the free group `h`. -/
private theorem PageRep.joinBelow_some (hr : PageRep L a s) (hg : g ∈ a.used)
    (hb : a.below L g = some h) {Q : ℕ → PageState → Prop}
    (hQ : ∀ s', PageRep L ((a.removeGroup h).joinGroup g h) s' → Keeps L s s' →
      wp (PageAllocator.joinBelow fuel (L.pageAt g.first)) Q s') :
    wp (PageAllocator.joinBelow (fuel + 1) (L.pageAt g.first)) Q s := by
  obtain ⟨hh, hadj, hglue, hsmall, hcut⟩ := Pages.below_eq_some hb
  have hgg := Pages.mem_groups.mpr (Or.inl hg)
  have hhg := Pages.mem_groups.mpr (Or.inr hh)
  have hpos := hr.inv.tiles.size_pos hgg
  have hph := hr.inv.tiles.size_pos hhg
  have hstop := hr.stop_le hgg
  have hend := hr.inv.first_lt hr.count.le hhg
  have hlt : g.first + g.size - 1 < L.count := by omega
  have htag : flagsGroupSize (s.mem (L.pageAt g.first + 3 * wordBytes)) = g.size := by
    rw [hr.table.flagsGroupSize hgg, cut_eq hsmall]
  have hnext : Page.nextSibling (L.pageAt (g.first + g.size - 1)) = L.pageAt h.first := by
    rw [Page.nextSibling, Layout.plus_pageAt (by omega), Nat.sub_add_cancel (by omega), hadj]
  have hfree : usedAt L s.mem h.first = false := by
    rw [hr.table.free h hh _ ⟨le_rfl, by omega⟩]
    exact decide_eq_false (by omega)
  have hsame : L.config.getRegion (L.addr (g.first + g.size - 1)) =
      L.config.getRegion (L.addr h.first) := by
    rw [Layout.Glued, Nat.sub_add_cancel (by omega)] at hglue
    rwa [hadj]
  have hround := hr.joinsBelow hg hh hsmall hadj
  rw [wp_bind] at hround
  rw [usedAt] at hfree
  simp only [PageAllocator.joinBelow, wp_bind, PageAllocator.wp_isValidPage, wp_ite, wp_pure,
    wp_get, wp_liftMem, Page.wp_address, Page.wp_isUsed, Page.wp_groupSize, htag,
    Layout.last_pageAt (Nat.add_pos_right _ hpos) hstop, hnext, hr.isValid_iff,
    decide_eq_true hend, Bool.not_true, Bool.false_eq_true, false_implies, not_false_eq_true,
    true_implies, true_and, Layout.pageAt_ne_zero, ne_eq, hr.addr hlt, hr.addr hend, hr.getRegion, hsame,
    not_true_eq_false, hfree]
  apply hround.mono
  intro _ s₁ hjoin
  rw [wp_liftMem] at hjoin
  apply hjoin.mono
  rintro _ m ⟨rfl, hr', hk⟩
  exact hQ _ hr' hk

/-- The second loop of `release` does `n` rounds if nothing is left to join after them. -/
theorem PageRep.joinBelow (hr : PageRep L a s) (hg : g ∈ a.used) (hn : n < fuel)
    (hset : (Pages.joinBelow L n g a).2.below L (Pages.joinBelow L n g a).1 = none) :
    wp (PageAllocator.joinBelow fuel (L.pageAt g.first)) (fun r s' =>
      r = L.pageAt (Pages.joinBelow L n g a).1.first ∧
        PageRep L (Pages.joinBelow L n g a).2 s' ∧ Keeps L s s') s := by
  induction n generalizing a g s fuel with
  | zero =>
    obtain ⟨fuel, rfl⟩ := Nat.exists_eq_add_of_le' hn
    apply (hr.joinBelow_none hg hset).mono
    rintro _ _ ⟨rfl, rfl⟩
    exact ⟨rfl, hr, Keeps.refl⟩
  | succ n ih =>
    obtain ⟨fuel, rfl⟩ := Nat.exists_eq_add_of_le' (Nat.one_le_of_lt hn)
    cases hb : a.below L g with
    | none =>
      simp only [Pages.joinBelow, hb]
      apply (hr.joinBelow_none hg hb).mono
      rintro _ _ ⟨rfl, rfl⟩
      exact ⟨rfl, hr, Keeps.refl⟩
    | some h =>
      simp only [Pages.joinBelow, hb] at hset ⊢
      obtain ⟨hh, hadj, -, -⟩ := Pages.below_eq_some hb
      have hj := hr.inv.joinsBelow hg hh hadj
      apply hr.joinBelow_some hg hb
      intro s₁ hr₁ hk₁
      apply (ih hr₁ hj.mem_used (by omega) hset).mono
      rintro _ s₂ ⟨rfl, hr₂, hk₂⟩
      exact ⟨rfl, hr₂, hk₁.trans hk₂⟩

/-- `release` of the code, with enough rounds for its loops, refines `Pages.release`. -/
theorem PageRep.releaseWithin (hr : PageRep L a s) (hg : g ∈ a.used)
    (hset : Pages.Settled L n a g) (hn : n < fuel) :
    wp (PageAllocator.releaseWithin fuel (L.pageAt g.first)) (fun _ s' =>
      PageRep L (a.release L g) s' ∧ Keeps L s s') s := by
  rw [hset.release_eq hr.inv hg]
  simp only [PageAllocator.releaseWithin, Layout.pageAt_ne_zero, if_false, wp_bind]
  apply (hr.joinAbove hg hn hset.above).mono
  rintro _ s₁ ⟨rfl, hr₁, hk₁⟩
  have hj₁ := hr.inv.joinAbove (L := L) (n := n) hg
  apply (hr₁.joinBelow hj₁.mem hn hset.below).mono
  rintro _ s₂ ⟨rfl, hr₂, hk₂⟩
  have hj := hr.inv.joinAll (L := L) (n := n) hg
  apply (addGroup_spec hr₂.table hr₂.inv hr₂.count.le hj.mem).mono
  rintro _ s₃ ⟨ht₃, hk₃⟩
  have hi := hr.inv.releaseWithin (L := L) (n := n) hg
  exact ⟨hr₂.step ht₃ hi rfl hk₃, (hk₁.trans hk₂).trans hk₃⟩

/-- `release` of the code refines `Pages.release`. -/
theorem PageRep.release (hr : PageRep L a s) (hg : g ∈ a.used) :
    wp (PageAllocator.release (L.pageAt g.first)) (fun _ s' =>
      PageRep L (a.release L g) s' ∧ Keeps L s s') s := by
  apply hr.releaseWithin hg (hr.inv.settled hg le_rfl)
  have h₁ := hr.inv.length_freeGroups_le
  have h₂ := hr.count
  have h₃ := Layout.count_lt_loopBound (L := L)
  omega

end Liballocator
