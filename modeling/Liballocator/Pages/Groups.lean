import Liballocator.Pages.Table
import Liballocator.Library.Families

/-!
# Groups of pages

`Pages` is what the page allocator keeps track of: the groups in use and, list by list and in the
order of the list, the free groups.  A group is a span of page numbers.

`TableRep L a s` says that the state `s` represents `a`: the descriptors carry the tags and flags of
the groups and the free groups are linked in their lists.  `removeGroup`, `splitGroup`, `joinGroup`
and `addGroup` are refined by the operations of the same names on `Pages`, and each of them keeps
the groups a tiling of the table.
-/

namespace Liballocator

open Program LinkedList Tiling Families

/-- A group of pages. -/
abbrev Group := Span

/-- The group as its tags describe it: the size is cut off to the width of its field.  The pages of
the group behind these are lost. -/
def cut (g : Group) : Group := ⟨g.first, g.size % 2 ^ 21⟩

/-- The cut changes the size only. -/
@[simp] theorem cut_first (g : Group) : (cut g).first = g.first := rfl

/-- The stored size has 21 bits. -/
theorem cut_size_lt (g : Group) : (cut g).size < 2 ^ 21 := Nat.mod_lt _ (Nat.two_pow_pos 21)

/-- The stored size is at most the real one. -/
theorem cut_size_le (g : Group) : (cut g).size ≤ g.size := Nat.mod_le _ _

/-- Nothing is lost of a group of less than `2 ^ 21` pages. -/
theorem cut_eq {g : Group} (hg : g.size < 2 ^ 21) : cut g = g := by
  rw [cut, Nat.mod_eq_of_lt hg]

/-- The groups of a page allocator. -/
structure Pages where
  /-- Number of the pages that are set up. -/
  count : ℕ
  /-- The groups that are not free. -/
  used : List Group
  /-- The free groups in the list with the given index. -/
  free : ℕ → List Group

namespace Pages

/-- All free groups. -/
def freeGroups (a : Pages) : List Group := (List.range maxGroupIdx).flatMap a.free

/-- All groups. -/
def groups (a : Pages) : List Group := a.used ++ a.freeGroups

/-- Number of the free pages that are not lost. -/
def freeCount (a : Pages) : ℕ := (a.freeGroups.map fun g => (cut g).size).sum

/-- A free group is taken out of its list. -/
def removeGroup (a : Pages) (g : Group) : Pages :=
  { a with
    used := g :: a.used
    free := Function.update a.free (groupIdx (cut g).size)
      ((a.free (groupIdx (cut g).size)).erase g) }

/-- A used group becomes a free one. -/
def addGroup (a : Pages) (g : Group) : Pages :=
  { a with
    used := a.used.erase g
    free := Function.update a.free (groupIdx (cut g).size)
      (g :: a.free (groupIdx (cut g).size)) }

/-- A used group is split behind its first `n` pages. -/
def splitGroup (a : Pages) (g : Group) (n : ℕ) : Pages :=
  { a with used := ⟨g.first, n⟩ :: ⟨g.first + n, g.size - n⟩ :: a.used.erase g }

/-- Two adjacent used groups are joined. -/
def joinGroup (a : Pages) (g h : Group) : Pages :=
  { a with used := ⟨g.first, g.size + h.size⟩ :: (a.used.erase g).erase h }

/-- The groups tile the table, and every free group is in the list for its size. -/
structure Inv (a : Pages) : Prop where
  tiles : Tiles a.count a.groups
  listed : ∀ i, ∀ g ∈ a.free i, groupIdx (cut g).size = i

variable {a : Pages} {g h : Group}

/-- The free groups are those in one of the lists. -/
theorem mem_freeGroups : g ∈ a.freeGroups ↔ ∃ i < maxGroupIdx, g ∈ a.free i := by
  simp [freeGroups]

/-- A group is in use or free. -/
theorem mem_groups : g ∈ a.groups ↔ g ∈ a.used ∨ g ∈ a.freeGroups := List.mem_append

/-- The free groups, those of one list first. -/
theorem freeGroups_perm {k : ℕ} (hk : k < maxGroupIdx) :
    a.freeGroups.Perm (a.free k ++ ((List.range maxGroupIdx).erase k).flatMap a.free) :=
  flatMap_perm (List.mem_range.mpr hk)

/-- The index of the list for a group is in range. -/
theorem groupIdx_lt {n : ℕ} (hn : n < 2 ^ 21) : groupIdx n < maxGroupIdx := by
  unfold groupIdx maxGroupIdx
  split_ifs with h
  · omega
  · have := Nat.log_lt_of_lt_pow (b := 2) (by omega : n ≠ 0) hn
    omega

/-- Every group has one of the lists. -/
theorem idx_lt (g : Group) : groupIdx (cut g).size < maxGroupIdx := groupIdx_lt (cut_size_lt g)

/-- The free groups before and after the removal of one of them. -/
theorem freeGroups_removeGroup (hg : g ∈ a.free (groupIdx (cut g).size)) :
    a.freeGroups.Perm (g :: (a.removeGroup g).freeGroups) :=
  (flatMap_update_uncons List.nodup_range (List.mem_range.mpr (idx_lt g))
    (List.perm_cons_erase hg).symm).symm

/-- The free groups after the insertion of a further one. -/
theorem freeGroups_addGroup : (a.addGroup g).freeGroups.Perm (g :: a.freeGroups) :=
  flatMap_update_cons List.nodup_range (List.mem_range.mpr (idx_lt g)) (List.Perm.refl _)

/-- A group that is taken out of its list is in use. -/
theorem groups_removeGroup (hg : g ∈ a.free (groupIdx (cut g).size)) :
    a.groups.Perm (a.removeGroup g).groups := by
  apply (List.Perm.append_left _ (freeGroups_removeGroup hg)).trans
  exact List.perm_middle

/-- A group in use that is put into its list is free. -/
theorem groups_addGroup (hg : g ∈ a.used) : a.groups.Perm (a.addGroup g).groups := by
  apply ((List.perm_cons_erase hg).append_right _).trans
  refine List.Perm.trans ?_ (List.Perm.append_left _ freeGroups_addGroup.symm)
  exact List.perm_middle.symm

/-! ### The operations keep the tiling -/

/-- A free group is in the list for its stored size. -/
theorem Inv.mem_free (hi : a.Inv) (hg : g ∈ a.freeGroups) :
    g ∈ a.free (groupIdx (cut g).size) := by
  obtain ⟨i, -, hmem⟩ := mem_freeGroups.mp hg
  rwa [hi.listed i g hmem]

/-- `removeGroup` keeps the invariant. -/
theorem Inv.removeGroup (hi : a.Inv) (hg : g ∈ a.freeGroups) : (a.removeGroup g).Inv := by
  refine ⟨hi.tiles.perm (groups_removeGroup (hi.mem_free hg)), fun i h hh => ?_⟩
  by_cases hii : i = groupIdx (cut g).size
  · subst hii
    simp only [Pages.removeGroup, Function.update_self] at hh
    exact hi.listed _ h (List.mem_of_mem_erase hh)
  · simp only [Pages.removeGroup, Function.update_of_ne hii] at hh
    exact hi.listed i h hh

/-- `addGroup` keeps the invariant. -/
theorem Inv.addGroup (hi : a.Inv) (hg : g ∈ a.used) : (a.addGroup g).Inv := by
  refine ⟨hi.tiles.perm (groups_addGroup hg), fun i h hh => ?_⟩
  by_cases hii : i = groupIdx (cut g).size
  · subst hii
    simp only [Pages.addGroup, Function.update_self, List.mem_cons] at hh
    rcases hh with rfl | hh
    · rfl
    · exact hi.listed _ h hh
  · simp only [Pages.addGroup, Function.update_of_ne hii] at hh
    exact hi.listed i h hh

/-- The groups, one of the used ones first. -/
theorem groups_perm_cons (hg : g ∈ a.used) :
    a.groups.Perm (g :: (a.used.erase g ++ a.freeGroups)) :=
  (List.perm_cons_erase hg).append_right _

/-- `splitGroup` keeps the invariant. -/
theorem Inv.splitGroup (hi : a.Inv) (hg : g ∈ a.used) {n : ℕ} (hn : 0 < n) (hng : n < g.size) :
    (a.splitGroup g n).Inv :=
  ⟨(hi.tiles.perm (groups_perm_cons hg)).split hn hng, hi.listed⟩

/-- `joinGroup` keeps the invariant. -/
theorem Inv.joinGroup (hi : a.Inv) (hg : g ∈ a.used) (hh : h ∈ a.used)
    (hadj : g.first + g.size = h.first) : (a.joinGroup g h).Inv := by
  have hpos := hi.tiles.size_pos (mem_groups.mpr (Or.inl hg))
  have hne : h ≠ g := by
    rintro rfl
    omega
  have hh' : h ∈ a.used.erase g := (List.mem_erase_of_ne hne).mpr hh
  have hp : a.groups.Perm (g :: h :: ((a.used.erase g).erase h ++ a.freeGroups)) :=
    (groups_perm_cons hg).trans (((List.perm_cons_erase hh').append_right _).cons _)
  exact ⟨(hi.tiles.perm hp).join hadj, hi.listed⟩

end Pages

/-! ### Representation -/

section Representation

variable [Platform]

/-- The tags of a group: its size at both ends, zero inside.  What is lost of the group has no tags,
nor does it have a last page with a tag. -/
structure Tagged (tag : ℕ → ℕ) (g : Group) : Prop where
  first : tag g.first = (cut g).size
  inner : ∀ i, g.first < i → i + 1 < g.first + (cut g).size → tag i = 0
  last : g.size < 2 ^ 21 → tag (g.first + g.size - 1) = g.size

/-- The state `s` represents the groups `a`, on the pages that are set up. -/
structure TableRep (L : Layout) (a : Pages) (s : PageState) : Prop where
  freeCount : s.self.freePagesCount = a.freeCount
  addr : ∀ i < a.count, addrAt L s.mem i = L.addr i
  lists : ∀ i < maxGroupIdx, IsList (links s.mem) (s.self.freeGroupLists i)
    ((a.free i).map fun g => L.pageAt g.first)
  /-- Descriptors that do not stand for a free group are in no list. -/
  unlinked : ∀ i < a.count, (∀ g ∈ a.freeGroups, g.first ≠ i) →
    s.mem (L.pageAt i) = 0 ∧ s.mem (L.pageAt i + wordBytes) = 0
  tags : ∀ g ∈ a.groups, Tagged (tagAt L s.mem) g
  used : ∀ g ∈ a.used, ∀ i, g.Covers i → usedAt L s.mem i = true
  /-- Only the pages that are lost are used. -/
  free : ∀ g ∈ a.freeGroups, ∀ i, g.Covers i →
    usedAt L s.mem i = decide (g.first + (cut g).size ≤ i)

/-- Between `s` and `s'` only the free lists, the counter of free pages and the table have
changed. -/
structure Keeps (L : Layout) (s s' : PageState) : Prop where
  self : s'.self = { s.self with
    freeGroupLists := s'.self.freeGroupLists, freePagesCount := s'.self.freePagesCount }
  frame : ∀ x ∉ L.table, s'.mem x = s.mem x

variable {L : Layout} {a : Pages} {s s' s'' : PageState} {g h : Group}

/-- Nothing has changed. -/
theorem Keeps.refl : Keeps L s s := ⟨rfl, fun _ _ => rfl⟩

/-- The relation is transitive. -/
theorem Keeps.trans (h₁ : Keeps L s s') (h₂ : Keeps L s' s'') : Keeps L s s'' :=
  ⟨by rw [h₂.self, h₁.self], fun x hx => (h₂.frame x hx).trans (h₁.frame x hx)⟩

omit [Platform] in
/-- The tags of a group that nothing is lost of. -/
theorem Tagged.eq {tag : ℕ → ℕ} (ht : Tagged tag g) (hg : g.size < 2 ^ 21) {i : ℕ}
    (hi : g.Covers i) :
    tag i = if i = g.first ∨ i + 1 = g.first + g.size then g.size else 0 := by
  obtain ⟨h₁, h₂⟩ := hi
  have hfirst := ht.first
  have hinner := ht.inner i
  have hlast := ht.last hg
  rw [cut_eq hg] at hfirst hinner
  split_ifs with hend
  · rcases hend with rfl | hend
    · exact hfirst
    · rwa [show g.first + g.size - 1 = i by omega] at hlast
  · exact hinner (by omega) (by omega)

omit [Platform] in
/-- Tags of a group are not affected by changes outside of it. -/
theorem Tagged.congr {tag tag' : ℕ → ℕ} (ht : Tagged tag g) (hpos : 0 < g.size)
    (h : ∀ i, g.Covers i → tag' i = tag i) : Tagged tag' g := by
  have hle := cut_size_le g
  refine ⟨?_, fun i h₁ h₂ => ?_, fun hlt => ?_⟩
  · rw [h g.first ⟨le_rfl, by omega⟩, ht.first]
  · rw [h i ⟨h₁.le, by omega⟩, ht.inner i h₁ h₂]
  · rw [h _ ⟨by omega, by omega⟩, ht.last hlt]

omit [Platform] in
/-- What is left of a group after its first pages have been cut off, as the tags describe it. -/
theorem cut_sub {n : ℕ} (hn : n ≤ (cut g).size) :
    cut ⟨g.first + n, g.size - n⟩ = ⟨g.first + n, (cut g).size - n⟩ := by
  have hdiv : g.size = (cut g).size + 2 ^ 21 * (g.size / 2 ^ 21) := (Nat.mod_add_div _ _).symm
  have hlt := cut_size_lt g
  have hsub : g.size - n = (cut g).size - n + 2 ^ 21 * (g.size / 2 ^ 21) := by omega
  rw [cut]
  simp only
  rw [hsub, Nat.add_mul_mod_self_left, Nat.mod_eq_of_lt (by omega)]

omit [Platform] in
/-- The two parts of a split group are tagged. -/
theorem Tagged.split {tag : ℕ → ℕ} (ht : Tagged tag g) {n : ℕ} (hn : 0 < n)
    (hng : n < (cut g).size) :
    Tagged (splitTags tag (cut g) n) ⟨g.first, n⟩ ∧
      Tagged (splitTags tag (cut g) n) ⟨g.first + n, g.size - n⟩ := by
  have hlt := cut_size_lt g
  have hinner := ht.inner
  have happly : ∀ i, splitTags tag (cut g) n i = _ := splitTags_apply hn hng
  constructor
  · have hcut : cut ⟨g.first, n⟩ = ⟨g.first, n⟩ := cut_eq (by simp only; omega)
    refine ⟨?_, fun i h₁ h₂ => ?_, fun _ => ?_⟩
    · rw [happly, if_pos (Or.inl (cut_first g).symm), hcut]
    · rw [hcut] at h₂
      have := hinner i h₁ (by simp only at h₂; omega)
      rw [happly, cut_first]
      simp only at h₁ h₂
      split_ifs <;> omega
    · rw [happly, if_pos (Or.inr (by simp only [cut_first]; omega))]
  · have hcut := cut_sub hng.le
    refine ⟨?_, fun i h₁ h₂ => ?_, fun hsize => ?_⟩
    · rw [happly, cut_first, if_neg (by simp only; omega), if_pos (Or.inl rfl), hcut]
    · rw [hcut] at h₂
      simp only at h₁ h₂
      have := hinner i (by omega) (by omega)
      rw [happly, cut_first]
      split_ifs <;> omega
    · have he : g.size - n = (cut g).size - n := by
        have := congrArg Span.size hcut
        rwa [cut_eq hsize] at this
      rw [happly, cut_first, if_neg (by simp only; omega),
        if_pos (Or.inr (by simp only; omega)), he]

omit [Platform] in
/-- Splitting a group leaves the tags outside of it alone. -/
theorem splitTags_of_not_covers {tag : ℕ → ℕ} {n i : ℕ} (hn : 0 < n) (hng : n < (cut g).size)
    (hi : ¬g.Covers i) : splitTags tag (cut g) n i = tag i := by
  have hle := cut_size_le g
  simp only [Span.Covers] at hi
  rw [splitTags_apply hn hng, cut_first]
  split_ifs <;> omega

omit [Platform] in
/-- The size of the union of two joined groups, as the tags describe it. -/
theorem cut_join :
    (cut ⟨g.first, g.size + h.size⟩).size = (g.size + (cut h).size) % 2 ^ 21 :=
  (Nat.add_mod_mod _ _ _).symm

omit [Platform] in
/-- The union of two joined groups is tagged. -/
theorem Tagged.join {tag : ℕ → ℕ} (hg : Tagged tag g) (hh : Tagged tag h) (hpg : 0 < g.size)
    (hlt : g.size < 2 ^ 21) (hadj : g.first + g.size = h.first) :
    Tagged (joinTags tag g (cut h)) ⟨g.first, g.size + h.size⟩ := by
  have hcut : (cut ⟨g.first, g.size + h.size⟩).size = _ := cut_join
  have hmod := Nat.mod_le (g.size + (cut h).size) (2 ^ 21)
  have happly : ∀ i, joinTags tag g (cut h) i = _ := joinTags_apply hpg
  refine ⟨?_, fun i h₁ h₂ => ?_, fun hsum => ?_⟩
  · rw [happly, if_pos (Or.inl rfl), hcut]
  · rw [hcut] at h₂
    simp only at h₁ h₂
    rw [happly, cut_first]
    by_cases hi : i < h.first
    · have := hg.eq hlt (i := i) ⟨by omega, by omega⟩
      split_ifs at this ⊢ <;> omega
    · have := hh.inner i
      split_ifs <;> omega
  · simp only at hsum
    rw [happly, cut_eq (g := h) (by omega), if_pos (Or.inr (by simp only; omega)),
      Nat.mod_eq_of_lt hsum]

omit [Platform] in
/-- Joining two groups leaves the tags outside of them alone. -/
theorem joinTags_of_not_covers {tag : ℕ → ℕ} {i : ℕ} (hpg : 0 < g.size) (hph : 0 < h.size)
    (hadj : g.first + g.size = h.first) (hig : ¬g.Covers i) (hih : ¬h.Covers i) :
    joinTags tag g (cut h) i = tag i := by
  have hle := cut_size_le h
  simp only [Span.Covers] at hig hih
  rw [joinTags_apply hpg, cut_first]
  split_ifs <;> omega

end Representation

end Liballocator
