import Liballocator.PageAllocator
import Liballocator.Library.Tiling
import Mathlib.Tactic.Linarith

/-!
# The table of page descriptors

`Layout` is what `PageAllocator::init` fixes: the fields of the object that no later call changes,
together with the facts about them that the later calls rely on.  The page with the number `i` has
its descriptor at `pageAt i` and its memory at `addr i`.

`tagAt`, `usedAt` and `addrAt` read the members of a descriptor.  `FlagStep m m' tag used` says that
from `m` to `m'` only flags of descriptors have changed, and that the group sizes and used flags are
now `tag` and `used`.  Every function of `group.cpp` gets a rule in terms of `FlagStep`.
-/

namespace Liballocator

open Program LinkedList Tiling

variable [Platform]

/-- The address of the page with the number `i`, the pages being counted through the regions. -/
def pageAddr (pageSize : ℕ) : List RegionInfo → ℕ → ℕ
  | [], _ => 0
  | region :: regions, i =>
    if i < region.pageCount then region.alignedStart + i * pageSize
    else pageAddr pageSize regions (i - region.pageCount)

/-- A page allocator with its table in place: the fields that stay as `init` has set them. -/
structure Layout where
  /-- The object; its free lists and its free pages counter are of no meaning here. -/
  config : PageAllocator
  pagesCount_pos : 0 < config.pagesCount
  /-- There is room for a descriptor in front of the table, not at the null address. -/
  head_gt : sizeofPage < config.pagesHead
  /-- The table does not reach the end of the address space. -/
  head_add_lt : config.pagesHead + config.pagesCount * sizeofPage < 2 ^ width
  tail_eq : config.pagesTail = config.pagesHead + (config.pagesCount - 1) * sizeofPage

namespace Layout

variable (L : Layout)

/-- The page size. -/
abbrev pageSize : ℕ := L.config.pageSize

/-- The number of pages. -/
abbrev count : ℕ := L.config.pagesCount

/-- The address of the page with the number `i`. -/
def addr (i : ℕ) : ℕ := pageAddr L.config.pageSize L.config.regionsInfo i

/-- The address of the descriptor of the page with the number `i`. -/
def pageAt (i : ℕ) : ℕ := L.config.pagesHead + i * sizeofPage

/-- `getRegion` takes the pages `i` and `i + 1` for pages of one region. -/
def Glued (i : ℕ) : Prop := L.config.getRegion (L.addr i) = L.config.getRegion (L.addr (i + 1))

instance (i : ℕ) : Decidable (L.Glued i) :=
  inferInstanceAs (Decidable (L.config.getRegion (L.addr i) = L.config.getRegion (L.addr (i + 1))))

/-- The memory of the table. -/
def table : Set ℕ := {a | L.pageAt 0 ≤ a ∧ a < L.pageAt L.count}

/-- The descriptors of the table. -/
def descriptors : Set ℕ := {a | ∃ i < L.count, a = L.pageAt i}

variable {L}

/-- A table has at least one descriptor. -/
theorem count_pos : 0 < L.count := L.pagesCount_pos

/-- Descriptors lie one behind the other. -/
theorem pageAt_add (i k : ℕ) : L.pageAt (i + k) = L.pageAt i + k * sizeofPage := by
  simp only [pageAt, Nat.add_mul, Nat.add_assoc]

/-- A descriptor is not empty. -/
theorem sizeofPage_pos : 0 < sizeofPage := by
  have := wordBytes_pos
  unfold sizeofPage
  omega

/-- A later descriptor begins behind an earlier one. -/
theorem pageAt_lt_pageAt {i j : ℕ} (h : i < j) : L.pageAt i + sizeofPage ≤ L.pageAt j := by
  obtain ⟨k, rfl⟩ := Nat.exists_eq_add_of_le h
  rw [Nat.succ_eq_add_one, pageAt_add, pageAt_add, Nat.one_mul]
  omega

/-- Descriptors are in the order of their numbers. -/
theorem pageAt_le_pageAt {i j : ℕ} (h : i ≤ j) : L.pageAt i ≤ L.pageAt j := by
  obtain ⟨k, rfl⟩ := Nat.exists_eq_add_of_le h
  rw [pageAt_add]
  omega

/-- A descriptor has one number. -/
theorem pageAt_inj {i j : ℕ} : L.pageAt i = L.pageAt j ↔ i = j := by
  constructor
  · intro h
    have hs := sizeofPage_pos
    rcases Nat.lt_trichotomy i j with hlt | rfl | hlt
    · have := pageAt_lt_pageAt (L := L) hlt
      omega
    · rfl
    · have := pageAt_lt_pageAt (L := L) hlt
      omega
  · rintro rfl
    rfl

/-- The addresses are compared as the numbers are. -/
theorem pageAt_le_iff {i j : ℕ} : L.pageAt i ≤ L.pageAt j ↔ i ≤ j := by
  constructor
  · intro h
    have hs := sizeofPage_pos
    by_contra hc
    have := pageAt_lt_pageAt (L := L) (Nat.lt_of_not_le hc)
    omega
  · exact pageAt_le_pageAt

/-- Descriptors lie behind the null address. -/
theorem pageAt_pos (i : ℕ) : 0 < L.pageAt i := by
  have := L.head_gt
  have := sizeofPage_pos
  unfold pageAt
  omega

/-- No descriptor lies at the null address. -/
theorem pageAt_ne_zero (i : ℕ) : L.pageAt i ≠ 0 := (pageAt_pos i).ne'

/-- The table, its end included, lies in the address space. -/
theorem pageAt_lt {i : ℕ} (hi : i ≤ L.count) : L.pageAt i < 2 ^ width :=
  (pageAt_le_pageAt hi).trans_lt L.head_add_lt

/-- `m_pagesHead` is the first descriptor. -/
theorem head_eq : L.config.pagesHead = L.pageAt 0 := by simp [pageAt]

/-- `m_pagesTail` is the last descriptor. -/
theorem tail_eq_pageAt : L.config.pagesTail = L.pageAt (L.count - 1) := L.tail_eq

/-- No loop over the pages of the table runs out of rounds. -/
theorem count_lt_loopBound : L.count < loopBound := by
  have h₁ : L.config.pagesHead + L.count * sizeofPage < 2 ^ width := L.head_add_lt
  have h₂ := sizeofPage_pos
  have h₃ : L.count * 1 ≤ L.count * sizeofPage := Nat.mul_le_mul_left _ h₂
  unfold loopBound
  omega

/-! ### Pointer arithmetic -/

/-- A pointer that is moved forwards inside of the table does not wrap around. -/
theorem plus_pageAt {i k : ℕ} (h : i + k ≤ L.count) :
    Page.plus (L.pageAt i) k = L.pageAt (i + k) := by
  have hlt := pageAt_lt h
  rw [pageAt_add] at hlt ⊢
  rw [Page.plus, Word.mul_eq (by omega), Word.add_eq hlt]

/-- A pointer that is moved backwards inside of the table does not wrap around. -/
theorem minus_pageAt {i k : ℕ} (hk : k ≤ i) (h : i ≤ L.count) :
    Page.minus (L.pageAt i) k = L.pageAt (i - k) := by
  obtain ⟨j, rfl⟩ := Nat.exists_eq_add_of_le' hk
  have hlt := pageAt_lt h
  rw [pageAt_add] at hlt ⊢
  rw [Page.minus, Word.mul_eq (by omega), Word.sub_eq (by omega) hlt, Nat.add_sub_cancel,
    Nat.add_sub_cancel]

/-- The pointer to the last descriptor of a group. -/
theorem last_pageAt {g : Span} (hpos : 0 < g.first + g.size) (h : g.first + g.size ≤ L.count) :
    Page.minus (Page.plus (L.pageAt g.first) g.size) 1 = L.pageAt (g.first + g.size - 1) := by
  rw [plus_pageAt h, minus_pageAt hpos h]

/-- The descriptor in front of the table is not a valid one. -/
theorem prevSibling_head_lt : Page.prevSibling (L.pageAt 0) < L.pageAt 0 := by
  have hs := sizeofPage_pos
  have hlt := pageAt_lt (L := L) (Nat.zero_le _)
  have hge : sizeofPage ≤ L.pageAt 0 := by simpa [pageAt] using L.head_gt.le
  rw [Page.prevSibling, Page.minus, Word.mul_eq (by omega), Word.sub_eq (by omega) hlt]
  omega

/-! ### The words of the table -/

/-- Fields of descriptors are different words. -/
theorem field_inj {i j k l : ℕ} (hk : k < 4) (hl : l < 4) :
    L.pageAt i + k * wordBytes = L.pageAt j + l * wordBytes ↔ i = j ∧ k = l := by
  have hw := wordBytes_pos
  constructor
  · intro h
    have h' : (4 * i + k) * wordBytes = (4 * j + l) * wordBytes := by
      simp only [pageAt, sizeofPage] at h
      linarith
    have := Nat.eq_of_mul_eq_mul_right hw h'
    omega
  · rintro ⟨rfl, rfl⟩
    rfl

/-- The fields of a descriptor are words of the table. -/
theorem field_mem_table {i k : ℕ} (hi : i < L.count) (hk : k < 4) :
    L.pageAt i + k * wordBytes ∈ L.table := by
  have hw := wordBytes_pos
  have h₁ := pageAt_le_pageAt (L := L) (Nat.zero_le i)
  have h₂ := pageAt_lt_pageAt (L := L) hi
  have h₃ : k * wordBytes < 4 * wordBytes := Nat.mul_lt_mul_of_pos_right hk hw
  refine ⟨by omega, ?_⟩
  simp only [sizeofPage] at h₂
  omega

/-- The links of different descriptors do not overlap. -/
theorem descriptors_apart : NodesApart L.descriptors := by
  rintro _ ⟨i, -, rfl⟩ _ ⟨j, -, rfl⟩ h
  have := (field_inj (L := L) (i := i) (j := j) (k := 1) (l := 0) (by omega) (by omega)).mp
    (by simpa using h)
  omega

/-- The links are the first two words of a descriptor. -/
theorem linkWords_descriptors {a : ℕ} (ha : a ∈ linkWords L.descriptors) :
    ∃ i < L.count, ∃ k < 2, a = L.pageAt i + k * wordBytes := by
  obtain ⟨_, ⟨i, hi, rfl⟩, rfl | rfl⟩ := ha
  · exact ⟨i, hi, 0, by omega, by simp⟩
  · exact ⟨i, hi, 1, by omega, by simp⟩

/-- The links are words of the table. -/
theorem linkWords_subset_table {a : ℕ} (ha : a ∉ L.table) : a ∉ linkWords L.descriptors := by
  intro h
  obtain ⟨i, hi, k, hk, rfl⟩ := linkWords_descriptors h
  exact ha (field_mem_table hi (by omega))

/-- The address and the flags of a descriptor are no links. -/
theorem field_not_mem_linkWords {i k : ℕ} (hk : 2 ≤ k) (hk' : k < 4) :
    L.pageAt i + k * wordBytes ∉ linkWords L.descriptors := by
  intro h
  obtain ⟨j, -, l, hl, h⟩ := linkWords_descriptors h
  have := (field_inj hk' (by omega)).mp h
  omega

end Layout

/-! ### Reading descriptors -/

section Views

variable (L : Layout) (m : Mem)

/-- The group size in the descriptor of page `i`. -/
def tagAt (i : ℕ) : ℕ := flagsGroupSize (m (L.pageAt i + 3 * wordBytes))

/-- The used flag in the descriptor of page `i`. -/
def usedAt (i : ℕ) : Bool := flagsUsed (m (L.pageAt i + 3 * wordBytes))

/-- The address in the descriptor of page `i`. -/
def addrAt (i : ℕ) : ℕ := m (L.pageAt i + 2 * wordBytes)

end Views

variable {L : Layout} {m m₀ : Mem}

/-- The rule for `groupSize`. -/
@[simp] theorem Page.wp_groupSize {page : ℕ} {Q : ℕ → Mem → Prop} :
    wp (Page.groupSize page) Q m ↔
      page ≠ 0 ∧ Q (flagsGroupSize (m (page + 3 * wordBytes))) m := by
  simp [Page.groupSize]

/-- The rule for `isUsed`. -/
@[simp] theorem Page.wp_isUsed {page : ℕ} {Q : Bool → Mem → Prop} :
    wp (Page.isUsed page) Q m ↔ page ≠ 0 ∧ Q (flagsUsed (m (page + 3 * wordBytes))) m := by
  simp [Page.isUsed]

/-- The rule for `address`. -/
@[simp] theorem Page.wp_address {page : ℕ} {Q : ℕ → Mem → Prop} :
    wp (Page.address page) Q m ↔ page ≠ 0 ∧ Q (m (page + 2 * wordBytes)) m := by
  simp [Page.address]

/-- From `m` to `m'` only the flags of descriptors have changed; they are now as given. -/
structure FlagStep (L : Layout) (m m' : Mem) (tag : ℕ → ℕ) (used : ℕ → Bool) : Prop where
  links : ∀ i < L.count, m' (L.pageAt i) = m (L.pageAt i) ∧
    m' (L.pageAt i + wordBytes) = m (L.pageAt i + wordBytes)
  addr : ∀ i < L.count, addrAt L m' i = addrAt L m i
  tag : ∀ i < L.count, tagAt L m' i = tag i
  used : ∀ i < L.count, usedAt L m' i = used i
  frame : ∀ a ∉ L.table, m' a = m a

/-- At first the flags are those in the memory. -/
theorem FlagStep.refl : FlagStep L m m (tagAt L m) (usedAt L m) :=
  ⟨fun _ _ => ⟨rfl, rfl⟩, fun _ _ => rfl, fun _ _ => rfl, fun _ _ => rfl, fun _ _ => rfl⟩

/-- Writing the flags of one descriptor. -/
theorem FlagStep.store {tag : ℕ → ℕ} {used : ℕ → Bool} (h : FlagStep L m₀ m tag used) {i f : ℕ}
    (hi : i < L.count) :
    FlagStep L m₀ (Function.update m (L.pageAt i + 3 * wordBytes) f)
      (Function.update tag i (flagsGroupSize f)) (Function.update used i (flagsUsed f)) := by
  have hne : ∀ j k, k < 3 → L.pageAt j + k * wordBytes ≠ L.pageAt i + 3 * wordBytes := by
    intro j k hk e
    have := (Layout.field_inj (by omega) (by omega)).mp e
    omega
  refine ⟨fun j hj => ?_, fun j hj => ?_, fun j hj => ?_, fun j hj => ?_, fun a ha => ?_⟩
  · have h₀ := hne j 0 (by omega)
    have h₁ := hne j 1 (by omega)
    simp only [Nat.zero_mul, Nat.one_mul, Nat.add_zero] at h₀ h₁
    rw [Function.update_of_ne h₀, Function.update_of_ne h₁]
    exact h.links j hj
  · rw [← h.addr j hj, addrAt, Function.update_of_ne (hne j 2 (by omega)), addrAt]
  · by_cases hji : j = i
    · subst hji
      rw [tagAt, Function.update_self, Function.update_self]
    · rw [Function.update_of_ne hji, ← h.tag j hj, tagAt, Function.update_of_ne, tagAt]
      exact fun e => hji ((Layout.field_inj (by omega) (by omega)).mp e).1
  · by_cases hji : j = i
    · subst hji
      rw [usedAt, Function.update_self, Function.update_self]
    · rw [Function.update_of_ne hji, ← h.used j hj, usedAt, Function.update_of_ne, usedAt]
      exact fun e => hji ((Layout.field_inj (by omega) (by omega)).mp e).1
  · rw [Function.update_of_ne, h.frame a ha]
    rintro rfl
    exact ha (Layout.field_mem_table hi (by omega))

/-- The described flags only matter on the pages of the table. -/
theorem FlagStep.congr {m' : Mem} {tag tag' : ℕ → ℕ} {used used' : ℕ → Bool}
    (h : FlagStep L m m' tag used) (ht : ∀ i < L.count, tag i = tag' i)
    (hu : ∀ i < L.count, used i = used' i) : FlagStep L m m' tag' used' :=
  ⟨h.links, h.addr, fun i hi => (h.tag i hi).trans (ht i hi),
    fun i hi => (h.used i hi).trans (hu i hi), h.frame⟩

/-! ### Rules for the functions on groups -/

section Groups

variable {tag : ℕ → ℕ} {used : ℕ → Bool} {g : Span}

/-- `setGroupSize` changes one tag and no mark. -/
theorem Page.setGroupSize_spec (h : FlagStep L m₀ m tag used) {i n : ℕ} (hi : i < L.count) :
    wp (Page.setGroupSize (L.pageAt i) n)
      (fun _ m' => FlagStep L m₀ m' (Function.update tag i (n % 2 ^ 21)) used) m := by
  simp only [Page.setGroupSize, wp_bind, wp_load, wp_store]
  refine ⟨Layout.pageAt_ne_zero i, Layout.pageAt_ne_zero i,
    (h.store hi).congr (fun j _ => ?_) fun j _ => ?_⟩
  · rw [flagsGroupSize_setGroupSize]
  · rw [flagsUsed_setGroupSize]
    by_cases hji : j = i
    · subst hji
      rw [Function.update_self]
      exact h.used j hi
    · rw [Function.update_of_ne hji]

/-- `setUsed` changes one mark and no tag. -/
theorem Page.setUsed_spec (h : FlagStep L m₀ m tag used) {i : ℕ} (hi : i < L.count) (b : Bool) :
    wp (Page.setUsed (L.pageAt i) b)
      (fun _ m' => FlagStep L m₀ m' tag (Function.update used i b)) m := by
  simp only [Page.setUsed, wp_bind, wp_load, wp_store]
  refine ⟨Layout.pageAt_ne_zero i, Layout.pageAt_ne_zero i,
    (h.store hi).congr (fun j _ => ?_) fun j _ => ?_⟩
  · rw [flagsGroupSize_setUsed]
    by_cases hji : j = i
    · subst hji
      rw [Function.update_self]
      exact h.tag j hi
    · rw [Function.update_of_ne hji]
  · rw [flagsUsed_setUsed]

/-- The group sizes after both ends of `g` have got the tag `v`. -/
def setTags (tag : ℕ → ℕ) (g : Span) (v : ℕ) : ℕ → ℕ :=
  Function.update (Function.update tag g.first v) (g.first + g.size - 1) v

omit [Platform] in
/-- The tags at the two ends of a group are set, the others are kept. -/
theorem setTags_apply (tag : ℕ → ℕ) (g : Span) (v i : ℕ) :
    setTags tag g v i = if i = g.first + g.size - 1 ∨ i = g.first then v else tag i := by
  simp only [setTags, Function.update_apply]
  split_ifs <;> simp_all

/-- The rule for `initGroup`: the size is cut off to the width of its field. -/
theorem initGroup_spec (h : FlagStep L m₀ m tag used) (hpos : 0 < g.size)
    (hle : g.first + g.size ≤ L.count) :
    wp (initGroup (L.pageAt g.first) g.size)
      (fun _ m' => FlagStep L m₀ m' (setTags tag g (g.size % 2 ^ 21)) used) m := by
  simp only [initGroup, wp_bind, wp_assert]
  refine ⟨Layout.pageAt_ne_zero _, ?_⟩
  rw [Layout.last_pageAt (Nat.add_pos_right _ hpos) hle]
  apply (Page.setGroupSize_spec h (by omega)).mono
  intro _ m' h'
  exact Page.setGroupSize_spec h' (by omega)

/-- The size in the tag of a group fits in its field. -/
theorem FlagStep.size_lt (h : FlagStep L m₀ m tag used) {i : ℕ} (hi : i < L.count) :
    tag i < 2 ^ 21 := by
  rw [← h.tag i hi]
  exact Nat.mod_lt _ (by omega)

/-- The rule for `clearGroup`.  For a group of size zero the last page is the one in front of it. -/
theorem clearGroup_spec (h : FlagStep L m₀ m tag used) (hpos : 0 < g.first + g.size)
    (hg : g.first < L.count) (hle : g.first + g.size ≤ L.count) (htag : tag g.first = g.size) :
    wp (clearGroup (L.pageAt g.first)) (fun _ m' => FlagStep L m₀ m' (setTags tag g 0) used) m := by
  have ht : flagsGroupSize (m (L.pageAt g.first + 3 * wordBytes)) = g.size :=
    (h.tag g.first hg).trans htag
  simp only [clearGroup, wp_bind, wp_assert, Page.wp_groupSize, ht]
  refine ⟨Layout.pageAt_ne_zero _, Layout.pageAt_ne_zero _, ?_⟩
  rw [Layout.last_pageAt hpos hle]
  apply (Page.setGroupSize_spec h hg).mono
  intro _ m' h'
  exact Page.setGroupSize_spec h' (by omega)

/-- The group sizes after `splitGroup` has cut the first `n` pages off `g`. -/
def splitTags (tag : ℕ → ℕ) (g : Span) (n : ℕ) : ℕ → ℕ :=
  setTags (setTags (setTags tag g 0) ⟨g.first, n⟩ n) ⟨g.first + n, g.size - n⟩ (g.size - n)

omit [Platform] in
/-- The tags of the two parts of a split group. -/
theorem splitTags_apply {n : ℕ} (hn : 0 < n) (hng : n < g.size) (i : ℕ) :
    splitTags tag g n i = if i = g.first ∨ i + 1 = g.first + n then n
      else if i = g.first + n ∨ i + 1 = g.first + g.size then g.size - n else tag i := by
  simp only [splitTags, setTags_apply]
  split_ifs <;> omega

/-- The rule for `splitGroup` when the demanded size is the size of the group. -/
theorem splitGroup_exact (hpos : 0 < g.size) (htag : tagAt L m g.first = g.size) :
    wp (splitGroup (L.pageAt g.first) g.size)
      (fun r m' => r = (L.pageAt g.first, 0) ∧ m' = m) m := by
  have ht : flagsGroupSize (m (L.pageAt g.first + 3 * wordBytes)) = g.size := htag
  simp only [splitGroup, wp_bind, wp_assert, Page.wp_groupSize, ht, if_true, wp_pure]
  exact ⟨Layout.pageAt_ne_zero _, by omega, Layout.pageAt_ne_zero _, le_rfl, trivial, trivial⟩

/-- The rule for `splitGroup` when pages are left over. -/
theorem splitGroup_spec (h : FlagStep L m₀ m tag used) {n : ℕ} (hn : 0 < n) (hng : n < g.size)
    (hle : g.first + g.size ≤ L.count) (htag : tag g.first = g.size) :
    wp (splitGroup (L.pageAt g.first) n) (fun r m' =>
      r = (L.pageAt g.first, L.pageAt (g.first + n)) ∧
      FlagStep L m₀ m' (splitTags tag g n) used) m := by
  have hc : g.size < 2 ^ 21 := htag ▸ h.size_lt (by omega)
  have ht : flagsGroupSize (m (L.pageAt g.first + 3 * wordBytes)) = g.size :=
    (h.tag g.first (by omega)).trans htag
  have hw := two_pow_32_le
  simp only [splitGroup, wp_bind, wp_assert, Page.wp_groupSize, ht, if_neg (Nat.ne_of_lt hng)]
  refine ⟨Layout.pageAt_ne_zero _, by omega, Layout.pageAt_ne_zero _, by omega, ?_⟩
  rw [Word.sub_eq (by omega) (by omega), Layout.plus_pageAt (by omega)]
  apply (clearGroup_spec h (by omega) (by omega) hle htag).mono
  intro _ m₁ h₁
  have hfirst := initGroup_spec (g := ⟨g.first, n⟩) h₁ hn (by simp only; omega)
  rw [Nat.mod_eq_of_lt (hng.trans hc)] at hfirst
  apply hfirst.mono
  intro _ m₂ h₂
  have hsecond := initGroup_spec (g := ⟨g.first + n, g.size - n⟩) h₂ (Nat.sub_pos_of_lt hng)
    (by simp only; omega)
  rw [Nat.mod_eq_of_lt (by simp only; omega)] at hsecond
  apply hsecond.mono
  intro _ m₃ h₃
  exact wp_pure.mpr ⟨rfl, h₃⟩

/-- The group sizes after `joinGroup` on `g` and `h`. -/
def joinTags (tag : ℕ → ℕ) (g h : Span) : ℕ → ℕ :=
  setTags (setTags (setTags tag g 0) h 0) ⟨g.first, g.size + h.size⟩ ((g.size + h.size) % 2 ^ 21)

omit [Platform] in
/-- The tags of a joined group; those at the place where it is joined are cleared. -/
theorem joinTags_apply {h : Span} (hg : 0 < g.size) (i : ℕ) :
    joinTags tag g h i =
      if i = g.first ∨ i + 1 = g.first + (g.size + h.size) then (g.size + h.size) % 2 ^ 21
      else if i + 1 = g.first + g.size ∨ i = h.first ∨ i = h.first + h.size - 1 then 0
      else tag i := by
  simp only [joinTags, setTags_apply]
  split_ifs <;> omega

/-- The rule for `joinGroup`: the size of the joined group is cut off to the width of its field. -/
theorem joinGroup_spec (hs : FlagStep L m₀ m tag used) {h : Span} (hg : 0 < g.size)
    (hadj : g.first + g.size = h.first) (hh : h.first < L.count)
    (hle : h.first + h.size ≤ L.count) (htg : tag g.first = g.size) (hth : tag h.first = h.size) :
    wp (joinGroup (L.pageAt g.first) (L.pageAt h.first)) (fun r m' =>
      r = L.pageAt g.first ∧ FlagStep L m₀ m' (joinTags tag g h) used) m := by
  have hcg : g.size < 2 ^ 21 := htg ▸ hs.size_lt (by omega)
  have hch : h.size < 2 ^ 21 := hth ▸ hs.size_lt hh
  have htg' : flagsGroupSize (m (L.pageAt g.first + 3 * wordBytes)) = g.size :=
    (hs.tag g.first (by omega)).trans htg
  have hth' : flagsGroupSize (m (L.pageAt h.first + 3 * wordBytes)) = h.size :=
    (hs.tag h.first hh).trans hth
  have hw := two_pow_32_le
  simp only [joinGroup, wp_bind, wp_assert, Page.wp_groupSize, htg', hth']
  refine ⟨Layout.pageAt_ne_zero _, Layout.pageAt_ne_zero _, Layout.pageAt_ne_zero _,
    Layout.pageAt_ne_zero _, ?_⟩
  rw [Word.add_eq (by omega)]
  apply (clearGroup_spec hs (by omega) (by omega) (by omega) htg).mono
  intro _ m₁ h₁
  have hth₁ : setTags tag g 0 h.first = h.size := by
    rw [setTags_apply, if_neg (by omega), hth]
  apply (clearGroup_spec h₁ (by omega) hh hle hth₁).mono
  intro _ m₂ h₂
  have hjoin := initGroup_spec (g := ⟨g.first, g.size + h.size⟩) h₂ (by simp only; omega)
    (by simp only; omega)
  exact hjoin.mono fun _ m₃ h₃ => wp_pure.mpr ⟨rfl, h₃⟩

/-- The loop over the used flags of a group. -/
theorem setGroupUsed_spec {value : Bool} {fuel i : ℕ} (h : FlagStep L m₀ m tag used)
    (hle : g.first + g.size ≤ L.count) (htag : tag g.first = g.size) (hg : g.first < L.count)
    (hi : i ≤ g.size) (hfuel : g.size - i < fuel) :
    wp (PageAllocator.setGroupUsed (L.pageAt g.first) value fuel i) (fun _ m' =>
      FlagStep L m₀ m' tag
        fun j => if g.first + i ≤ j ∧ j < g.first + g.size then value else used j) m := by
  induction fuel generalizing i m used with
  | zero => omega
  | succ fuel ih =>
    have ht : flagsGroupSize (m (L.pageAt g.first + 3 * wordBytes)) = g.size :=
      (h.tag g.first (by omega)).trans htag
    simp only [PageAllocator.setGroupUsed, wp_bind, Page.wp_groupSize, ht, wp_ite]
    refine ⟨Layout.pageAt_ne_zero _, fun hlt => ?_, fun hge => ?_⟩
    · rw [Layout.plus_pageAt (by omega)]
      apply (Page.setUsed_spec h (by omega) value).mono
      intro _ m₁ h₁
      refine (ih h₁ (by omega) (by omega)).mono fun _ m₂ h₂ => h₂.congr (fun _ _ => rfl) ?_
      intro j _
      simp only [Function.update_apply]
      split_ifs <;> first | rfl | omega
    · rw [wp_pure]
      refine h.congr (fun _ _ => rfl) fun j _ => ?_
      rw [if_neg (by omega)]

end Groups

end Liballocator
