import Liballocator.Zones.RefineCalls
import Liballocator.Pages.Query

/-!
# Blocks

A block is what `allocate` has returned for a size.  `Heap.allocate` and `Heap.release` are the two
calls on heaps, and `Serves` is what holds between calls: the heap is well formed with the chunks
and the groups of the live blocks held by the users, every zone but the initial one has a chunk that
is not free, and a chunk for descriptors is in reserve.

`release` looks for the page of a large block by its address.  Where regions touch, `getPage` may
miss it; the pages of the block then stay used for ever.  They are the groups `leaked`.
-/

namespace Liballocator

open Program LinkedList Tiling

/-- A block of a user. -/
structure Block where
  /-- The pointer that `allocate` has returned. -/
  ptr : ℕ
  /-- The size that was demanded. -/
  size : ℕ
  deriving DecidableEq, Repr

/-! ### Sizes -/

section Sizes

variable {n ps : ℕ}

/-- Integers below `2 ^ 53` are stored exactly. -/
theorem toDouble_eq (h : n < 2 ^ 53) : toDouble n = n := by
  have hlog : Nat.log 2 n - 52 = 0 := by
    have := Nat.log_lt_of_lt_pow' (b := 2) (x := 53) (by omega) h
    omega
  simp [toDouble, hlog, Nat.mod_one]

/-- Rounding to a double does not go below the leading bit. -/
theorem le_toDouble (h : 2 ^ 53 ≤ n) : 2 ^ 53 ≤ toDouble n := by
  have hn : n ≠ 0 := by
    rintro rfl
    exact absurd h (by norm_num)
  have hlog : 53 ≤ Nat.log 2 n := Nat.le_log_of_pow_le (by omega) h
  have hpow : 2 ^ Nat.log 2 n ≤ n := Nat.pow_log_le_self 2 hn
  have hsplit : 2 ^ Nat.log 2 n = 2 ^ 52 * 2 ^ (Nat.log 2 n - 52) := by
    rw [← Nat.pow_add]
    congr 1
    omega
  have hq : 2 ^ 52 ≤ n / 2 ^ (Nat.log 2 n - 52) := by
    rw [Nat.le_div_iff_mul_le (Nat.two_pow_pos _), ← hsplit]
    exact hpow
  have hge : 2 ^ 53 ≤ n / 2 ^ (Nat.log 2 n - 52) * 2 ^ (Nat.log 2 n - 52) := by
    apply le_trans (Nat.pow_le_pow_right (by omega) hlog)
    rw [hsplit]
    exact Nat.mul_le_mul_right _ hq
  unfold toDouble
  simp only
  split_ifs
  · exact hge.trans (Nat.mul_le_mul_right _ (Nat.le_succ _))
  · exact hge

/-- The number of pages is computed exactly as long as it is small. -/
theorem ceilDiv_eq (hpos : 0 < ps) (hps : ps ≤ 4096) (h : ceilDiv n ps < 2 ^ 21) :
    ceilDiv n ps = (n + ps - 1) / ps := by
  by_cases hn : n < 2 ^ 53
  · rw [ceilDiv, toDouble_eq hn]
  · have hge := le_toDouble (Nat.le_of_not_lt hn)
    have hlt := (Nat.div_lt_iff_lt_mul hpos).mp h
    have hmul : 2 ^ 21 * ps ≤ 2 ^ 21 * 4096 := Nat.mul_le_mul_left _ hps
    omega

end Sizes

variable [Platform]

/-- The condition under which `allocate` takes a chunk of a zone. -/
def Small (pageSize size : ℕ) : Prop := size < pageSize ∧ chunkSize size < pageSize

instance (pageSize size : ℕ) : Decidable (Small pageSize size) :=
  inferInstanceAs (Decidable (_ ∧ _))

/-- A small block is served by a chunk of its class, which is large enough. -/
theorem Small.classSize_eq {ps size : ℕ} (h : Small ps size) (hps : ps ≤ 4096) :
    chunkSize size = classSize (zoneIdx (chunkSize size)) ∧ size ≤ chunkSize size := by
  have hlt := h.1
  obtain ⟨i, hi, hle⟩ := chunkSize_eq (show size ≤ 2 ^ 31 by omega)
  rw [zoneIdx_chunkSize hi, hi]
  exact ⟨rfl, hle⟩

/-! ### The calls on heaps -/

namespace Heap

section Definitions

variable (L : Layout) (H : Heap)

/-- Allocation of `size` bytes: the pointer, or null. -/
def allocate (size : ℕ) : ℕ × Heap :=
  if size = 0 then (0, H)
  else if Small L.pageSize size then
    let result := H.allocateChunk L (zoneIdx (chunkSize size))
    (result.1.getD 0, result.2)
  else
    match H.pages.allocate (ceilDiv size L.pageSize) with
    | (none, _) => (0, H)
    | (some g, a) => (L.addr g.first, H.withPages a)

/-- Release of a group by its first page. -/
def releasePage (i : ℕ) : Heap :=
  match H.pages.used.find? fun g => g.first = i with
  | none => H
  | some g => H.withPages (H.pages.release L g)

/-- Release of a block. -/
def release (ptr : ℕ) : Heap :=
  if ptr = 0 then H
  else
    match H.deallocate L ptr with
    | (true, H') => H'
    | (false, H') =>
      match L.findPage ptr with
      | none => H'
      | some i => H'.releasePage L i

end Definitions

end Heap

/-- The number of the page with the given address. -/
def Layout.pageNo (L : Layout) (addr : ℕ) : ℕ :=
  ((List.range L.count).find? fun i => L.addr i = addr).getD 0

/-- The number of the page at its own address. -/
theorem Layout.Sound.pageNo_addr {L : Layout} (hL : L.Sound) {i : ℕ} (hi : i < L.count) :
    L.pageNo (L.addr i) = i := by
  rw [Layout.pageNo]
  cases hf : (List.range L.count).find? fun j => L.addr j = L.addr i with
  | none => exact absurd (by simp) (List.find?_eq_none.mp hf i (List.mem_range.mpr hi))
  | some j =>
    have hj := List.find?_some hf
    rw [decide_eq_true_iff] at hj
    exact hL.addr_inj (List.mem_range.mp (List.mem_of_find?_eq_some hf)) hi hj

/-- The group of a block that is served from pages. -/
def blockGroup (L : Layout) (b : Block) : Group := ⟨L.pageNo b.ptr, ceilDiv b.size L.pageSize⟩

/-- The chunks of the blocks. -/
def blockChunks (L : Layout) (blocks : List Block) : List ℕ :=
  (blocks.filter fun b => Small L.pageSize b.size).map Block.ptr

/-- The groups of the blocks. -/
def blockGroups (L : Layout) (blocks : List Block) : List Group :=
  (blocks.filter fun b => ¬Small L.pageSize b.size).map (blockGroup L)

/-- The page that `init` takes for the initial zone. -/
def Pages.rootPage (a₀ : Pages) : ℕ := ((a₀.allocate 1).1.getD ⟨0, 0⟩).first

/-- The heap `H` serves the users that hold the blocks; its groups have developed from `a₀`. -/
structure Serves (L : Layout) (r : Group) (a₀ : Pages) (H : Heap) (blocks : List Block)
    (leaked : List Group) : Prop where
  wf : H.Wf L r (blockChunks L blocks) (blockGroups L blocks ++ leaked)
  tight : H.Tight L
  reserve : 1 ≤ H.freeCount descIdx
  classes : ∀ b ∈ blocks, Small L.pageSize b.size → H.HasClass L b.ptr (zoneIdx (chunkSize b.size))
  addr : ∀ b ∈ blocks, ¬Small L.pageSize b.size → L.addr (L.pageNo b.ptr) = b.ptr
  steps : Pages.Steps L r a₀ H.pages
  root : (H.zone initialZone).page = a₀.rootPage

variable {L : Layout} {r : Group} {a₀ : Pages} {H : Heap} {blocks : List Block}
  {leaked : List Group} {b : Block} {size : ℕ}

/-- The chunks of the small blocks. -/
theorem mem_blockChunks {c : ℕ} : c ∈ blockChunks L blocks ↔
    ∃ b ∈ blocks, Small L.pageSize b.size ∧ b.ptr = c := by
  simp [blockChunks, and_assoc]

/-- The groups of the large blocks. -/
theorem mem_blockGroups {g : Group} : g ∈ blockGroups L blocks ↔
    ∃ b ∈ blocks, ¬Small L.pageSize b.size ∧ blockGroup L b = g := by
  simp only [blockGroups, List.mem_map, List.mem_filter, decide_eq_true_iff, and_assoc]

/-- A small block is one chunk more. -/
theorem blockChunks_cons_small (blocks : List Block) (hb : Small L.pageSize b.size) :
    blockChunks L (b :: blocks) = b.ptr :: blockChunks L blocks ∧
      blockGroups L (b :: blocks) = blockGroups L blocks := by
  rw [blockChunks, blockGroups, List.filter_cons_of_pos (by simpa using hb),
    List.filter_cons_of_neg (by simpa using hb)]
  exact ⟨rfl, rfl⟩

/-- A large block is one group more. -/
theorem blockChunks_cons_large (blocks : List Block) (hb : ¬Small L.pageSize b.size) :
    blockChunks L (b :: blocks) = blockChunks L blocks ∧
      blockGroups L (b :: blocks) = blockGroup L b :: blockGroups L blocks := by
  rw [blockChunks, blockGroups, List.filter_cons_of_neg (by simpa using hb),
    List.filter_cons_of_pos (by simpa using hb)]
  exact ⟨rfl, rfl⟩

/-- Only what the blocks are matters, not their order. -/
theorem blockChunks_perm {blocks' : List Block} (h : blocks.Perm blocks') :
    (blockChunks L blocks).Perm (blockChunks L blocks') ∧
      (blockGroups L blocks).Perm (blockGroups L blocks') :=
  ⟨(h.filter _).map _, (h.filter _).map _⟩

namespace Serves

/-- The order of the blocks does not matter. -/
theorem perm {blocks' : List Block} (h : Serves L r a₀ H blocks leaked)
    (hp : blocks.Perm blocks') : Serves L r a₀ H blocks' leaked :=
  { h with
    wf := h.wf.perm (blockChunks_perm hp).1 ((blockChunks_perm hp).2.append_right leaked)
    classes := fun b hb => h.classes b (hp.mem_iff.mpr hb)
    addr := fun b hb => h.addr b (hp.mem_iff.mpr hb) }

/-- Pages for a large block. -/
theorem allocateLarge (h : Serves L r a₀ H blocks leaked) (A : Arena L r)
    (hsize : ¬Small L.pageSize size) {g : Group} {a : Pages}
    (hal : H.pages.allocate (ceilDiv size L.pageSize) = (some g, a)) :
    L.addr g.first ≠ 0 ∧
      Serves L r a₀ (H.withPages a) (⟨L.addr g.first, size⟩ :: blocks) leaked := by
  have hw := h.wf.allocatePages (ceilDiv size L.pageSize)
  have hst := h.steps.allocate (ceilDiv size L.pageSize)
  rw [hal] at hw hst
  have hsz : g.size = ceilDiv size L.pageSize :=
    size_of_allocate (a := H.pages) (n := ceilDiv size L.pageSize) h.wf.inv h.wf.pages_count_lt
      (by rw [hal])
  have hgm : g ∈ g :: (blockGroups L blocks ++ leaked) := List.mem_cons_self
  have hlt : g.first < L.count := (hw.held_page hgm (hw.held_covers_first hgm)).1
  have hno : L.pageNo (L.addr g.first) = g.first := A.sound.pageNo_addr hlt
  have hgroup : blockGroup L ⟨L.addr g.first, size⟩ = g := by
    rw [blockGroup, hno, ← hsz]
  obtain ⟨hc, hg⟩ := blockChunks_cons_large blocks (b := ⟨L.addr g.first, size⟩) hsize
  refine ⟨(A.sound.addr_pos _ hlt).ne', ?_, h.tight, h.reserve, fun b hb hs => ?_,
    fun b hb hs => ?_, hst, h.root⟩
  · rw [hc, hg, hgroup, List.cons_append]
    exact hw
  · rcases List.mem_cons.mp hb with rfl | hb
    · exact absurd hs hsize
    · exact h.classes b hb hs
  · rcases List.mem_cons.mp hb with rfl | hb
    · exact congrArg L.addr hno
    · exact h.addr b hb hs

/-- A chunk for a small block. -/
theorem allocateSmall (h : Serves L r a₀ H blocks leaked) (A : Arena L r)
    (hsize : Small L.pageSize size) {H' : Heap} {c : ℕ}
    (hm : Heap.ChunkMade L r H H' (zoneIdx (chunkSize size)) (blockChunks L blocks)
      (blockGroups L blocks ++ leaked) c) :
    c ≠ 0 ∧ Serves L r a₀ H' (⟨c, size⟩ :: blocks) leaked := by
  obtain ⟨hc, hg⟩ := blockChunks_cons_small blocks (b := ⟨c, size⟩) hsize
  refine ⟨?_, ?_, hm.tight, hm.reserve, fun b hb hs => ?_, fun b hb hs => ?_,
    h.steps.trans hm.moves.steps, hm.moves.page.trans h.root⟩
  · obtain ⟨d, hd, hown, -⟩ := hm.isClass
    exact hm.wf.cell_ne_zero A.sound (Heap.cell_chunk hd hown)
  · rw [hc, hg]
    exact hm.wf
  · rcases List.mem_cons.mp hb with rfl | hb
    · exact hm.isClass
    · exact hm.hasClass _ _ (h.classes b hb hs)
  · rcases List.mem_cons.mp hb with rfl | hb
    · exact absurd hsize hs
    · exact h.addr b hb hs

/-- An allocation that fails changes nothing but the order of lists, one that succeeds adds a
block. -/
theorem allocate (h : Serves L r a₀ H blocks leaked) (A : Arena L r) (size : ℕ) :
    (H.allocate L size).1 = 0 ∧ Serves L r a₀ (H.allocate L size).2 blocks leaked ∧
        H.Unchanged (H.allocate L size).2 ∨
      (H.allocate L size).1 ≠ 0 ∧
        Serves L r a₀ (H.allocate L size).2 (⟨(H.allocate L size).1, size⟩ :: blocks) leaked := by
  unfold Heap.allocate
  by_cases h0 : size = 0
  · rw [if_pos h0]
    exact Or.inl ⟨rfl, h, .refl⟩
  rw [if_neg h0]
  by_cases hsize : Small L.pageSize size
  · rw [if_pos hsize]
    obtain ⟨hclass, -⟩ := hsize.classSize_eq A.pageSize_le
    have hlt : classSize (zoneIdx (chunkSize size)) < L.pageSize := hclass ▸ hsize.2
    rcases h.wf.allocateChunk A.sound h.tight h.reserve (A.idx_lt hlt) hlt A.descSize_lt with
      ⟨c, H', he, hm⟩ | ⟨H', he, hu⟩
    · rw [he]
      exact Or.inr (h.allocateSmall A hsize hm)
    · rw [he]
      refine Or.inl ⟨rfl, ⟨hu.wf, hu.unchanged.tight h.tight, ?_, fun b hb hs => ?_, h.addr,
        h.steps.trans hu.moves.steps, hu.moves.page.trans h.root⟩, hu.unchanged⟩
      · exact (hu.unchanged.freeCount descIdx_lt).symm ▸ h.reserve
      · exact hu.unchanged.hasClass (h.classes b hb hs)
  · rw [if_neg hsize]
    rcases hal : H.pages.allocate (ceilDiv size L.pageSize) with ⟨_ | g, a⟩
    · exact Or.inl ⟨rfl, h, .refl⟩
    · exact Or.inr (h.allocateLarge A hsize hal)

/-- A large block starts at a page that belongs to no zone. -/
theorem page_large (h : Serves L r a₀ H blocks leaked) (hb : b ∈ blocks)
    (hs : ¬Small L.pageSize b.size) :
    L.pageNo b.ptr < L.count ∧ ∀ d ∈ H.descs, (H.zone d).page ≠ L.pageNo b.ptr := by
  have hg : blockGroup L b ∈ blockGroups L blocks ++ leaked :=
    List.mem_append_left _ (mem_blockGroups.mpr ⟨b, hb, hs, rfl⟩)
  obtain ⟨hlt, -, hpage⟩ := h.wf.held_page hg (h.wf.held_covers_first hg)
  exact ⟨hlt, hpage⟩

/-- The address of a page that somebody holds is not a chunk of a zone. -/
theorem findZone_none (h : Serves L r a₀ H blocks leaked) (A : Arena L r) (hb : b ∈ blocks)
    (hs : ¬Small L.pageSize b.size) : H.findZone L b.ptr = none := by
  refine List.find?_eq_none.mpr fun d hd hc => ?_
  rw [decide_eq_true_iff] at hc
  obtain ⟨hlt, hpage⟩ := h.page_large hb hs
  have hat := (h.wf.fits d hd).chunkAt A.sound hc
  have hge := hat.ge
  have hle := hat.le
  have hc0 := classSize_pos (H.zone d).idx
  have haddr := h.addr b hb hs
  rcases A.sound.addr_apart _ (h.wf.fits d hd).page_lt _ hlt (hpage d hd) with h₁ | h₁ <;> omega

/-- The zones know nothing of a large block. -/
theorem deallocate_large (h : Serves L r a₀ H blocks leaked) (A : Arena L r) (hb : b ∈ blocks)
    (hs : ¬Small L.pageSize b.size) : H.deallocate L b.ptr = (false, H) := by
  obtain ⟨n, hn⟩ := Nat.exists_eq_add_of_le' (Nat.one_le_of_lt
    (List.length_pos_of_mem h.wf.initial_mem))
  rw [Heap.deallocate, hn, Heap.deallocateWithin, h.findZone_none A hb hs]

/-- A live block is not the null pointer. -/
theorem ptr_ne_zero (h : Serves L r a₀ H blocks leaked) (A : Arena L r) (hb : b ∈ blocks) :
    b.ptr ≠ 0 := by
  by_cases hs : Small L.pageSize b.size
  · obtain ⟨d, hd, hown, -⟩ := h.classes b hb hs
    exact h.wf.cell_ne_zero A.sound (Heap.cell_chunk hd hown)
  · rw [← h.addr b hb hs]
    exact (A.sound.addr_pos _ (h.page_large hb hs).1).ne'

/-- A small block is given back to its zone. -/
theorem releaseSmall (h : Serves L r a₀ H (b :: blocks) leaked) (A : Arena L r)
    (hs : Small L.pageSize b.size) : ∃ H', H.deallocate L b.ptr = (true, H') ∧
      Serves L r a₀ H' blocks leaked := by
  obtain ⟨hc, hg⟩ := blockChunks_cons_small blocks hs
  have hw := h.wf
  rw [hc, hg] at hw
  obtain ⟨H', he, hd⟩ := hw.deallocateWithin A.sound h.tight List.mem_cons_self le_rfl
  refine ⟨H', he, ?_, hd.tight, hd.reserve (Or.inl h.reserve), fun b' hb' hs' => ?_,
    fun b' hb' => h.addr b' (List.mem_cons_of_mem _ hb'), h.steps.trans hd.moves.steps,
    hd.moves.page.trans h.root⟩
  · have := hd.wf
    rwa [List.erase_cons_head] at this
  · refine hd.hasClass b'.ptr ?_ _ (h.classes b' (List.mem_cons_of_mem _ hb') hs')
    rw [List.erase_cons_head]
    exact mem_blockChunks.mpr ⟨b', hb', hs', rfl⟩

/-- The pages of a large block are released, if `getPage` finds them. -/
theorem releaseLarge (h : Serves L r a₀ H (b :: blocks) leaked) (A : Arena L r)
    (hs : ¬Small L.pageSize b.size) :
    (∃ i, L.findPage b.ptr = some i ∧ Serves L r a₀ (H.releasePage L i) blocks leaked ∧
      H.pages.used.find? (fun g => g.first = i) = some (blockGroup L b)) ∨
    L.findPage b.ptr = none ∧ Serves L r a₀ H blocks (blockGroup L b :: leaked) := by
  obtain ⟨hc, hg⟩ := blockChunks_cons_large blocks hs
  have hw := h.wf
  rw [hc, hg, List.cons_append] at hw
  have hgm := hw.held_mem (g := blockGroup L b) List.mem_cons_self
  have hgg := Pages.mem_groups.mpr (Or.inl hgm)
  have hlt := (h.page_large List.mem_cons_self hs).1
  have haddr := h.addr b List.mem_cons_self hs
  have hclasses : ∀ b' ∈ blocks, Small L.pageSize b'.size →
      H.HasClass L b'.ptr (zoneIdx (chunkSize b'.size)) :=
    fun b' hb' => h.classes b' (List.mem_cons_of_mem _ hb')
  have haddrs : ∀ b' ∈ blocks, ¬Small L.pageSize b'.size → L.addr (L.pageNo b'.ptr) = b'.ptr :=
    fun b' hb' => h.addr b' (List.mem_cons_of_mem _ hb')
  cases hf : L.findPage b.ptr with
  | none =>
    exact Or.inr ⟨rfl, hw.perm (List.Perm.refl _) List.perm_middle.symm, h.tight, h.reserve,
      hclasses, haddrs, h.steps, h.root⟩
  | some i =>
    obtain ⟨hi, hix⟩ := Layout.findPage_eq_some hf
    have halign : alignDown b.ptr L.pageSize = b.ptr := by
      rw [← haddr]
      refine alignDown_of_dvd A.sound.pageSize ?_ (A.sound.addr_dvd _ hlt)
      have := A.sound.addr_add_lt _ hlt
      omega
    have hno : i = L.pageNo b.ptr := A.sound.addr_inj hi hlt (by rw [hix, halign, haddr])
    have hfind : H.pages.used.find? (fun g => g.first = i) = some (blockGroup L b) := by
      cases hfu : H.pages.used.find? fun g => g.first = i with
      | none =>
        refine absurd ?_ (List.find?_eq_none.mp hfu _ hgm)
        exact decide_eq_true hno.symm
      | some g =>
        have hgf := List.find?_some hfu
        rw [decide_eq_true_iff, hno] at hgf
        exact congrArg some (hw.inv.tiles.eq_of_first
          (Pages.mem_groups.mpr (Or.inl (List.mem_of_find?_eq_some hfu))) hgg hgf)
    refine Or.inl ⟨i, rfl, ?_, hfind⟩
    rw [Heap.releasePage, hfind]
    have hne : blockGroup L b ≠ r := by
      rintro rfl
      exact (List.nodup_cons.mp hw.used_nodup).1 (List.mem_append_right _ List.mem_cons_self)
    have hw' := hw.releasePages (g := blockGroup L b) List.mem_cons_self
    rw [List.erase_cons_head] at hw'
    exact ⟨hw', h.tight, h.reserve, hclasses, haddrs, h.steps.release hgm hne, h.root⟩

/-- A release takes the block away. -/
theorem release (h : Serves L r a₀ H blocks leaked) (A : Arena L r) (hb : b ∈ blocks) :
    ∃ leaked', Serves L r a₀ (H.release L b.ptr) (blocks.erase b) leaked' ∧
      ((∀ i < L.count, L.findPage (L.addr i) = some i) → leaked' = leaked) := by
  have h' := h.perm (List.perm_cons_erase hb)
  have h0 := h.ptr_ne_zero A hb
  unfold Heap.release
  rw [if_neg h0]
  by_cases hs : Small L.pageSize b.size
  · obtain ⟨H', he, hserves⟩ := h'.releaseSmall A hs
    rw [he]
    exact ⟨leaked, hserves, fun _ => rfl⟩
  · rw [h.deallocate_large A hb hs]
    rcases h'.releaseLarge A hs with ⟨i, hf, hserves, -⟩ | ⟨hf, hserves⟩
    · rw [hf]
      exact ⟨leaked, hserves, fun _ => rfl⟩
    · rw [hf]
      refine ⟨_, hserves, fun hall => ?_⟩
      rw [← h.addr b hb hs] at hf
      rw [hall _ (h.page_large hb hs).1] at hf
      exact absurd hf (by simp)

end Serves

end Liballocator
