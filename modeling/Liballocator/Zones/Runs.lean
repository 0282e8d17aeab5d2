import Liballocator.Zones.Initial
import Liballocator.Pages.Maximal
import Liballocator.Pages.Properties

/-!
# Runs of the allocator

`Run` is a run of the code after `init`: allocations, releases of live blocks, and writes of the
users to the blocks that are live.  Every run of the code is a run on heaps (`Run.simulation`), and
in every reachable state the next call returns.
-/

namespace Liballocator

open Program LinkedList Tiling

section Runs

variable [Platform]

variable {L : Layout} {r : Group} {a₀ : Pages} {H : Heap} {blocks : List Block}
  {leaked : List Group} {b : Block} {s s' s₀ : State} {size c : ℕ}

/-! ### The calls refine those on heaps -/

theorem ZoneAllocator.allocate_eq (size : ℕ) : ZoneAllocator.allocate size = (do
    if size = 0 then return 0
    let pageSize := (← get).self.pageSize
    if size ≥ pageSize ∨ chunkSize size ≥ pageSize then
      let page ← callPageAllocator (PageAllocator.allocate (ceilDiv size pageSize))
      if page ≠ 0 then
        return (← Page.address page)
      return 0
    allocateSmall (chunkSize size)) := rfl

/-- The bytes of the live blocks and of the leaked groups. -/
def Heap.userBytes (L : Layout) (H : Heap) (blocks : List Block) (leaked : List Group) : Set ℕ :=
  H.foreign L (blockChunks L blocks) (blockGroups L blocks ++ leaked)

/-- `allocate` of the code refines `Heap.allocate`; it writes neither to live blocks nor outside of
the memory of the allocator. -/
theorem HeapRep.allocate (h : HeapRep L H s) (hv : Serves L r a₀ H blocks leaked)
    (A : Arena L r) (size : ℕ) :
    wp (ZoneAllocator.allocate size) (fun p s' => p = (H.allocate L size).1 ∧
      HeapRep L (H.allocate L size).2 s' ∧
      ∀ a ∈ H.userBytes L blocks leaked ∪ L.outside, s'.mem a = s.mem a) s := by
  rw [ZoneAllocator.allocate_eq]
  unfold Heap.allocate
  by_cases h0 : size = 0
  · simp only [h0, if_true, wp_pure]
    exact ⟨trivial, h, fun _ _ => trivial⟩
  simp only [h0, if_false, wp_bind, wp_get, h.pageSize]
  have hcond : (size ≥ L.pageSize ∨ chunkSize size ≥ L.pageSize) ↔ ¬Small L.pageSize size := by
    unfold Small
    omega
  by_cases hs : Small L.pageSize size
  · rw [if_neg (hcond.not.mpr (not_not.mpr hs)), if_pos hs]
    obtain ⟨hclass, -⟩ := hs.classSize_eq A.pageSize_le
    rw [hclass]
    simp only [zoneIdx_classSize ((A.idx_lt (hclass ▸ hs.2)).trans maxZoneIdx_lt)]
    exact h.allocateSmall hv.wf A hv.tight (hclass ▸ hs.2) hv.reserve
  · rw [if_pos (hcond.mpr hs), if_neg hs]
    simp only [wp_bind, ZoneAllocator.wp_callPageAllocator, h.pageAllocator, true_and]
    apply (h.pages.allocate (n := ceilDiv size L.pageSize)).mono
    rintro _ p ⟨rfl, hp, hk⟩
    have h₁ : HeapRep L _ { s with pages := p } :=
      h.withPages hv.wf A rfl hp fun x _ => hk.frame x
    have hfr : ∀ a ∈ H.userBytes L blocks leaked ∪ L.outside, p.mem a = s.mem a := fun a ha =>
      hk.frame a (hv.wf.untouched_apart A ha).1
    rcases hal : H.pages.allocate (ceilDiv size L.pageSize) with ⟨_ | g, a⟩
    · have ha : a = H.pages := by
        rcases H.pages.allocate_cases (ceilDiv size L.pageSize) with he | ⟨g, -, -, -, -, he⟩ <;>
          rw [hal] at he <;> cases he
        rfl
      subst ha
      rw [hal] at h₁
      simp only [groupPtr, ne_eq, not_true_eq_false, if_false, wp_pure]
      exact ⟨trivial, h₁, hfr⟩
    · rw [hal] at h₁
      have hgu : g ∈ (H.withPages a).pages.used := by
        have := hv.wf.allocatePages (ceilDiv size L.pageSize)
        rw [hal] at this
        exact this.held_mem (by simp)
      have hlt := h₁.pages.inv.first_lt h₁.pages.count.le (Pages.mem_groups.mpr (Or.inl hgu))
      have haddr : p.mem (L.pageAt g.first + 2 * wordBytes) = L.addr g.first := h₁.pages.addr hlt
      simp only [groupPtr, ne_eq, Layout.pageAt_ne_zero, not_false_eq_true, if_true,
        wp_liftMem', Page.wp_address, true_and]
      exact ⟨haddr, h₁, hfr⟩

/-- `deallocateChunk` refuses what is not a chunk of a zone. -/
theorem HeapRep.deallocate_none (h : HeapRep L H s) {live : List ℕ} {held : List Group}
    (hw : H.Wf L r live held) (hL : L.Sound) (hc : c ≠ 0) (hfind : H.findZone L c = none) :
    wp (ZoneAllocator.deallocateChunk c) (fun ok s' => ok = false ∧ s' = s) s := by
  obtain ⟨n, hn⟩ : ∃ n, loopBound = n + 1 :=
    Nat.exists_eq_add_of_le' (Nat.one_le_of_lt hw.length_descs_lt)
  rw [ZoneAllocator.deallocateChunk, hn, ZoneAllocator.deallocateChunkWithin_succ]
  simp only [wp_bind]
  apply (h.findZone hw hL hc).mono
  rintro _ _ ⟨rfl, rfl⟩
  simp only [hfind, Option.getD_none, if_true, wp_pure]
  exact ⟨trivial, trivial⟩

/-- `release` of the code refines `Heap.release`; it writes neither to other live blocks nor outside
of the memory of the allocator. -/
theorem HeapRep.release (h : HeapRep L H s) (hv : Serves L r a₀ H blocks leaked) (A : Arena L r)
    (hp : L.Placed) (hb : b ∈ blocks) :
    wp (ZoneAllocator.release b.ptr) (fun _ s' => HeapRep L (H.release L b.ptr) s' ∧
      ∀ a ∈ H.userBytes L (blocks.erase b) leaked ∪ L.outside, s'.mem a = s.mem a) s := by
  have h0 := hv.ptr_ne_zero A hb
  have hv' := hv.perm (List.perm_cons_erase hb)
  simp only [ZoneAllocator.release, h0, if_false, wp_bind]
  unfold Heap.release
  rw [if_neg h0]
  by_cases hs : Small L.pageSize b.size
  · obtain ⟨hc, hg⟩ := blockChunks_cons_small (blocks.erase b) hs
    have hw := hv'.wf
    rw [hc, hg] at hw
    obtain ⟨H', he, -⟩ := hv'.releaseSmall A hs
    apply (h.deallocate hw A List.mem_cons_self).mono
    rw [he, List.erase_cons_head]
    rintro _ s' ⟨rfl, h', hfr⟩
    simp only [if_true, wp_pure]
    exact ⟨h', hfr⟩
  · have he : H.deallocate L b.ptr = (false, H) := hv.deallocate_large A hb hs
    apply (h.deallocate_none hv.wf A.sound h0 (hv.findZone_none A hb hs)).mono
    rintro _ _ ⟨rfl, rfl⟩
    simp only [Bool.false_eq_true, if_false, wp_bind, ZoneAllocator.wp_callPageAllocator,
      h.pageAllocator, true_and, he]
    apply (h.pages.getPage A.sound hp).mono
    rintro _ p ⟨rfl, rfl⟩
    rcases hv'.releaseLarge A hs with ⟨i, hf, -, hfind⟩ | ⟨hf, -⟩
    · simp only [hf, Layout.pageAt_ne_zero, ne_eq, not_false_eq_true, if_true,
        ZoneAllocator.wp_callPageAllocator, h.pageAllocator, true_and, Heap.releasePage, hfind]
      have hgf : (blockGroup L b).first = i := by simpa using List.find?_some hfind
      rw [← hgf]
      refine (h.pages.release (List.mem_of_find?_eq_some hfind)).mono ?_
      rintro _ p ⟨hp', hk⟩
      refine ⟨h.withPages hv.wf A rfl hp' fun x _ => hk.frame x, fun a ha => ?_⟩
      obtain ⟨-, hg⟩ := blockChunks_cons_large (blocks.erase b) hs
      have ha' : a ∈ H.untouched L (blockChunks L (blocks.erase b))
          (blockGroups L (b :: blocks.erase b) ++ leaked) := by
        rw [hg]
        exact Heap.untouched_cons (blockGroup L b) ha
      exact hk.frame a (hv'.wf.untouched_apart A ha').1
    · simp only [hf, ne_eq, not_true_eq_false, if_false, wp_pure]
      exact ⟨h, fun _ _ => trivial⟩

/-! ### The bytes of a block -/

/-- The length of a block: a chunk, or whole pages. -/
def Block.length (pageSize : ℕ) (b : Block) : ℕ :=
  if Small pageSize b.size then chunkSize b.size else (b.size + pageSize - 1) / pageSize * pageSize

/-- The addresses that belong to a block. -/
def Block.bytes (pageSize : ℕ) (b : Block) : Set ℕ := {a | b.ptr ≤ a ∧ a < b.ptr + b.length pageSize}

/-- The groups of the page allocator consist of adjacent pages. -/
theorem Serves.adjacent (hv : Serves L r a₀ H blocks leaked) (S : Site L r a₀) :
    (∀ g ∈ H.pages.freeGroups, Pages.Uncut L.Adjacent g) ∧
      ∀ g ∈ H.pages.used, g ≠ r → Pages.Uncut L.Adjacent g := by
  have hclosed := Pages.closed_uncut (L := L) (J := L.Adjacent) (R := fun i => L.count ≤ i)
    fun i hglue _ hi' => S.sound.glued_addr i (Nat.lt_of_not_le hi') hglue
  have hall := hv.steps.forall_groups S.inv hclosed
    (fun g hg => ⟨fun i hcov => ?_, S.adjacent g hg⟩) (fun g hg hne => ?_)
  · exact ⟨fun g hg => (hall.1 g hg).2, fun g hg hne => (hall.2 g hg hne).2⟩
  · have := S.inv.tiles.lt_of_covers (Pages.mem_groups.mpr (Or.inr hg)) hcov
    exact Nat.not_le_of_lt (S.count ▸ this)
  · rw [S.used, List.mem_singleton] at hg
    exact absurd hg hne

/-- A large block is a group of pages. -/
theorem Serves.largeBlock (hv : Serves L r a₀ H blocks leaked) (S : Site L r a₀) (hb : b ∈ blocks)
    (hs : ¬Small L.pageSize b.size) :
    blockGroup L b ∈ H.pages.used ∧ 0 < (blockGroup L b).size ∧
      b.length L.pageSize = (blockGroup L b).size * L.pageSize ∧
      ∀ k < (blockGroup L b).size, (blockGroup L b).first + k < L.count ∧
        L.addr ((blockGroup L b).first + k) = b.ptr + k * L.pageSize := by
  have hmem : blockGroup L b ∈ blockGroups L blocks ++ leaked :=
    List.mem_append_left _ (mem_blockGroups.mpr ⟨b, hb, hs, rfl⟩)
  have hused := hv.wf.held_mem hmem
  have hgg := Pages.mem_groups.mpr (Or.inl hused)
  have hpos := hv.wf.inv.tiles.size_pos hgg
  have hne : blockGroup L b ≠ r := by
    rintro rfl
    exact (List.nodup_cons.mp hv.wf.used_nodup).1 (List.mem_append_right _ hmem)
  have hlt : (blockGroup L b).first + (blockGroup L b).size ≤ L.count :=
    hv.wf.count ▸ hv.wf.inv.tiles.stop_le hgg
  have hfew : ceilDiv b.size L.pageSize < 2 ^ 21 :=
    lt_of_le_of_lt (Nat.le_trans (Nat.le_add_left _ _) hlt) hv.wf.small
  refine ⟨hused, hpos, ?_, fun k hk => ⟨by omega, ?_⟩⟩
  · rw [Block.length, if_neg hs, ← ceilDiv_eq S.sound.pageSize.pos S.pageSize_le hfew]
    rfl
  · rw [((hv.adjacent S).2 _ hused hne).addr_eq hk]
    exact congrArg (· + k * L.pageSize) (hv.addr b hb hs)

/-- A byte of a large block lies in one of its pages. -/
theorem Serves.page_of_mem (hv : Serves L r a₀ H blocks leaked) (S : Site L r a₀) (hb : b ∈ blocks)
    (hs : ¬Small L.pageSize b.size) {x : ℕ} (hx : x ∈ b.bytes L.pageSize) :
    ∃ i, (blockGroup L b).Covers i ∧ L.addr i ≤ x ∧ x < L.addr i + L.pageSize := by
  obtain ⟨-, -, hlen, hpages⟩ := hv.largeBlock S hb hs
  obtain ⟨hge, hlt⟩ := hx
  rw [hlen] at hlt
  have hps := S.sound.pageSize.pos
  have hk : (x - b.ptr) / L.pageSize < (blockGroup L b).size :=
    (Nat.div_lt_iff_lt_mul hps).mpr (by omega)
  have hdiv := Nat.div_add_mod' (x - b.ptr) L.pageSize
  have hmod := Nat.mod_lt (x - b.ptr) hps
  have haddr := (hpages _ hk).2
  exact ⟨_, ⟨Nat.le_add_right _ _, Nat.add_lt_add_left hk _⟩, by omega, by omega⟩

/-- The bytes of some of the blocks are not used by the allocator. -/
theorem Serves.bytes_subset_of_mem (hv : Serves L r a₀ H blocks leaked) (S : Site L r a₀)
    {l : List Block} (hl : l ⊆ blocks) (hb : b ∈ l) {x : ℕ} (hx : x ∈ b.bytes L.pageSize) :
    x ∈ H.userBytes L l leaked := by
  by_cases hs : Small L.pageSize b.size
  · have hlen : b.length L.pageSize = classSize (zoneIdx (chunkSize b.size)) := by
      rw [Block.length, if_pos hs]
      exact (hs.classSize_eq S.pageSize_le).1
    obtain ⟨hge, hlt⟩ := hx
    exact Or.inl ⟨b.ptr, mem_blockChunks.mpr ⟨b, hb, hs, rfl⟩, _, hv.classes b (hl hb) hs, hge,
      hlen ▸ hlt⟩
  · obtain ⟨i, hcov, hin⟩ := hv.page_of_mem S (hl hb) hs hx
    exact Or.inr ⟨blockGroup L b, List.mem_append_left _ (mem_blockGroups.mpr ⟨b, hb, hs, rfl⟩), i,
      hcov, hin⟩

/-- The bytes of a live block are not used by the allocator. -/
theorem Serves.bytes_subset (hv : Serves L r a₀ H blocks leaked) (S : Site L r a₀)
    (hb : b ∈ blocks) {x : ℕ} (hx : x ∈ b.bytes L.pageSize) : x ∈ H.userBytes L blocks leaked :=
  hv.bytes_subset_of_mem S (List.Subset.refl blocks) hb hx

/-! ### Runs of the code -/

/-- The states that calls lead to from the state `s₀`, with the blocks that are live; between the
calls the users write to their blocks. -/
inductive Run (s₀ : State) : State → List Block → Prop
  | start : Run s₀ s₀ []
  | allocate {s s' : State} {blocks : List Block} {size ptr : ℕ} :
    Run s₀ s blocks → Liballocator.allocate size s = .ok (ptr, s') →
    Run s₀ s' (if ptr = 0 then blocks else ⟨ptr, size⟩ :: blocks)
  | release {s s' : State} {blocks : List Block} {b : Block} :
    Run s₀ s blocks → b ∈ blocks → Liballocator.release b.ptr s = .ok (⟨⟩, s') →
    Run s₀ s' (blocks.erase b)
  | write {s : State} {blocks : List Block} {m : Mem} :
    Run s₀ s blocks → (∀ x, (∀ b ∈ blocks, x ∉ b.bytes s.self.pageSize) → m x = s.mem x) →
    Run s₀ { s with pages := { s.pages with mem := m } } blocks

/-- The state `s` represents a heap that serves users with the given blocks; when every page is
found by its address, nothing else is held. -/
def Running (L : Layout) (r : Group) (a₀ : Pages) (s : State) (blocks : List Block) : Prop :=
  ∃ H leaked, HeapRep L H s ∧ Serves L r a₀ H blocks leaked ∧
    ((∀ i < L.count, L.findPage (L.addr i) = some i) → leaked = [])

/-- The users do not write to words of the heap. -/
theorem HeapRep.write {leaked : List Group} (h : HeapRep L H s)
    (hv : Serves L r a₀ H blocks leaked) (S : Site L r a₀) {m : Mem}
    (hm : ∀ x, (∀ b ∈ blocks, x ∉ b.bytes s.self.pageSize) → m x = s.mem x) :
    HeapRep L H { s with pages := { s.pages with mem := m } } := by
  refine h.congr fun x hx => hm x fun b hb hxb => ?_
  rw [h.pageSize] at hxb
  exact hv.wf.foreign_words S.toArena (List.Subset.refl _) (hv.bytes_subset S hb hxb) hx

/-- Every run of the code is a run on heaps. -/
theorem Run.simulation (h : Run s₀ s blocks) (S : Site L r a₀) (h₀ : Running L r a₀ s₀ []) :
    Running L r a₀ s blocks := by
  induction h with
  | start => exact h₀
  | @allocate s s' blocks size ptr _ hcall ih =>
    obtain ⟨H, leaked, hr, hv, hleak⟩ := ih
    obtain ⟨rfl, hr', -⟩ := (hr.allocate hv S.toArena size).of_run_eq hcall
    refine ⟨_, leaked, hr', ?_, hleak⟩
    rcases hv.allocate S.toArena size with ⟨h0, hv', -⟩ | ⟨hne, hv'⟩
    · rwa [if_pos h0]
    · rwa [if_neg hne]
  | @release s s' blocks b _ hb hcall ih =>
    obtain ⟨H, leaked, hr, hv, hleak⟩ := ih
    obtain ⟨hr', -⟩ := (hr.release hv S.toArena S.placed hb).of_run_eq hcall
    obtain ⟨leaked', hv', hleak'⟩ := hv.release S.toArena hb
    exact ⟨_, leaked', hr', hv', fun hall => (hleak' hall).trans (hleak hall)⟩
  | @write s blocks m _ hm ih =>
    obtain ⟨H, leaked, hr, hv, hleak⟩ := ih
    exact ⟨H, leaked, hr.write hv S hm, hv, hleak⟩

/-- A run goes on with an allocation that succeeds. -/
theorem Run.exists_allocate (h : Run s₀ s blocks) (hr : HeapRep L H s)
    (hv : Serves L r a₀ H blocks leaked) (A : Arena L r) (hne : (H.allocate L size).1 ≠ 0) :
    ∃ s', Run s₀ s' (⟨(H.allocate L size).1, size⟩ :: blocks) ∧
      HeapRep L (H.allocate L size).2 s' ∧
      Serves L r a₀ (H.allocate L size).2 (⟨(H.allocate L size).1, size⟩ :: blocks) leaked := by
  obtain ⟨ptr, s', hcall, rfl, hr', -⟩ := hr.allocate hv A size
  have h' := h.allocate hcall
  rw [if_neg hne] at h'
  exact ⟨s', h', hr', ((hv.allocate A size).resolve_left fun h => hne h.1).2⟩

/-- In every reachable state `allocate` returns. -/
theorem Run.allocate_returns (h : Run s₀ s blocks) (S : Site L r a₀) (h₀ : Running L r a₀ s₀ [])
    (size : ℕ) : ∃ ptr s', Liballocator.allocate size s = .ok (ptr, s') := by
  obtain ⟨H, leaked, hr, hv, -⟩ := h.simulation S h₀
  obtain ⟨ptr, s', hcall, -⟩ := hr.allocate hv S.toArena size
  exact ⟨ptr, s', hcall⟩

/-- In every reachable state the release of a live block returns. -/
theorem Run.release_returns (h : Run s₀ s blocks) (S : Site L r a₀) (h₀ : Running L r a₀ s₀ [])
    (hb : b ∈ blocks) : ∃ s', Liballocator.release b.ptr s = .ok (⟨⟩, s') := by
  obtain ⟨H, leaked, hr, hv, -⟩ := h.simulation S h₀
  obtain ⟨_, s', hcall, -⟩ := hr.release hv S.toArena S.placed hb
  exact ⟨s', hcall⟩

/-! ### Runs after `init` -/

namespace GoodArguments

variable {regions : List Region} {ps : ℕ} {s₁ : State} (hg : GoodArguments regions ps)

include hg

theorem usable_of_init (hinit : init regions ps s₀ = .ok (true, s₁)) : Usable regions ps := by
  have h : ValidPageSize ps ∧ regions.length ≤ maxRegionsCount ∧ accepted ps regions ≠ [] := by
    by_contra h
    exact absurd ((init_refuses hg.word hg.valid h).of_run_eq hinit) (by simp)
  exact .of_nonZero h.1 hg.valid hg.nonZero h.2.1 h.2.2 hg.table

theorem fitting_of_init (hinit : init regions ps s₀ = .ok (true, s₁)) : Fitting regions ps :=
  (hg.usable_of_init hinit).toFitting

/-- After a successful `init` there is one zone, in a page that the page allocator has given. -/
theorem initial_of_init (hps : ps ≤ 4096) (hinit : init regions ps s₀ = .ok (true, s₁)) :
    ∃ g a, (Pages.initial (accepted ps regions) ps).allocate 1 = (some g, a) ∧
      HeapRep (layout (hg.fitting_of_init hinit))
        (Heap.initial (layout (hg.fitting_of_init hinit)) a g.first) s₁ := by
  have h := (init_spec (hg.usable_of_init hinit) hg.few hps).of_run_eq hinit
  rcases hal : (Pages.initial (accepted ps regions) ps).allocate 1 with ⟨_ | g, a⟩ <;> rw [hal] at h
  · exact absurd h.1 (by simp)
  · exact ⟨g, a, rfl, h.2⟩

/-- In every run after a successful `init` the state represents a heap. -/
theorem running (hps : ps ≤ 4096) (hinit : init regions ps s₀ = .ok (true, s₁))
    (hrun : Run s₁ s blocks) :
    Running (layout (hg.fitting_of_init hinit)) (reservedGroup (accepted ps regions) ps)
      (Pages.initial (accepted ps regions) ps) s blocks := by
  have S := (hg.usable_of_init hinit).site hg.few hps
  obtain ⟨g, a, hal, hr⟩ := hg.initial_of_init hps hinit
  exact hrun.simulation S ⟨_, [], hr, S.serves_initial hal, fun _ => rfl⟩

end GoodArguments

end Runs

/-! ### A run -/

section Separate

attribute [local instance] lp64

/-- An allocator that has not been used yet, in a cleared memory. -/
def blankState : State := { self := ⟨false, 0, 0, 0, fun _ => {}⟩, pages := blankPages }

/-- The heap after `init` with two regions of two pages each. -/
def separateHeap : Heap := Heap.initial (layout separateRegions_fitting)
  ((Pages.initial (accepted 256 separateRegions) 256).allocate 1).2 2

/-- A block of eight bytes is allocated on two regions with a gap between them. -/
theorem exists_calls_separate (s₀ : State) : ∃ s₁ s ptr,
    init separateRegions 256 s₀ = .ok (true, s₁) ∧ Liballocator.allocate 8 s₁ = .ok (ptr, s) ∧
      ptr ≠ 0 := by
  obtain ⟨s₁, hinit, hr⟩ := separateRegions_usable.exists_init (by decide) (by decide)
    (show _ = some ⟨2, 1⟩ by decide) s₀
  have S := separateRegions_usable.site (by decide) (by decide)
  have hv := S.serves_initial (g := ⟨2, 1⟩) (Prod.ext (by decide) rfl)
  obtain ⟨ptr, s, hcall, hptr, -⟩ := hr.allocate hv S.toArena 8
  exact ⟨s₁, s, ptr, hinit, hcall, hptr ▸ show (separateHeap.allocate _ 8).1 ≠ 0 by decide⟩

/-- A run on the two regions, with the size of its block. -/
theorem exists_run_separate_eight : ∃ s₁ s ptr,
    init separateRegions 256 blankState = .ok (true, s₁) ∧ Run s₁ s [⟨ptr, 8⟩] := by
  obtain ⟨s₁, s, ptr, hinit, hcall, hne⟩ := exists_calls_separate blankState
  have hrun := Run.start.allocate hcall
  rw [if_neg hne] at hrun
  exact ⟨s₁, s, ptr, hinit, hrun⟩

/-- A run on the two regions. -/
theorem exists_run_separate : ∃ s₁ s b, init separateRegions 256 blankState = .ok (true, s₁) ∧
    Run s₁ s [b] := by
  obtain ⟨s₁, s, ptr, hinit, hrun⟩ := exists_run_separate_eight
  exact ⟨s₁, s, ⟨ptr, 8⟩, hinit, hrun⟩

end Separate

end Liballocator
