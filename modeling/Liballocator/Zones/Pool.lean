import Liballocator.Zone
import Liballocator.Pages.Table

/-!
# A zone as a pool of chunks

`PoolRep m d page size count free` says what the words of the descriptor at `d` mean: the zone has
the page, the chunk size and the number of chunks that are stored there, and its free chunks are
`free`.  Every member function of `Zone` gets a rule in terms of `PoolRep`, with the words that it
may write; the rules only need that the chunks do not overlap each other and the descriptor.

`PoolRun` are the runs of a zone after `init`: chunks are taken as long as there are free ones, and
taken ones are given back in any order.
-/

namespace Liballocator

open Program LinkedList

section Rules

variable [Platform]

/-- No word of the descriptor `d` is a link of the node `x`. -/
def FieldsApart (d x : ℕ) : Prop := ∀ k < 7, ∀ j < 2, d + k * wordBytes ≠ x + j * wordBytes

/-- A field of a descriptor is no link of a chunk. -/
theorem FieldsApart.notMem {d k : ℕ} {S : Set ℕ} (h : ∀ x ∈ S, FieldsApart d x) (hk : k < 7) :
    d + k * wordBytes ∉ linkWords S := by
  rintro ⟨x, hx, he | he⟩
  · exact h x hx k hk 0 (by omega) (by rw [he, Nat.zero_mul, Nat.add_zero])
  · exact h x hx k hk 1 (by omega) (by rw [he, Nat.one_mul])

/-- What leaves the links of one node alone keeps those of the other nodes. -/
theorem links_of_frame {S : Set ℕ} {m m₁ : Mem} {c : ℕ} (hS : NodesApart S) (hc : c ∈ S)
    (hfr : ∀ a ∉ linkWords {c}, m₁ a = m a) {x : ℕ} (hx : x ∈ S) (hne : x ≠ c) :
    m₁ x = m x ∧ m₁ (x + wordBytes) = m (x + wordBytes) := by
  have h₁ := hS x hx c hc
  have h₂ := hS c hc x hx
  refine ⟨hfr x ?_, hfr _ ?_⟩
  · rintro ⟨_, rfl, he | he⟩ <;> omega
  · rintro ⟨_, rfl, he | he⟩ <;> omega

/-! ### The representation -/

/-- The words of the descriptor at `d`: the zone has `count` chunks of the given size, and those of
`free` are free. -/
structure PoolRep (m : Mem) (d page size count : ℕ) (free : List ℕ) : Prop where
  page : m (d + 2 * wordBytes) = page
  chunkSize : m (d + 3 * wordBytes) = size
  chunksCount : m (d + 4 * wordBytes) = count
  freeChunksCount : m (d + 5 * wordBytes) = free.length
  freeChunks : IsList (links m) (m (d + 6 * wordBytes)) free

variable {m m' : Mem} {d c page addr pageSize size count : ℕ} {free : List ℕ}

/-- The description depends on the fields of the descriptor and on the links of the free chunks. -/
theorem PoolRep.congr (h : PoolRep m d page size count free)
    (hd : ∀ k, 2 ≤ k → k < 7 → m' (d + k * wordBytes) = m (d + k * wordBytes))
    (hf : ∀ x ∈ free, m' x = m x ∧ m' (x + wordBytes) = m (x + wordBytes)) :
    PoolRep m' d page size count free := by
  refine ⟨(hd 2 (by omega) (by omega)).trans h.page, (hd 3 (by omega) (by omega)).trans h.chunkSize,
    (hd 4 (by omega) (by omega)).trans h.chunksCount,
    (hd 5 (by omega) (by omega)).trans h.freeChunksCount, ?_⟩
  rw [hd 6 (by omega) (by omega)]
  exact h.freeChunks.congr (fun x hx => (hf x hx).1) fun x hx => (hf x hx).2

namespace Zone

section Fields

variable {zone : ℕ} {Q : ℕ → Mem → Prop}

/-- The rule for the field `m_page`. -/
@[simp] theorem wp_page : wp (Zone.page zone) Q m ↔ zone ≠ 0 ∧ Q (m (zone + 2 * wordBytes)) m := by
  simp [Zone.page]

/-- The rule for the field `m_chunkSize`. -/
@[simp] theorem wp_chunkSize :
    wp (chunkSize zone) Q m ↔ zone ≠ 0 ∧ Q (m (zone + 3 * wordBytes)) m := by
  simp [chunkSize]

/-- The rule for the field `m_chunksCount`. -/
@[simp] theorem wp_chunksCount :
    wp (chunksCount zone) Q m ↔ zone ≠ 0 ∧ Q (m (zone + 4 * wordBytes)) m := by
  simp [chunksCount]

/-- The rule for the field `m_freeChunksCount`. -/
@[simp] theorem wp_freeChunksCount :
    wp (freeChunksCount zone) Q m ↔ zone ≠ 0 ∧ Q (m (zone + 5 * wordBytes)) m := by
  simp [freeChunksCount]

/-- The rule for the field `m_freeChunks`. -/
@[simp] theorem wp_freeChunks :
    wp (freeChunks zone) Q m ↔ zone ≠ 0 ∧ Q (m (zone + 6 * wordBytes)) m := by
  simp [freeChunks]

end Fields

/-- The words that an operation on the free list of the zone at `d` may write: the links of the
chunks `l` and the last two fields. -/
def freeWords (d : ℕ) (l : List ℕ) : Set ℕ :=
  {a | a ∈ linkWords {x | x ∈ l} ∨ a = d + 5 * wordBytes ∨ a = d + 6 * wordBytes}

end Zone

/-! ### Taking and giving a chunk -/

namespace PoolRep

open Zone (freeWords)

/-- Writing the last two fields of a descriptor after its free list has changed to `l`. -/
theorem setFreeList {m₁ : Mem} {head n : ℕ} {l S : List ℕ} (h : PoolRep m d page size count free)
    (hframe : ∀ a ∉ linkWords {x | x ∈ S}, m₁ a = m a) (hsep : ∀ x ∈ S, FieldsApart d x)
    (hsub : ∀ x ∈ l, x ∈ S) (hl : IsList (links m₁) head l) (hn : n = l.length) :
    PoolRep (Function.update (Function.update m₁ (d + 6 * wordBytes) head)
      (d + 5 * wordBytes) n) d page size count l ∧
    ∀ a ∉ freeWords d S, Function.update (Function.update m₁ (d + 6 * wordBytes) head)
      (d + 5 * wordBytes) n a = m a := by
  have hw := wordBytes_pos
  have hfields : ∀ k < 7, m₁ (d + k * wordBytes) = m (d + k * wordBytes) := fun k hk =>
    hframe _ (FieldsApart.notMem hsep hk)
  have hold : ∀ x ∈ S, ∀ j < 2, Function.update (Function.update m₁ (d + 6 * wordBytes) head)
      (d + 5 * wordBytes) n (x + j * wordBytes) = m₁ (x + j * wordBytes) := by
    intro x hx j hj
    rw [Function.update_of_ne (hsep x hx 5 (by omega) j hj).symm,
      Function.update_of_ne (hsep x hx 6 (by omega) j hj).symm]
  have hhead : Function.update (Function.update m₁ (d + 6 * wordBytes) head)
      (d + 5 * wordBytes) n (d + 6 * wordBytes) = head := by
    rw [Function.update_of_ne (by omega), Function.update_self]
  refine ⟨⟨?_, ?_, ?_, ?_, ?_⟩, fun a ha => ?_⟩
  · rw [Function.update_of_ne (by omega), Function.update_of_ne (by omega), hfields 2 (by omega)]
    exact h.page
  · rw [Function.update_of_ne (by omega), Function.update_of_ne (by omega), hfields 3 (by omega)]
    exact h.chunkSize
  · rw [Function.update_of_ne (by omega), Function.update_of_ne (by omega), hfields 4 (by omega)]
    exact h.chunksCount
  · rw [Function.update_self]
    exact hn
  · rw [hhead]
    refine hl.congr (fun x hx => ?_) fun x hx => ?_
    · simpa using hold x (hsub x hx) 0 (by omega)
    · simpa using hold x (hsub x hx) 1 (by omega)
  · simp only [freeWords, Set.mem_ofPred_eq, not_or] at ha
    obtain ⟨ha, ha₅, ha₆⟩ := ha
    rw [Function.update_of_ne ha₅, Function.update_of_ne ha₆]
    exact hframe a ha

/-- `takeChunk` takes the first free chunk. -/
theorem takeChunk {cs : List ℕ} (h : PoolRep m d page size count (c :: cs)) (hd : d ≠ 0)
    (hap : NodesApart {x | x ∈ c :: cs}) (hsep : ∀ x ∈ c :: cs, FieldsApart d x)
    (hlt : cs.length + 1 < 2 ^ width) :
    wp (Zone.takeChunk d) (fun r m' => r = c ∧ PoolRep m' d page size count cs ∧
      ∀ a ∉ freeWords d (c :: cs), m' a = m a) m := by
  have hlist := h.freeChunks
  have hcount := h.freeChunksCount
  rw [List.length_cons] at hcount
  have hhead : m (d + 6 * wordBytes) = c := hlist.head_eq
  simp only [Zone.takeChunk, wp_bind, Zone.wp_freeChunksCount, Zone.wp_freeChunks, wp_assert,
    wp_store, wp_pure]
  refine ⟨hd, by omega, hd, ?_⟩
  rw [hhead] at hlist ⊢
  apply (ListNode.removeFromList_isList (show IsList _ c ([] ++ c :: cs) from hlist) hap).mono
  rintro head m₁ ⟨hl₁, -, -, hframe⟩
  have hfive : Function.update m₁ (d + 6 * wordBytes) head (d + 5 * wordBytes) = cs.length + 1 := by
    have hw := wordBytes_pos
    rw [Function.update_of_ne (by omega), hframe _ (FieldsApart.notMem hsep (by omega)), hcount]
  obtain ⟨hrep, hfr⟩ := h.setFreeList hframe hsep (fun x hx => List.mem_cons_of_mem c hx) hl₁
    (n := Word.sub (cs.length + 1) 1) (by rw [Word.sub_eq (by omega) hlt, Nat.add_sub_cancel])
  refine ⟨hd, hd, hd, rfl, ?_⟩
  rw [hfive]
  exact ⟨hrep, hfr⟩

/-- `giveChunk` puts an unlinked chunk in front of the free list. -/
theorem giveChunk (h : PoolRep m d page size count free) (hd : d ≠ 0) (hc : c ≠ 0)
    (hnot : c ∉ free) (hap : NodesApart {x | x ∈ c :: free})
    (hsep : ∀ x ∈ c :: free, FieldsApart d x) (hlt : free.length + 1 < 2 ^ width)
    (hnext : m c = 0) (hprev : m (c + wordBytes) = 0) :
    wp (Zone.giveChunk d c) (fun _ m' => PoolRep m' d page size count (c :: free) ∧
      ∀ a ∉ freeWords d (c :: free), m' a = m a) m := by
  simp only [Zone.giveChunk, wp_bind, Zone.wp_freeChunksCount, Zone.wp_freeChunks, wp_assert,
    wp_store]
  refine ⟨hc, hd, (ListNode.addToList_isList h.freeChunks hap hc hnot hnext hprev).mono ?_⟩
  rintro head m₁ ⟨hhead, hl₁, hframe⟩
  subst head
  have hfive : Function.update m₁ (d + 6 * wordBytes) c (d + 5 * wordBytes) = free.length := by
    have hw := wordBytes_pos
    rw [Function.update_of_ne (by omega), hframe _ (FieldsApart.notMem hsep (by omega)),
      h.freeChunksCount]
  refine ⟨hd, hd, hd, ?_⟩
  rw [hfive]
  exact h.setFreeList hframe hsep (fun x hx => hx) hl₁
    (by rw [Word.add_eq hlt, List.length_cons])

end PoolRep

/-! ### Setting up a zone -/

/-- `clear` sets every word of a descriptor to null. -/
theorem Zone.clear_spec (hd : d ≠ 0) :
    wp (Zone.clear d) (fun _ m' => (∀ k < 7, m' (d + k * wordBytes) = 0) ∧
      ∀ a, (∀ k < 7, a ≠ d + k * wordBytes) → m' a = m a) m := by
  have hw := wordBytes_pos
  simp only [Zone.clear, wp_bind, wp_store]
  apply (ListNode.initListNode_spec hd).mono
  rintro _ m₁ ⟨hnext, hprev, hframe⟩
  refine ⟨hd, hd, hd, hd, hd, fun k hk => ?_, fun a ha => ?_⟩
  · simp only [Function.update_apply, Nat.add_left_cancel_iff, Nat.mul_left_inj hw.ne']
    split_ifs
    · rfl
    · rfl
    · rfl
    · rfl
    · rfl
    · obtain rfl | rfl : k = 0 ∨ k = 1 := by omega
      · simpa using hnext
      · simpa using hprev
  · rw [Function.update_of_ne (ha 6 (by omega)), Function.update_of_ne (ha 5 (by omega)),
      Function.update_of_ne (ha 4 (by omega)), Function.update_of_ne (ha 3 (by omega)),
      Function.update_of_ne (ha 2 (by omega))]
    apply hframe a
    rintro ⟨x, rfl, rfl | rfl⟩
    · exact ha 0 (by omega) (by omega)
    · exact ha 1 (by omega) (by omega)

namespace Zone

/-- The last step of the loop may leave the address space, but its result is not used. -/
private theorem initChunks_movePtr {size n : ℕ} (hlt : c + size + n * size ≤ 2 ^ width)
    (hsize : 0 < size) :
    initChunks d size n (movePtr c size) = initChunks d size n (c + size) := by
  cases n with
  | zero => rfl
  | succ n =>
    rw [Nat.succ_mul] at hlt
    rw [movePtr, Word.add_eq (by omega)]

/-- The loop of `init` puts the chunks in front of the free list, one after the other. -/
theorem initChunks_spec {size n : ℕ} {l : List ℕ} (hd : d ≠ 0) (hsize : 0 < size)
    (hl : IsList (links m) (m (d + 6 * wordBytes)) l) (hc : 0 < c)
    (hbelow : ∀ x ∈ l, x < c) (hap : NodesApart {x | x ∈ chunksFrom size n c ++ l})
    (hsep : ∀ x ∈ chunksFrom size n c ++ l, FieldsApart d x) (hlt : c + n * size ≤ 2 ^ width) :
    wp (initChunks d size n c) (fun _ m' =>
      IsList (links m') (m' (d + 6 * wordBytes)) ((chunksFrom size n c).reverse ++ l) ∧
      ∀ a ∉ linkWords {x | x ∈ chunksFrom size n c ++ l}, a ≠ d + 6 * wordBytes →
        m' a = m a) m := by
  induction n generalizing m c l with
  | zero =>
    simp only [initChunks, wp_pure]
    exact ⟨hl, fun _ _ _ => trivial⟩
  | succ n ih =>
    rw [chunksFrom_succ] at hap hsep ⊢
    have hmem : ∀ x, x ∈ chunksFrom size n (c + size) ++ c :: l ↔
        x ∈ c :: chunksFrom size n (c + size) ++ l := by
      intro x
      simp only [List.mem_append, List.mem_cons]
      tauto
    have hnot : c ∉ l := fun h => absurd (hbelow c h) (Nat.lt_irrefl c)
    have hcsep : FieldsApart d c := hsep c (by simp)
    have hap' : NodesApart {x | x ∈ c :: l} := fun a ha b hb =>
      hap a ((hmem a).mp (List.mem_append_right _ ha)) b ((hmem b).mp (List.mem_append_right _ hb))
    have hsub : ∀ {a}, a ∈ linkWords {x | x ∈ c :: l} →
        a ∈ linkWords {x | x ∈ c :: chunksFrom size n (c + size) ++ l} := by
      rintro a ⟨x, hx, ha⟩
      exact ⟨x, (hmem x).mp (List.mem_append_right _ hx), ha⟩
    rw [Nat.succ_mul] at hlt
    simp only [initChunks, wp_bind, wp_freeChunks, wp_store]
    -- the node is initialised before its links are read
    apply (ListNode.initListNode_spec (by omega)).mono
    rintro _ m₁ ⟨hnext, hprev, hfr₁⟩
    have hkeep₁ : ∀ x ∈ l, m₁ x = m x ∧ m₁ (x + wordBytes) = m (x + wordBytes) := fun x hx =>
      links_of_frame (S := {x | x ∈ c :: l}) hap' List.mem_cons_self hfr₁
        (List.mem_cons_of_mem c hx) fun e => hnot (e ▸ hx)
    have hhead₁ : m₁ (d + 6 * wordBytes) = m (d + 6 * wordBytes) := by
      refine hfr₁ _ (FieldsApart.notMem ?_ (by omega))
      rintro _ rfl
      exact hcsep
    rw [hhead₁]
    refine ⟨hd, (ListNode.addToList_isList (hl.congr (fun x hx => (hkeep₁ x hx).1)
      fun x hx => (hkeep₁ x hx).2) hap' (by omega) hnot hnext hprev).mono ?_⟩
    rintro head m₂ ⟨hhead, hl₂, hfr₂⟩
    subst head
    have hkeep₂ : ∀ x ∈ c :: l, ∀ j < 2, Function.update m₂ (d + 6 * wordBytes) c
        (x + j * wordBytes) = m₂ (x + j * wordBytes) := fun x hx j hj =>
      Function.update_of_ne (hsep x ((hmem x).mp (List.mem_append_right _ hx)) 6 (by omega) j
        hj).symm _ _
    rw [initChunks_movePtr (by omega) hsize]
    refine ⟨hd, (ih (l := c :: l) ?_ (by omega) ?_ (fun a ha b hb => hap a ((hmem a).mp ha) b
      ((hmem b).mp hb)) (fun x hx => hsep x ((hmem x).mp hx)) (by omega)).mono ?_⟩
    · rw [Function.update_self]
      refine hl₂.congr (fun x hx => ?_) fun x hx => ?_
      · simpa using hkeep₂ x hx 0 (by omega)
      · simpa using hkeep₂ x hx 1 (by omega)
    · intro x hx
      rcases List.mem_cons.mp hx with rfl | hx
      · omega
      · exact (hbelow x hx).trans (by omega)
    · rintro _ m₃ ⟨hl₃, hfr₃⟩
      refine ⟨by simpa using hl₃, fun a ha ha₆ => ?_⟩
      have ha' : a ∉ linkWords {x | x ∈ chunksFrom size n (c + size) ++ c :: l} := by
        rintro ⟨x, hx, h⟩
        exact ha ⟨x, (hmem x).mp hx, h⟩
      rw [hfr₃ a ha' ha₆, Function.update_of_ne ha₆, hfr₂ a fun h => ha (hsub h)]
      apply hfr₁ a
      rintro ⟨_, rfl, h⟩
      exact ha ⟨_, by simp, h⟩

/-- `init` sets up an unlinked zone whose chunks are all free. -/
theorem init_rep (hd : d ≠ 0) (hpage0 : page ≠ 0) (hsize : 0 < size) (hps : 0 < pageSize)
    (haddr0 : 0 < addr) (hlt : addr + pageSize / size * size ≤ 2 ^ width)
    (haddr : m (page + 2 * wordBytes) = addr)
    (hpage : ∀ k < 7, page + 2 * wordBytes ≠ d + k * wordBytes)
    (hap : NodesApart {x | x ∈ chunksFrom size (pageSize / size) addr})
    (hsep : ∀ x ∈ chunksFrom size (pageSize / size) addr, FieldsApart d x) :
    wp (init d page pageSize size) (fun _ m' =>
      PoolRep m' d page size (pageSize / size) (chunksFrom size (pageSize / size) addr).reverse ∧
      m' d = 0 ∧ m' (d + wordBytes) = 0 ∧
      ∀ a, (∀ k < 7, a ≠ d + k * wordBytes) →
        a ∉ linkWords {x | x ∈ chunksFrom size (pageSize / size) addr} → m' a = m a) m := by
  have hw := wordBytes_pos
  simp only [init, wp_bind, wp_assert, wp_store, Page.wp_address]
  refine ⟨hpage0, hps.ne', hsize.ne', (clear_spec hd).mono ?_⟩
  rintro _ m₁ ⟨hzero, hfr₁⟩
  refine ⟨hd, hd, hd, hd, hpage0, ?_⟩
  -- the memory after the four fields have been written
  generalize hm₂ : Function.update (Function.update (Function.update (Function.update m₁
    (d + 2 * wordBytes) page) (d + 3 * wordBytes) size) (d + 4 * wordBytes)
    (pageSize / size)) (d + 5 * wordBytes) (pageSize / size) = m₂
  have hfr₂ : ∀ a, (∀ k < 7, a ≠ d + k * wordBytes) → m₂ a = m a := by
    intro a ha
    rw [← hm₂, Function.update_of_ne (ha 5 (by omega)), Function.update_of_ne (ha 4 (by omega)),
      Function.update_of_ne (ha 3 (by omega)), Function.update_of_ne (ha 2 (by omega))]
    exact hfr₁ a ha
  have hval : ∀ k < 7, m₂ (d + k * wordBytes) = if k = 5 then pageSize / size
      else if k = 4 then pageSize / size else if k = 3 then size
      else if k = 2 then page else 0 := by
    intro k hk
    have h₀ := hzero k hk
    rw [← hm₂]
    simp only [Function.update_apply, Nat.add_left_cancel_iff, Nat.mul_left_inj hw.ne', h₀]
  rw [hfr₂ _ hpage, haddr]
  have hsix : m₂ (d + 6 * wordBytes) = 0 := hval 6 (by omega)
  refine (initChunks_spec (l := []) hd hsize ?_ haddr0 (fun x hx => absurd hx List.not_mem_nil)
    (by rwa [List.append_nil]) (by rwa [List.append_nil]) hlt).mono ?_
  · rw [hsix]
    exact isList_nil_iff.mpr rfl
  · rintro _ m₃ ⟨hl₃, hfr₃⟩
    rw [List.append_nil] at hl₃ hfr₃
    have hfield : ∀ k < 6, m₃ (d + k * wordBytes) = m₂ (d + k * wordBytes) := fun k hk =>
      hfr₃ _ (FieldsApart.notMem hsep (by omega)) (by
        rw [Ne, Nat.add_left_cancel_iff, Nat.mul_left_inj hw.ne']
        omega)
    refine ⟨⟨?_, ?_, ?_, ?_, hl₃⟩, ?_, ?_, fun a ha hna => ?_⟩
    · rw [hfield 2 (by omega), hval 2 (by omega)]
      rfl
    · rw [hfield 3 (by omega), hval 3 (by omega)]
      rfl
    · rw [hfield 4 (by omega), hval 4 (by omega)]
      rfl
    · rw [hfield 5 (by omega), hval 5 (by omega), List.length_reverse, length_chunksFrom]
      rfl
    · have h₀ := (hfield 0 (by omega)).trans (hval 0 (by omega))
      simpa using h₀
    · have h₁ := (hfield 1 (by omega)).trans (hval 1 (by omega))
      simpa using h₁
    · rw [hfr₃ a hna (ha 6 (by omega)), hfr₂ a ha]

/-! ### Recognising a chunk -/

/-- The loop of `isValidChunk` compares with every chunk. -/
theorem isValidChunkFrom_iff {size n it : ℕ} (hsize : 0 < size) (hlt : it + n * size ≤ 2 ^ width) :
    isValidChunkFrom c size n it = true ↔ c ∈ chunksFrom size n it := by
  induction n generalizing it with
  | zero => simp [isValidChunkFrom, chunksFrom]
  | succ n ih =>
    rw [Nat.succ_mul] at hlt
    have hmove : isValidChunkFrom c size n (movePtr it size) =
        isValidChunkFrom c size n (it + size) := by
      cases n with
      | zero => rfl
      | succ n =>
        rw [Nat.succ_mul] at hlt
        rw [movePtr, Word.add_eq (by omega)]
    rw [isValidChunkFrom, chunksFrom_succ, Bool.or_eq_true, decide_eq_true_eq, hmove,
      ih (by omega), List.mem_cons, eq_comm]

end Zone

/-- `isValidChunk` accepts the chunks of the zone. -/
theorem PoolRep.isValidChunk (h : PoolRep m d page size count free) (hd : d ≠ 0) (hpage : page ≠ 0)
    (hsize : 0 < size) (haddr : m (page + 2 * wordBytes) = addr)
    (hlt : addr + count * size ≤ 2 ^ width) :
    wp (Zone.isValidChunk d c) (fun b m' => m' = m ∧
      (b = true ↔ c ∈ chunksFrom size count addr)) m := by
  simp only [Zone.isValidChunk, wp_bind, Zone.wp_page, Zone.wp_chunkSize, Zone.wp_chunksCount,
    Page.wp_address, wp_pure]
  rw [h.page, h.chunkSize, h.chunksCount, haddr]
  exact ⟨hd, hpage, hd, hd, trivial, Zone.isValidChunkFrom_iff hsize hlt⟩

end Rules

/-! ### Runs of a pool -/

section Runs

variable [Platform] {d page addr pageSize size c : ℕ} {m m₀ m' : Mem} {taken free : List ℕ}

/-- The descriptor of the zone, the `Page` object and the memory of the page are separate objects,
and the memory holds at least one chunk and does not reach beyond the last address. -/
structure PoolPlace (d page addr pageSize size : ℕ) : Prop where
  zone_ne_zero : d ≠ 0
  page_ne_zero : page ≠ 0
  addr_ne_zero : addr ≠ 0
  addr_add_le : addr + pageSize ≤ 2 ^ width
  size_ge : sizeofListNode ≤ size
  size_le : size ≤ pageSize
  zone_apart : d + sizeofZone ≤ addr ∨ addr + pageSize ≤ d
  page_apart : page + sizeofPage ≤ addr ∨ addr + pageSize ≤ page
  objects_apart : d + sizeofZone ≤ page ∨ page + sizeofPage ≤ d

/-- The memories that calls on the zone lead to after `init`, with the chunks that are taken;
between the calls the users write to their chunks. -/
inductive PoolRun (d page pageSize size : ℕ) (m₀ : Mem) : Mem → List ℕ → Prop
  | init {m : Mem} : Zone.init d page pageSize size m₀ = .ok (⟨⟩, m) →
    PoolRun d page pageSize size m₀ m []
  | take {m m' : Mem} {taken : List ℕ} {n c : ℕ} : PoolRun d page pageSize size m₀ m taken →
    Zone.freeChunksCount d m = .ok (n, m) → 0 < n → Zone.takeChunk d m = .ok (c, m') →
    PoolRun d page pageSize size m₀ m' (c :: taken)
  | give {m m' : Mem} {taken : List ℕ} {c : ℕ} : PoolRun d page pageSize size m₀ m taken →
    c ∈ taken → m c = 0 → m (c + wordBytes) = 0 → Zone.giveChunk d c m = .ok (⟨⟩, m') →
    PoolRun d page pageSize size m₀ m' (taken.erase c)
  | write {m m' : Mem} {taken : List ℕ} : PoolRun d page pageSize size m₀ m taken →
    (∀ a, (∀ c ∈ taken, ¬(c ≤ a ∧ a < c + size)) → m' a = m a) →
    PoolRun d page pageSize size m₀ m' taken

/-- The zone at `d` is a pool of the chunks of its page, of which those in `free` are free and those
in `taken` are not. -/
structure PoolExact (d addr pageSize size : ℕ) (m : Mem) (free taken : List ℕ) : Prop where
  /-- The free list links the free chunks. -/
  freeList : WellFormed (links m) (m (d + 6 * wordBytes)) free
  free_nodup : free.Nodup
  free_chunk : ∀ c ∈ free, ∃ i < pageSize / size, c = addr + i * size
  chunksCount : Zone.chunksCount d m = .ok (pageSize / size, m)
  freeChunksCount : Zone.freeChunksCount d m = .ok (free.length, m)
  /-- Free and taken chunks are all chunks, each of them once. -/
  partition : (free ++ taken).Perm ((List.range (pageSize / size)).map fun i => addr + i * size)
  nodup : (free ++ taken).Nodup
  isValid : ∀ c, ∃ b, Zone.isValidChunk d c m = .ok (b, m) ∧
    (b = true ↔ ∃ i < pageSize / size, c = addr + i * size)
  taken_valid : ∀ c ∈ taken, Zone.isValidChunk d c m = .ok (true, m)
  /-- No call of a run fails. -/
  take_returns : free ≠ [] → ∃ c m', Zone.takeChunk d m = .ok (c, m')
  give_returns : ∀ c ∈ taken, m c = 0 → m (c + wordBytes) = 0 →
    ∃ m', Zone.giveChunk d c m = .ok (⟨⟩, m')

namespace PoolPlace

variable (h : PoolPlace d page addr pageSize size)
include h

/-- Chunks are not empty. -/
theorem size_pos : 0 < size := by
  have hw := wordBytes_pos
  have hsize : sizeofListNode = 2 * wordBytes := rfl
  have := h.size_ge
  omega

/-- The links of a chunk are inside of it. -/
theorem link_lt {x j : ℕ} (hj : j < 2) : x + j * wordBytes < x + size := by
  have hw := wordBytes_pos
  have hsize : sizeofListNode = 2 * wordBytes := rfl
  have := h.size_ge
  obtain rfl | rfl : j = 0 ∨ j = 1 := by omega
  · omega
  · omega

/-- The links of different chunks do not overlap. -/
theorem nodesApart : NodesApart {x | x ∈ chunksFrom size (pageSize / size) addr} := by
  intro a ha b hb he
  have hlt := h.link_lt (x := a) (j := 1) (by omega)
  have hw := wordBytes_pos
  rw [Nat.one_mul] at hlt
  rcases chunksFrom_apart ha hb (by omega) with hle | hle <;> omega

/-- The descriptor lies outside of the chunks. -/
theorem fieldsApart (hc : c ∈ chunksFrom size (pageSize / size) addr) : FieldsApart d c := by
  intro k hk j hj he
  obtain ⟨hge, hle⟩ := chunksFrom_page hc
  have hlt := h.link_lt (x := c) hj
  have hk' : d + k * wordBytes < d + sizeofZone :=
    Nat.add_lt_add_left (Nat.mul_lt_mul_of_pos_right hk wordBytes_pos) d
  rcases h.zone_apart with hz | hz <;> omega

/-- The address in the `Page` object is neither in the descriptor nor in a chunk. -/
theorem address_apart {x : ℕ} (hx : d ≤ x ∧ x < d + sizeofZone ∨ addr ≤ x ∧ x < addr + pageSize) :
    page + 2 * wordBytes ≠ x := by
  have hw := wordBytes_pos
  have hsize : sizeofPage = 4 * wordBytes := rfl
  rintro rfl
  rcases hx with hx | hx
  · rcases h.objects_apart with ho | ho <;> omega
  · rcases h.page_apart with ho | ho <;> omega

/-- The address of the page is no field of the descriptor. -/
theorem address_ne_field {k : ℕ} (hk : k < 7) : page + 2 * wordBytes ≠ d + k * wordBytes :=
  h.address_apart (Or.inl ⟨Nat.le_add_right _ _,
    Nat.add_lt_add_left (Nat.mul_lt_mul_of_pos_right hk wordBytes_pos) d⟩)

/-- The address of the page is no link of a chunk. -/
theorem address_notMem_links {l : List ℕ}
    (hl : ∀ x ∈ l, x ∈ chunksFrom size (pageSize / size) addr) :
    page + 2 * wordBytes ∉ linkWords {x | x ∈ l} := by
  intro hmem
  obtain ⟨x, hx, j, hj, he⟩ : ∃ x ∈ l, ∃ j < 2, page + 2 * wordBytes = x + j * wordBytes := by
    obtain ⟨x, hx, he | he⟩ := hmem
    · exact ⟨x, hx, 0, by omega, by rw [he, Nat.zero_mul, Nat.add_zero]⟩
    · exact ⟨x, hx, 1, by omega, by rw [he, Nat.one_mul]⟩
  obtain ⟨hge, hle⟩ := chunksFrom_page (hl x hx)
  have hlt := h.link_lt (x := x) hj
  exact h.address_apart (Or.inr ⟨by omega, by omega⟩) he

/-- The address of the page is not among the words of the free list. -/
theorem address_notMem_freeWords {l : List ℕ}
    (hl : ∀ x ∈ l, x ∈ chunksFrom size (pageSize / size) addr) :
    page + 2 * wordBytes ∉ Zone.freeWords d l := by
  rintro (hmem | he | he)
  · exact h.address_notMem_links hl hmem
  · exact h.address_ne_field (by omega) he
  · exact h.address_ne_field (by omega) he

/-- Less chunks than there are addresses. -/
theorem count_lt : pageSize / size < 2 ^ width := by
  have h₁ := h.addr_add_le
  have h₂ := Nat.pos_of_ne_zero h.addr_ne_zero
  have h₃ := Nat.div_le_self pageSize size
  omega

end PoolPlace

/-- What holds of the memory in every run. -/
structure PoolInv (d page addr pageSize size : ℕ) (m : Mem) (free taken : List ℕ) : Prop where
  rep : PoolRep m d page size (pageSize / size) free
  address : m (page + 2 * wordBytes) = addr
  perm : (free ++ taken).Perm (chunksFrom size (pageSize / size) addr)

namespace PoolInv

variable (h : PoolInv d page addr pageSize size m free taken)
  (hp : PoolPlace d page addr pageSize size)
include h

/-- The free chunks are chunks of the zone. -/
theorem free_sub : ∀ x ∈ free, x ∈ chunksFrom size (pageSize / size) addr := fun _ hx =>
  h.perm.mem_iff.mp (List.mem_append_left _ hx)

/-- The taken chunks are chunks of the zone. -/
theorem taken_sub : ∀ x ∈ taken, x ∈ chunksFrom size (pageSize / size) addr := fun _ hx =>
  h.perm.mem_iff.mp (List.mem_append_right _ hx)

include hp

/-- No chunk is free twice, or both free and taken. -/
theorem nodup : (free ++ taken).Nodup :=
  h.perm.nodup_iff.mpr (nodup_chunksFrom hp.size_pos _ _)

/-- A chunk is taken. -/
theorem take {cs : List ℕ} (hfree : free = c :: cs) :
    wp (Zone.takeChunk d) (fun r m' => r = c ∧
      PoolInv d page addr pageSize size m' cs (c :: taken)) m := by
  subst hfree
  have hsub := h.free_sub
  have hlen := h.perm.length_eq
  rw [length_chunksFrom, List.length_append, List.length_cons] at hlen
  have hcount := hp.count_lt
  refine (h.rep.takeChunk hp.zone_ne_zero (fun a ha b hb => hp.nodesApart a (hsub a ha) b
    (hsub b hb)) (fun x hx => hp.fieldsApart (hsub x hx)) (by omega)).mono ?_
  rintro _ m' ⟨rfl, hrep, hfr⟩
  refine ⟨rfl, hrep, ?_, List.perm_middle.trans h.perm⟩
  rw [hfr _ (hp.address_notMem_freeWords hsub)]
  exact h.address

/-- A chunk is given back. -/
theorem give (hc : c ∈ taken) (hnext : m c = 0) (hprev : m (c + wordBytes) = 0) :
    wp (Zone.giveChunk d c) (fun _ m' =>
      PoolInv d page addr pageSize size m' (c :: free) (taken.erase c)) m := by
  have hperm : (c :: free ++ taken.erase c).Perm (chunksFrom size (pageSize / size) addr) :=
    (List.perm_middle.symm.trans ((List.perm_cons_erase hc).symm.append_left free)).trans h.perm
  have hsub : ∀ x ∈ c :: free, x ∈ chunksFrom size (pageSize / size) addr := fun x hx =>
    hperm.mem_iff.mp (List.mem_append_left _ hx)
  have hnot : c ∉ free := fun hf => (List.nodup_append.mp (h.nodup hp)).2.2 c hf c hc rfl
  have hc0 : c ≠ 0 := by
    have hb := chunksFrom_page (h.taken_sub c hc)
    have := hp.addr_ne_zero
    omega
  have hlen := hperm.length_eq
  rw [length_chunksFrom, List.length_append, List.length_cons] at hlen
  have hcount := hp.count_lt
  refine (h.rep.giveChunk hp.zone_ne_zero hc0 hnot (fun a ha b hb => hp.nodesApart a (hsub a ha) b
    (hsub b hb)) (fun x hx => hp.fieldsApart (hsub x hx)) (by omega) hnext hprev).mono ?_
  rintro _ m' ⟨hrep, hfr⟩
  refine ⟨hrep, ?_, hperm⟩
  rw [hfr _ (hp.address_notMem_freeWords hsub)]
  exact h.address

/-- Writes to taken chunks change neither the descriptor nor the free chunks. -/
theorem write (hm : ∀ a, (∀ c ∈ taken, ¬(c ≤ a ∧ a < c + size)) → m' a = m a) :
    PoolInv d page addr pageSize size m' free taken := by
  have hout : ∀ a, (a < addr ∨ addr + pageSize ≤ a) → m' a = m a := fun a ha =>
    hm a fun c hc hin => by
      have hb := chunksFrom_page (h.taken_sub c hc)
      omega
  refine ⟨h.rep.congr (fun k _ hk => hout _ ?_) fun x hx => ?_, ?_, h.perm⟩
  · have hk' : d + k * wordBytes < d + sizeofZone :=
      Nat.add_lt_add_left (Nat.mul_lt_mul_of_pos_right hk wordBytes_pos) d
    have := hp.zone_apart
    omega
  · have key : ∀ j < 2, m' (x + j * wordBytes) = m (x + j * wordBytes) := by
      intro j hj
      apply hm _
      intro c hc hin
      have hlt := hp.link_lt (x := x) hj
      have hne : x ≠ c := (List.nodup_append.mp (h.nodup hp)).2.2 x hx c hc
      rcases chunksFrom_apart (h.free_sub x hx) (h.taken_sub c hc) hne with hle | hle <;> omega
    exact ⟨by simpa using key 0 (by omega), by simpa using key 1 (by omega)⟩
  · refine (hout _ ?_).trans h.address
    have hne : ∀ x, addr ≤ x ∧ x < addr + pageSize → page + 2 * wordBytes ≠ x := fun x hx =>
      hp.address_apart (Or.inr hx)
    by_contra hc
    exact hne _ (by omega) rfl

/-- The invariant says that the zone is a pool. -/
theorem exact : PoolExact d addr pageSize size m free taken := by
  have hmem : ∀ c, c ∈ chunksFrom size (pageSize / size) addr ↔
      ∃ i < pageSize / size, c = addr + i * size := fun c => mem_chunksFrom
  have hvalid : ∀ c, ∃ b, Zone.isValidChunk d c m = .ok (b, m) ∧
      (b = true ↔ c ∈ chunksFrom size (pageSize / size) addr) := by
    intro c
    have hle := Nat.div_mul_le_self pageSize size
    have hadd := hp.addr_add_le
    obtain ⟨b, _, hrun, rfl, hb⟩ := h.rep.isValidChunk (c := c) hp.zone_ne_zero hp.page_ne_zero
      hp.size_pos h.address (by omega)
    exact ⟨b, hrun, hb⟩
  have hnd := h.nodup hp
  refine ⟨isList_iff_wellFormed.mp h.rep.freeChunks, hnd.of_append_left,
    fun c hc => (hmem c).mp (h.free_sub c hc), ?_, ?_, h.perm, hnd, fun c => ?_, fun c hc => ?_,
    fun hne => ?_, fun c hc hnext hprev => ?_⟩
  · obtain ⟨n, _, hrun, rfl, rfl⟩ : wp (Zone.chunksCount d)
        (fun n m' => n = pageSize / size ∧ m' = m) m :=
      Zone.wp_chunksCount.mpr ⟨hp.zone_ne_zero, h.rep.chunksCount, rfl⟩
    exact hrun
  · obtain ⟨n, _, hrun, rfl, rfl⟩ : wp (Zone.freeChunksCount d)
        (fun n m' => n = free.length ∧ m' = m) m :=
      Zone.wp_freeChunksCount.mpr ⟨hp.zone_ne_zero, h.rep.freeChunksCount, rfl⟩
    exact hrun
  · obtain ⟨b, hrun, hb⟩ := hvalid c
    exact ⟨b, hrun, hb.trans (hmem c)⟩
  · obtain ⟨b, hrun, hb⟩ := hvalid c
    rwa [hb.mpr (h.taken_sub c hc)] at hrun
  · obtain ⟨c, cs, rfl⟩ := List.exists_cons_of_ne_nil hne
    obtain ⟨r, m', hrun, -⟩ := h.take hp rfl
    exact ⟨r, m', hrun⟩
  · obtain ⟨_, m', hrun, -⟩ := h.give hp hc hnext hprev
    exact ⟨m', hrun⟩

end PoolInv

/-- `init` makes a pool without taken chunks. -/
theorem PoolPlace.init (hp : PoolPlace d page addr pageSize size)
    (haddr : m₀ (page + 2 * wordBytes) = addr) :
    wp (Zone.init d page pageSize size) (fun _ m =>
      ∃ free, PoolInv d page addr pageSize size m free []) m₀ := by
  have hle := Nat.div_mul_le_self pageSize size
  have hadd := hp.addr_add_le
  have hpos := hp.size_pos
  have hsize := hp.size_le
  refine (Zone.init_rep hp.zone_ne_zero hp.page_ne_zero hpos (by omega)
    (Nat.pos_of_ne_zero hp.addr_ne_zero) (by omega) haddr (fun k hk => hp.address_ne_field hk)
    hp.nodesApart fun x hx => hp.fieldsApart hx).mono ?_
  rintro _ m ⟨hrep, -, -, hfr⟩
  refine ⟨_, hrep, ?_, by simp⟩
  rw [hfr _ (fun k hk => hp.address_ne_field hk) (hp.address_notMem_links fun x hx => hx)]
  exact haddr

/-- In every run the zone is a pool of the chunks of its page. -/
theorem PoolRun.inv (hrun : PoolRun d page pageSize size m₀ m taken)
    (hp : PoolPlace d page addr pageSize size) (haddr : m₀ (page + 2 * wordBytes) = addr) :
    ∃ free, PoolInv d page addr pageSize size m free taken := by
  induction hrun with
  | init hinit => exact (hp.init haddr).of_run_eq hinit
  | @take m m' taken n c _ hcount hn hcall ih =>
    obtain ⟨free, hi⟩ := ih
    have hfree : free ≠ [] := by
      rintro rfl
      rw [(hi.exact hp).freeChunksCount] at hcount
      cases hcount
      exact absurd hn (Nat.lt_irrefl 0)
    obtain ⟨c', cs, rfl⟩ := List.exists_cons_of_ne_nil hfree
    obtain ⟨rfl, hi'⟩ := (hi.take hp rfl).of_run_eq hcall
    exact ⟨cs, hi'⟩
  | give _ hc hnext hprev hcall ih =>
    obtain ⟨free, hi⟩ := ih
    exact ⟨_, (hi.give hp hc hnext hprev).of_run_eq hcall⟩
  | write _ hm ih =>
    obtain ⟨free, hi⟩ := ih
    exact ⟨free, hi.write hp hm⟩

/-- A zone is an exact pool: `init` returns, and in every run the free list, the counters and
`isValidChunk` agree on the chunks of the page, of which each is free or taken. -/
theorem PoolRun.exact_of_init (hp : PoolPlace d page addr pageSize size)
    (haddr : m₀ (page + 2 * wordBytes) = addr) :
    (∃ m, Zone.init d page pageSize size m₀ = .ok (⟨⟩, m)) ∧
    ∀ m taken, PoolRun d page pageSize size m₀ m taken →
      ∃ free, PoolExact d addr pageSize size m free taken := by
  refine ⟨?_, fun m taken hrun => ?_⟩
  · obtain ⟨_, m, hrun, -⟩ := hp.init haddr
    exact ⟨m, hrun⟩
  · obtain ⟨free, hi⟩ := hrun.inv hp haddr
    exact ⟨free, hi.exact hp⟩

end Runs

section Lp64

attribute [local instance] lp64

/-- A page of eight chunks that are as small as a list node. -/
theorem PoolRun.exact_small :
    (∃ m, Zone.init 8192 5000 128 16 (Function.update (fun _ => 0) 5016 4100) = .ok (⟨⟩, m)) ∧
    ∀ m taken, PoolRun 8192 5000 128 16 (Function.update (fun _ => 0) 5016 4100) m taken →
      ∃ free, PoolExact 8192 4100 128 16 m free taken :=
  PoolRun.exact_of_init ⟨by decide, by decide, by decide, by decide, by decide, by decide,
    by decide, by decide, by decide⟩ rfl

end Lp64

end Liballocator
