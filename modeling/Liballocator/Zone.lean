import Liballocator.Page

/-!
# `Zone`: a page cut into chunks

A `Zone` is a list node with five further words: the page, the size of its chunks, their number, the
number of free chunks and the head of the list of free chunks.  The nodes of that list are the free
chunks themselves.
-/

namespace Liballocator

open Program

variable [Platform]

/-- `utils::movePtr`. -/
def movePtr (ptr step : ℕ) : ℕ := Word.add ptr step

namespace Zone

/-- `Zone::page`. -/
def page (zone : ℕ) : MemM ℕ := load zone 2

/-- `Zone::chunkSize`. -/
def chunkSize (zone : ℕ) : MemM ℕ := load zone 3

/-- `Zone::chunksCount`. -/
def chunksCount (zone : ℕ) : MemM ℕ := load zone 4

/-- `Zone::freeChunksCount`. -/
def freeChunksCount (zone : ℕ) : MemM ℕ := load zone 5

/-- The member `m_freeChunks`. -/
def freeChunks (zone : ℕ) : MemM ℕ := load zone 6

/-- `Zone::clear`. -/
def clear (zone : ℕ) : MemM PUnit := do
  ListNode.initListNode zone
  store zone 2 0
  store zone 3 0
  store zone 4 0
  store zone 5 0
  store zone 6 0

/-- The loop of `Zone::init`, with `n` chunks left from `chunk` on. -/
def initChunks (zone chunkSize : ℕ) : (n chunk : ℕ) → MemM PUnit
  | 0, _ => return
  | n + 1, chunk => do
    ListNode.initListNode chunk
    store zone 6 (← ListNode.addToList chunk (← freeChunks zone))
    initChunks zone chunkSize n (movePtr chunk chunkSize)

/-- `Zone::init`. -/
def init (zone page pageSize chunkSize : ℕ) : MemM PUnit := do
  assert (page ≠ 0)
  assert (pageSize ≠ 0)
  assert (chunkSize ≠ 0)
  clear zone
  store zone 2 page
  store zone 3 chunkSize
  store zone 4 (pageSize / chunkSize)
  store zone 5 (pageSize / chunkSize)
  initChunks zone chunkSize (pageSize / chunkSize) (← Page.address page)

/-- `Zone::takeChunk`. -/
def takeChunk (zone : ℕ) : MemM ℕ := do
  assert ((← freeChunksCount zone) ≠ 0)
  let chunk ← freeChunks zone
  store zone 6 (← ListNode.removeFromList chunk chunk)
  store zone 5 (Word.sub (← freeChunksCount zone) 1)
  return chunk

/-- `Zone::giveChunk`. -/
def giveChunk (zone chunk : ℕ) : MemM PUnit := do
  assert (chunk ≠ 0)
  store zone 6 (← ListNode.addToList chunk (← freeChunks zone))
  store zone 5 (Word.add (← freeChunksCount zone) 1)

/-- The loop of `Zone::isValidChunk`, with `n` chunks left from `it` on. -/
def isValidChunkFrom (chunk chunkSize : ℕ) : (n it : ℕ) → Bool
  | 0, _ => false
  | n + 1, it => it = chunk || isValidChunkFrom chunk chunkSize n (movePtr it chunkSize)

/-- `Zone::isValidChunk`. -/
def isValidChunk (zone chunk : ℕ) : MemM Bool := do
  let addr ← Page.address (← page zone)
  return isValidChunkFrom chunk (← chunkSize zone) (← chunksCount zone) addr

end Zone

/-! ### The chunks of a page -/

/-- The addresses of `n` chunks of the given size from `c` on. -/
def chunksFrom (size n c : ℕ) : List ℕ := (List.range n).map fun j => c + j * size

section Chunks

omit [Platform]

variable {size n pageSize addr a c x y : ℕ}

theorem mem_chunksFrom : c ∈ chunksFrom size n a ↔ ∃ j < n, c = a + j * size := by
  simp only [chunksFrom, List.mem_map, List.mem_range, eq_comm]

@[simp] theorem length_chunksFrom (size n c : ℕ) : (chunksFrom size n c).length = n := by
  rw [chunksFrom, List.length_map, List.length_range]

theorem chunksFrom_succ (size n c : ℕ) :
    chunksFrom size (n + 1) c = c :: chunksFrom size n (c + size) := by
  rw [chunksFrom, List.range_succ_eq_map, List.map_cons, List.map_map, Nat.zero_mul, Nat.add_zero]
  refine congrArg _ (List.map_congr_left fun j _ => ?_)
  rw [Function.comp_apply, Nat.succ_mul]
  omega

/-- Two chunks do not overlap. -/
theorem chunksFrom_apart (hx : x ∈ chunksFrom size n a) (hy : y ∈ chunksFrom size n a)
    (hne : x ≠ y) : x + size ≤ y ∨ y + size ≤ x := by
  obtain ⟨i, -, rfl⟩ := mem_chunksFrom.mp hx
  obtain ⟨j, -, rfl⟩ := mem_chunksFrom.mp hy
  rcases Nat.lt_trichotomy i j with hij | rfl | hij
  · have := Nat.mul_le_mul_right size (Nat.succ_le_of_lt hij)
    rw [Nat.succ_mul] at this
    omega
  · exact absurd rfl hne
  · have := Nat.mul_le_mul_right size (Nat.succ_le_of_lt hij)
    rw [Nat.succ_mul] at this
    omega

theorem nodup_chunksFrom (hsize : 0 < size) (n a : ℕ) : (chunksFrom size n a).Nodup := by
  refine List.Nodup.map (fun i j h => ?_) List.nodup_range
  exact Nat.eq_of_mul_eq_mul_right hsize (Nat.add_left_cancel h)

/-- A chunk lies between the first one and the end of the last one. -/
theorem chunksFrom_bounds (hx : x ∈ chunksFrom size n a) : a ≤ x ∧ x + size ≤ a + n * size := by
  obtain ⟨i, hi, rfl⟩ := mem_chunksFrom.mp hx
  have := Nat.mul_le_mul_right size (Nat.succ_le_of_lt hi)
  rw [Nat.succ_mul] at this
  omega

/-- All chunks of a page lie in the page. -/
theorem chunksFrom_page (hc : c ∈ chunksFrom size (pageSize / size) addr) :
    addr ≤ c ∧ c + size ≤ addr + pageSize := by
  have hb := chunksFrom_bounds hc
  have := Nat.div_mul_le_self pageSize size
  omega

end Chunks

end Liballocator
