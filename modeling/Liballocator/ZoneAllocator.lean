import Liballocator.PageAllocator
import Liballocator.Zone

/-!
# `ZoneAllocator`

The zone allocator serves small requests from zones, one list of zones for each chunk size.  The
descriptor of a zone, except for the static initial one, is itself a chunk of a zone of the class
`zoneDescIdx`.

A computation of this file works on the fields of the two allocators and on the memory.  The static
member `m_initialZone` is the object at the address `initialZone`.
-/

namespace Liballocator

open Program

variable [Platform]

/-- `ZoneAllocator::m_cMaxZoneIdx`. -/
def maxZoneIdx : ℕ := 8

/-- `ZoneAllocator::minimalAllocSize`. -/
def minimalAllocSize : ℕ := 16

/-- `utils::roundPowerOf2`. -/
def roundPowerOf2 (value : ℕ) : ℕ :=
  let result := Word.sub value 1
  let result := result ||| result >>> 1
  let result := result ||| result >>> 2
  let result := result ||| result >>> 4
  let result := result ||| result >>> 8
  let result := result ||| result >>> 16
  Word.add result 1

/-- `detail::chunkSize`. -/
def chunkSize (size : ℕ) : ℕ := roundPowerOf2 (max size minimalAllocSize)

/-- `detail::zoneIdx`.  For a chunk size below 16 the difference is negative, and its conversion to
`std::size_t` wraps around. -/
def zoneIdx (chunkSize : ℕ) : ℕ := Word.sub (Nat.log 2 chunkSize) 4

omit [Platform] in
/-- Conversion of an integer to `double`: 53 significant bits, ties to even. -/
def toDouble (n : ℕ) : ℕ :=
  let ulp := 2 ^ (Nat.log 2 n - 52)
  let q := n / ulp
  let r := n % ulp
  if 2 * r > ulp ∨ (2 * r = ulp ∧ q % 2 = 1) then (q + 1) * ulp else q * ulp

omit [Platform] in
/-- `std::ceil(double(size) / double(pageSize))` for a page size that is a power of two, where the
quotient is exact. -/
def ceilDiv (size pageSize : ℕ) : ℕ := (toDouble size + pageSize - 1) / pageSize

/-- `ZoneAllocator::ZoneInfo`. -/
structure ZoneInfo where
  /-- Head of the zones with the given index. -/
  head : ℕ := 0
  /-- Total number of free chunks in zones with the given index. -/
  freeChunksCount : ℕ := 0
  deriving DecidableEq, Repr

/-- The fields of `ZoneAllocator`, `m_initialZone` apart. -/
structure ZoneAllocator where
  /-- Whether the pointer to the PageAllocator is set. -/
  pageAllocator : Bool
  /-- Size of the page on this platform. -/
  pageSize : ℕ
  /-- Size of the chunks that are used to store zone descriptors. -/
  zoneDescChunkSize : ℕ
  /-- Index of the zones, from which zone descriptors are allocated. -/
  zoneDescIdx : ℕ
  /-- Array of all zones known in the ZoneAllocator. -/
  zones : ℕ → ZoneInfo

/-- The two objects together with the memory they work on. -/
structure State where
  /-- The fields of the zone allocator. -/
  self : ZoneAllocator
  /-- The page allocator and the memory. -/
  pages : PageState

/-- Code of the zone allocator. -/
abbrev ZoneM (α : Type) := StateT State (Except Fault) α

/-- Code of the page allocator is code of the zone allocator. -/
instance : MonadLift PageM ZoneM := ⟨within State.pages fun p s => { s with pages := p }⟩

/-- The memory of a state. -/
def State.mem (s : State) : Mem := s.pages.mem

/-- Code on memory is code of the zone allocator. -/
instance : MonadLift MemM ZoneM :=
  ⟨within State.mem fun m s => { s with pages := { s.pages with mem := m } }⟩

omit [Platform] in
@[simp] theorem wp_liftPages {α : Type} {x : PageM α} {Q : α → State → Prop} {s : State} :
    wp (liftM x : ZoneM α) Q s ↔ wp x (fun a p => Q a { s with pages := p }) s.pages :=
  wp_within

omit [Platform] in
@[simp] theorem wp_liftMem' {α : Type} {x : MemM α} {Q : α → State → Prop} {s : State} :
    wp (liftM x : ZoneM α) Q s ↔
      wp x (fun a m => Q a { s with pages := { s.pages with mem := m } }) s.mem :=
  wp_within

omit [Platform] in
@[simp] theorem wlp_liftPages {α : Type} {x : PageM α} {Q : α → State → Prop} {s : State} :
    wlp (liftM x : ZoneM α) Q s ↔ wlp x (fun a p => Q a { s with pages := p }) s.pages :=
  wlp_within

omit [Platform] in
@[simp] theorem wlp_liftMem' {α : Type} {x : MemM α} {Q : α → State → Prop} {s : State} :
    wlp (liftM x : ZoneM α) Q s ↔
      wlp x (fun a m => Q a { s with pages := { s.pages with mem := m } }) s.mem :=
  wlp_within

/-- `ZoneAllocator::Stats`. -/
structure ZoneAllocator.Stats where
  /-- Size of the memory that is under the control of the ZoneAllocator. -/
  usedMemorySize : ℕ
  /-- Size of the memory reserved for the ZoneAllocator within allocated zones. -/
  reservedMemorySize : ℕ
  /-- Size of the free memory within allocated zones. -/
  freeMemorySize : ℕ
  /-- Size of the memory allocated by the user within allocated zones. -/
  allocatedMemorySize : ℕ
  deriving DecidableEq, Repr

namespace ZoneAllocator

/-- `ZoneAllocator::clear`. -/
def clear : ZoneM PUnit := do
  modify fun s => { s with self :=
    { s.self with pageAllocator := false, pageSize := 0, zoneDescChunkSize := 0, zoneDescIdx := 0 } }
  Zone.clear initialZone
  modify fun s => { s with self := { s.self with zones := fun _ => {} } }

/-- A call through `m_pageAllocator`. -/
def callPageAllocator {α : Type} (x : PageM α) : ZoneM α := do
  if !(← get).self.pageAllocator then throw Fault.nullPointer
  x

/-- `m_zones.at(idx)`. -/
def zoneInfoAt (idx : ℕ) : ZoneM ZoneInfo := do
  if idx ≥ maxZoneIdx then throw Fault.outOfRange
  return (← get).self.zones idx

/-- Assignment to `m_zones.at(idx)`. -/
def setZoneInfoAt (idx : ℕ) (info : ZoneInfo) : ZoneM PUnit := do
  if idx ≥ maxZoneIdx then throw Fault.outOfRange
  modify fun s => { s with self := { s.self with zones := Function.update s.self.zones idx info } }

/-- The loop of `getFreeZone`. -/
def getFreeZoneFrom : (fuel zone : ℕ) → MemM ℕ
  | 0, _ => throw Fault.endless
  | fuel + 1, zone => do
    if zone = 0 then return 0
    if (← Zone.freeChunksCount zone) > 0 then return zone
    getFreeZoneFrom fuel (← ListNode.next zone)

/-- `ZoneAllocator::getFreeZone`. -/
def getFreeZone (idx : ℕ) : ZoneM ℕ := do
  getFreeZoneFrom loopBound (← zoneInfoAt idx).head

/-- `ZoneAllocator::shouldAllocateZone`. -/
def shouldAllocateZone (idx : ℕ) : ZoneM Bool := do
  let triggerCount := if idx = (← get).self.zoneDescIdx then 1 else 0
  return (← zoneInfoAt idx).freeChunksCount = triggerCount

/-- `ZoneAllocator::addZone`. -/
def addZone (zone : ℕ) : ZoneM PUnit := do
  assert (zone ≠ 0)
  let idx := zoneIdx (← Zone.chunkSize zone)
  let head ← ListNode.addToList zone (← zoneInfoAt idx).head
  setZoneInfoAt idx { (← zoneInfoAt idx) with head := head }
  let freeChunksCount ← Zone.freeChunksCount zone
  let info ← zoneInfoAt idx
  setZoneInfoAt idx { info with freeChunksCount := Word.add info.freeChunksCount freeChunksCount }

/-- `ZoneAllocator::removeZone`. -/
def removeZone (zone : ℕ) : ZoneM PUnit := do
  assert (zone ≠ 0)
  assert (zone ≠ initialZone)
  let idx := zoneIdx (← Zone.chunkSize zone)
  let head ← ListNode.removeFromList zone (← zoneInfoAt idx).head
  setZoneInfoAt idx { (← zoneInfoAt idx) with head := head }
  let freeChunksCount ← Zone.freeChunksCount zone
  let info ← zoneInfoAt idx
  setZoneInfoAt idx { info with freeChunksCount := Word.sub info.freeChunksCount freeChunksCount }

/-- `ZoneAllocator::initZone`. -/
def initZone (zone chunkSize : ℕ) : ZoneM Bool := do
  assert (zone ≠ 0)
  let page ← callPageAllocator (PageAllocator.allocate 1)
  if page ≠ 0 then
    Zone.init zone page (← get).self.pageSize chunkSize
    return true
  return false

/-- `ZoneAllocator::clearZone`. -/
def clearZone (zone : ℕ) : ZoneM PUnit := do
  assert (zone ≠ 0)
  let page ← Zone.page zone
  callPageAllocator (PageAllocator.release page)
  Zone.clear zone

/-- The inner loop of `findZone`. -/
def findZoneFrom (chunk pageAddr : ℕ) : (fuel zone : ℕ) → MemM ℕ
  | 0, _ => throw Fault.endless
  | fuel + 1, zone => do
    if zone = 0 then return 0
    if (← Page.address (← Zone.page zone)) = pageAddr then
      if (← Zone.isValidChunk zone chunk) then return zone
    findZoneFrom chunk pageAddr fuel (← ListNode.next zone)

/-- The outer loop of `findZone` over the `n` classes from index `idx` on. -/
def findZoneIn (chunk pageAddr : ℕ) : (n idx : ℕ) → ZoneM ℕ
  | 0, _ => return 0
  | n + 1, idx => do
    let zone ← findZoneFrom chunk pageAddr loopBound (← zoneInfoAt idx).head
    if zone ≠ 0 then return zone
    findZoneIn chunk pageAddr n (idx + 1)

/-- `ZoneAllocator::findZone`. -/
def findZone (chunk : ℕ) : ZoneM ℕ := do
  assert (chunk ≠ 0)
  let pageAddr := alignDown chunk (← get).self.pageSize
  findZoneIn chunk pageAddr maxZoneIdx 0

/-- `ZoneAllocator::allocateChunk`. -/
def allocateChunk (zone : ℕ) : ZoneM ℕ := do
  let idx := zoneIdx (← Zone.chunkSize zone)
  let info ← zoneInfoAt idx
  setZoneInfoAt idx { info with freeChunksCount := Word.sub info.freeChunksCount 1 }
  Zone.takeChunk zone

/-- `ZoneAllocator::deallocateChunk`, at most `fuel` levels deep. -/
def deallocateChunkWithin : (fuel chunk : ℕ) → ZoneM Bool
  | 0, _ => throw Fault.endless
  | fuel + 1, chunk => do
    let zone ← findZone chunk
    if zone = 0 then return false
    let idx := zoneIdx (← Zone.chunkSize zone)
    let info ← zoneInfoAt idx
    setZoneInfoAt idx { info with freeChunksCount := Word.add info.freeChunksCount 1 }
    ListNode.initListNode chunk
    Zone.giveChunk zone chunk
    if (← Zone.chunksCount zone) = (← Zone.freeChunksCount zone) ∧ zone ≠ initialZone then
      removeZone zone
      clearZone zone
      deallocateChunkWithin fuel zone
    else
      return true

/-- `ZoneAllocator::deallocateChunk`. -/
def deallocateChunk (chunk : ℕ) : ZoneM Bool := deallocateChunkWithin loopBound chunk

/-- `ZoneAllocator::allocateZone`, at most `fuel` levels deep. -/
def allocateZoneWithin : (fuel chunkSize : ℕ) → ZoneM ℕ
  | 0, _ => throw Fault.endless
  | fuel + 1, chunkSize => do
    let self := (← get).self
    if chunkSize ≠ self.zoneDescChunkSize ∧ (← shouldAllocateZone self.zoneDescIdx) = true then
      if (← allocateZoneWithin fuel self.zoneDescChunkSize) = 0 then return 0
    let zone ← getFreeZone self.zoneDescIdx
    assert (zone ≠ 0)
    let newZone ← allocateChunk zone
    assert (newZone ≠ 0)
    if !(← initZone newZone chunkSize) then
      let _ ← deallocateChunk newZone
      return 0
    addZone newZone
    return newZone

/-- `ZoneAllocator::allocateZone`. -/
def allocateZone (chunkSize : ℕ) : ZoneM ℕ := allocateZoneWithin loopBound chunkSize

/-- `ZoneAllocator::init`. -/
def init (pageSize : ℕ) : ZoneM Bool := do
  clear
  let zoneDescChunkSize := chunkSize sizeofZone
  modify fun s => { s with self := { s.self with
    pageAllocator := true
    pageSize := pageSize
    zoneDescChunkSize := zoneDescChunkSize
    zoneDescIdx := zoneIdx zoneDescChunkSize } }
  if !(← initZone initialZone zoneDescChunkSize) then return false
  addZone initialZone
  return true

/-- `ZoneAllocator::allocate`. -/
def allocate (size : ℕ) : ZoneM ℕ := do
  if size = 0 then return 0
  let allocSize := chunkSize size
  let pageSize := (← get).self.pageSize
  if size ≥ pageSize ∨ allocSize ≥ pageSize then
    let page ← callPageAllocator (PageAllocator.allocate (ceilDiv size pageSize))
    if page ≠ 0 then
      return (← Page.address page)
    return 0
  let idx := zoneIdx allocSize
  let zone ← if (← shouldAllocateZone idx) then allocateZone allocSize else getFreeZone idx
  if zone = 0 then return 0
  allocateChunk zone

/-- `ZoneAllocator::release`. -/
def release (ptr : ℕ) : ZoneM PUnit := do
  if ptr = 0 then return
  if (← deallocateChunk ptr) then return
  let pages ← callPageAllocator (PageAllocator.getPage ptr)
  if pages ≠ 0 then
    callPageAllocator (PageAllocator.release pages)

/-- The number of zones in a list, counted from `count` on. -/
def countZonesFrom : (fuel zone count : ℕ) → MemM ℕ
  | 0, _, _ => throw Fault.endless
  | fuel + 1, zone, count => do
    if zone = 0 then return count
    countZonesFrom fuel (← ListNode.next zone) (count + 1)

/-- The accumulation of the number of zones over the `n` classes from index `idx` on; the sum is an
`unsigned int` of 32 bits. -/
def usedZonesCountFrom : (n idx sum : ℕ) → ZoneM ℕ
  | 0, _, sum => return sum
  | n + 1, idx, sum => do
    let count ← countZonesFrom loopBound (← zoneInfoAt idx).head 0
    usedZonesCountFrom n (idx + 1) (Word.add sum count % 2 ^ 32)

/-- The accumulation of the free memory over the `n` classes from index `idx` on; the sum is an
`unsigned int` of 32 bits. -/
def freeMemorySizeFrom : (n idx sum : ℕ) → ZoneM ℕ
  | 0, _, sum => return sum
  | n + 1, idx, sum => do
    let info ← zoneInfoAt idx
    if info.head = 0 then
      freeMemorySizeFrom n (idx + 1) sum
    else
      let size := Word.mul (← Zone.chunkSize info.head) info.freeChunksCount
      freeMemorySizeFrom n (idx + 1) (Word.add sum size % 2 ^ 32)

/-- `ZoneAllocator::getStats`. -/
def getStats : ZoneM Stats := do
  let usedZonesCount ← usedZonesCountFrom maxZoneIdx 0 0
  let self := (← get).self
  let usedMemorySize := Word.mul usedZonesCount self.pageSize
  let reservedMemorySize :=
    if usedZonesCount > 0 then Word.mul (Word.sub usedZonesCount 1) self.zoneDescChunkSize else 0
  let freeMemorySize ← freeMemorySizeFrom maxZoneIdx 0 0
  return {
    usedMemorySize
    reservedMemorySize
    freeMemorySize
    allocatedMemorySize :=
      Word.sub (Word.sub usedMemorySize reservedMemorySize) freeMemorySize }

end ZoneAllocator

end Liballocator
