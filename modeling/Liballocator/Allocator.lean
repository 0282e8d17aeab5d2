import Liballocator.ZoneAllocator

/-!
# The public interface

The functions of the namespace `memory::allocator`: they combine the static page allocator and the
static zone allocator.
-/

namespace Liballocator

open Program

variable [Platform]

/-- `allocator::Stats`. -/
structure Stats where
  /-- Total size of the memory passed during initialization. -/
  totalMemorySize : ℕ
  /-- Size of the memory reserved for the liballocator or ignored due to alignment. -/
  reservedMemorySize : ℕ
  /-- Size of the memory available to the user. -/
  userMemorySize : ℕ
  /-- Size of the memory allocated by the user. -/
  allocatedMemorySize : ℕ
  /-- Size of the free user memory. -/
  freeMemorySize : ℕ
  deriving DecidableEq, Repr

/-- `allocator::clear`. -/
def clear : ZoneM PUnit := do
  PageAllocator.clear
  ZoneAllocator.clear

/-- `allocator::init` on an array of regions, given by its entries before the terminator. -/
def init (regions : List Region) (pageSize : ℕ) : ZoneM Bool := do
  clear
  if !(← PageAllocator.init regions pageSize) then return false
  ZoneAllocator.init pageSize

/-- `allocator::init` on the boundaries of a single region. -/
def initRange (start stop pageSize : ℕ) : ZoneM Bool :=
  init [⟨start, Word.sub stop start⟩] pageSize

/-- `allocator::allocate`. -/
def allocate (size : ℕ) : ZoneM ℕ := ZoneAllocator.allocate size

/-- `allocator::release`. -/
def release (ptr : ℕ) : ZoneM PUnit := ZoneAllocator.release ptr

/-- The combination of the statistics of the two allocators in `allocator::getStats`. -/
def combineStats (pageStats : PageAllocator.Stats) (zoneStats : ZoneAllocator.Stats) : Stats :=
  let totalMemorySize := pageStats.totalMemorySize
  let reservedMemorySize :=
    Word.add (Word.add (Word.sub pageStats.totalMemorySize pageStats.effectiveMemorySize)
      (Word.mul pageStats.reservedPagesCount pageStats.pageSize)) zoneStats.reservedMemorySize
  let userMemorySize := Word.sub totalMemorySize reservedMemorySize
  let allocatedMemorySize :=
    Word.add (Word.sub (Word.sub pageStats.userMemorySize pageStats.freeMemorySize)
      zoneStats.usedMemorySize) zoneStats.allocatedMemorySize
  { totalMemorySize
    reservedMemorySize
    userMemorySize
    allocatedMemorySize
    freeMemorySize := Word.sub userMemorySize allocatedMemorySize }

/-- `allocator::getStats`. -/
def getStats : ZoneM Stats := do
  let pageStats := (← get).pages.self.getStats
  let zoneStats ← ZoneAllocator.getStats
  return combineStats pageStats zoneStats

end Liballocator
