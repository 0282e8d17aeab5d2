import Liballocator.Platform

/-!
# `RegionInfo`: the aligned part of a memory region

`initRegionInfo` computes from a region the whole pages inside of it.  It fills the record it is
given and returns whether the region is usable; in the model it returns the flag together with the
record.  The helpers `alignedStart` and `alignedEnd` work modulo the word size, as the code does.
-/

namespace Liballocator

/-- `Region`: a continuous block of physical memory. -/
structure Region where
  /-- Physical address of the memory block. -/
  address : ℕ
  /-- Size of the memory block in bytes. -/
  size : ℕ
  deriving DecidableEq, Repr

/-- `RegionInfo`: the meta data of the physical memory region. -/
structure RegionInfo where
  /-- Physical address of the region start. -/
  start : ℕ := 0
  /-- Physical address of the region end. -/
  stop : ℕ := 0
  /-- Aligned physical address of the region start. -/
  alignedStart : ℕ := 0
  /-- Aligned physical address of the region end. -/
  alignedEnd : ℕ := 0
  /-- Number of pages, that this region contains. -/
  pageCount : ℕ := 0
  /-- Size of the region. -/
  size : ℕ := 0
  /-- Size of the aligned part of the region. -/
  alignedSize : ℕ := 0
  /-- Pointer to the first page in the region. -/
  firstPage : ℕ := 0
  /-- Pointer to the last page in the region. -/
  lastPage : ℕ := 0
  deriving DecidableEq, Repr

/-- `clearRegionInfo`. -/
def clearRegionInfo : RegionInfo := {}

variable [Platform]

/-- `addr & ~(pageSize - 1)`. -/
def alignDown (addr pageSize : ℕ) : ℕ := addr &&& Word.not (Word.sub pageSize 1)

/-- `detail::alignedStart`. -/
def alignedStart (region : Region) (pageSize : ℕ) : Option ℕ :=
  let start := alignDown region.address pageSize
  let start := if start < region.address then Word.add start pageSize else start
  if start > Word.add region.address region.size then none else some start

/-- `detail::alignedEnd`. -/
def alignedEnd (region : Region) (pageSize : ℕ) : Option ℕ :=
  let stop := alignDown (Word.add region.address region.size) pageSize
  if stop < region.address then none else some stop

/-- `initRegionInfo`: the result and the filled record. -/
def initRegionInfo (region : Region) (pageSize : ℕ) : Except Fault (Bool × RegionInfo) :=
  if region.size < pageSize then .ok (false, clearRegionInfo) else
    let info := { clearRegionInfo with
      start := region.address, stop := Word.add region.address region.size }
    match alignedStart region pageSize with
    | none => .error .assertion
    | some start =>
      let info := { info with alignedStart := start }
      match alignedEnd region pageSize with
      | none => .error .assertion
      | some stop =>
        let info := { info with
          alignedEnd := stop
          pageCount := Word.sub stop info.alignedStart / pageSize }
        if info.pageCount = 0 then .ok (false, info) else
          .ok (true, { info with
            size := region.size
            alignedSize := Word.mul info.pageCount pageSize })

end Liballocator
