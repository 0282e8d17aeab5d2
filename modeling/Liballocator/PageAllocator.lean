import Liballocator.Page
import Liballocator.RegionInfo
import Mathlib.Data.Nat.Bitwise

/-!
# `PageAllocator`

The page allocator keeps one `Page` for each page of the regions it is given, in a table at the
beginning of one of these regions.  Free groups are linked in twenty lists by their size.

A computation of this file works on the fields of the object and on the memory.  The loops that
follow pointers take the number of rounds they may run; every method starts them with `loopBound`.
-/

namespace Liballocator

open Program

variable [Platform]

/-- `PageAllocator::m_cMaxRegionsCount`. -/
def maxRegionsCount : ℕ := 8

/-- `PageAllocator::m_cMaxGroupIdx`. -/
def maxGroupIdx : ℕ := 20

/-- The fields of `PageAllocator`. -/
structure PageAllocator where
  /-- The used entries of the array describing all known regions, `m_validRegionsCount` many; the
  other entries of the array are cleared. -/
  regionsInfo : List RegionInfo
  /-- Size of the page used on this platform. -/
  pageSize : ℕ
  /-- Index of the region used to store page descriptors. -/
  descRegionIdx : ℕ
  /-- Number of pages used to store page descriptors. -/
  descPagesCount : ℕ
  /-- Head of the page descriptors list. -/
  pagesHead : ℕ
  /-- Tail of the page descriptors list. -/
  pagesTail : ℕ
  /-- Array of the groups with free pages. -/
  freeGroupLists : ℕ → ℕ
  /-- Total number of pages known to the PageAllocator. -/
  pagesCount : ℕ
  /-- Current number of free pages. -/
  freePagesCount : ℕ

/-- The object together with the memory it works on. -/
structure PageState where
  /-- The fields of the object. -/
  self : PageAllocator
  /-- The memory. -/
  mem : Mem

/-- Code of the page allocator. -/
abbrev PageM (α : Type) := StateT PageState (Except Fault) α

/-- Code that only works on memory is code of the page allocator. -/
instance : MonadLift MemM PageM := ⟨within PageState.mem fun m s => { s with mem := m }⟩

omit [Platform] in
@[simp] theorem wp_liftMem {α : Type} {x : MemM α} {Q : α → PageState → Prop} {s : PageState} :
    wp (liftM x : PageM α) Q s ↔ wp x (fun a m => Q a { s with mem := m }) s.mem :=
  wp_within

omit [Platform] in
@[simp] theorem wlp_liftMem {α : Type} {x : MemM α} {Q : α → PageState → Prop} {s : PageState} :
    wlp (liftM x : PageM α) Q s ↔ wlp x (fun a m => Q a { s with mem := m }) s.mem :=
  wlp_within

omit [Platform] in
/-- A computation without state that succeeds. -/
theorem wp_liftOk {α : Type} {a : α} {x : Except Fault α} {Q : α → PageState → Prop}
    {s : PageState} (h : x = .ok a) (hQ : Q a s) : wp (liftM x : PageM α) Q s :=
  ⟨a, s, by subst h; rfl, hQ⟩

/-- `PageAllocator::Stats`. -/
structure PageAllocator.Stats where
  /-- Total size of the memory passed during initialization. -/
  totalMemorySize : ℕ
  /-- Effective size of the memory, that can be used by the PageAllocator. -/
  effectiveMemorySize : ℕ
  /-- Total size of the memory available to the user. -/
  userMemorySize : ℕ
  /-- Size of the remaining user memory. -/
  freeMemorySize : ℕ
  /-- Size of the page used by the PageAllocator. -/
  pageSize : ℕ
  /-- Total number of the pages known to the PageAllocator. -/
  totalPagesCount : ℕ
  /-- Number of pages reserved for the PageAllocator. -/
  reservedPagesCount : ℕ
  /-- Current number of the free pages. -/
  freePagesCount : ℕ
  deriving DecidableEq, Repr

/-- `utils::isPowerOf2`. -/
def isPowerOf2 (value : ℕ) : Bool := value > 0 && (value &&& Word.sub value 1) = 0

/-- `PageAllocator::minimalPageSize`. -/
def minimalPageSize : ℕ := 128

/-- `detail::isValidPageSize`. -/
def isValidPageSize (pageSize : ℕ) : Bool := pageSize ≥ minimalPageSize && isPowerOf2 pageSize

namespace PageAllocator

/-- The fields after `PageAllocator::clear`. -/
def cleared : PageAllocator :=
  { regionsInfo := [], pageSize := 0, descRegionIdx := 0, descPagesCount := 0, pagesHead := 0,
    pagesTail := 0, freeGroupLists := fun _ => 0, pagesCount := 0, freePagesCount := 0 }

/-- `PageAllocator::clear`. -/
def clear : PageM PUnit := modify fun s => { s with self := cleared }

/-- `m_regionsInfo.at(i)`. -/
def regionAt (i : ℕ) : PageM RegionInfo := do
  if i ≥ maxRegionsCount then throw Fault.outOfRange
  return (← get).self.regionsInfo.getD i clearRegionInfo

/-- `m_freeGroupLists.at(i)`. -/
def freeGroupListAt (i : ℕ) : PageM ℕ := do
  if i ≥ maxGroupIdx then throw Fault.outOfRange
  return (← get).self.freeGroupLists i

/-- Assignment to `m_freeGroupLists.at(i)`. -/
def setFreeGroupListAt (i head : ℕ) : PageM PUnit := do
  if i ≥ maxGroupIdx then throw Fault.outOfRange
  modify fun s => { s with self := { s.self with
    freeGroupLists := Function.update s.self.freeGroupLists i head } }

/-- `PageAllocator::isValidPage`. -/
def isValidPage (page : ℕ) : PageM Bool := do
  let self := (← get).self
  return page ≥ self.pagesHead && page ≤ self.pagesTail

/-- `PageAllocator::getRegion`: the index of the region, if there is one. -/
def getRegion (self : PageAllocator) (addr : ℕ) : Option ℕ :=
  let alignedAddr := alignDown addr self.pageSize
  self.regionsInfo.findIdx? fun region =>
    region.alignedStart ≤ alignedAddr && region.alignedEnd ≥ alignedAddr

/-! ### Free groups -/

/-- The loop of `addGroup` and `removeGroup`, from page number `i` of the group on. -/
def setGroupUsed (group : ℕ) (value : Bool) : (fuel i : ℕ) → MemM PUnit
  | 0, _ => throw Fault.endless
  | fuel + 1, i => do
    if i < (← Page.groupSize group) then
      Page.setUsed (Page.plus group i) value
      setGroupUsed group value fuel (i + 1)

/-- `PageAllocator::addGroup`. -/
def addGroup (group : ℕ) : PageM PUnit := do
  assert (group ≠ 0)
  let idx := groupIdx (← Page.groupSize group)
  let head ← ListNode.addToList group (← freeGroupListAt idx)
  setFreeGroupListAt idx head
  let groupSize ← Page.groupSize group
  modify fun s => { s with self := { s.self with
    freePagesCount := Word.add s.self.freePagesCount groupSize } }
  setGroupUsed group false loopBound 0

/-- `PageAllocator::removeGroup`. -/
def removeGroup (group : ℕ) : PageM PUnit := do
  assert (group ≠ 0)
  let idx := groupIdx (← Page.groupSize group)
  let head ← ListNode.removeFromList group (← freeGroupListAt idx)
  setFreeGroupListAt idx head
  let groupSize ← Page.groupSize group
  modify fun s => { s with self := { s.self with
    freePagesCount := Word.sub s.self.freePagesCount groupSize } }
  setGroupUsed group true loopBound 0

/-- The inner loop of `allocate`: the first group from `group` on with at least `count` pages, or
null. -/
def findGroup (count : ℕ) : (fuel group : ℕ) → MemM ℕ
  | 0, _ => throw Fault.endless
  | fuel + 1, group => do
    if group = 0 then return 0
    if (← Page.groupSize group) < count then
      findGroup count fuel (← ListNode.next group)
    else
      return group

/-- The outer loop of `allocate` over the `n` lists from index `i` on. -/
def allocateFrom (count : ℕ) : (n i : ℕ) → PageM ℕ
  | 0, _ => return 0
  | n + 1, i => do
    let group ← findGroup count loopBound (← freeGroupListAt i)
    if group = 0 then
      allocateFrom count n (i + 1)
    else
      removeGroup group
      let (allocatedGroup, remainingGroup) ← splitGroup group count
      if remainingGroup ≠ 0 then
        addGroup remainingGroup
      return allocatedGroup

/-- `PageAllocator::allocate`. -/
def allocate (count : ℕ) : PageM ℕ := do
  if (← get).self.freePagesCount < count ∨ count = 0 then return 0
  let idx := groupIdx count
  allocateFrom count (maxGroupIdx - idx) idx

/-- The first loop of `release`: joining with the free groups above. -/
def joinAbove : (fuel joinedGroup : ℕ) → PageM ℕ
  | 0, _ => throw Fault.endless
  | fuel + 1, joinedGroup => do
    let lastAbove := Page.prevSibling joinedGroup
    if !(← isValidPage lastAbove) then return joinedGroup
    let self := (← get).self
    if self.getRegion (← Page.address joinedGroup) ≠ self.getRegion (← Page.address lastAbove) then
      return joinedGroup
    if (← Page.isUsed lastAbove) then return joinedGroup
    let firstAbove := Page.plus (Page.minus lastAbove (← Page.groupSize lastAbove)) 1
    removeGroup firstAbove
    joinAbove fuel (← joinGroup firstAbove joinedGroup)

/-- The second loop of `release`: joining with the free groups below. -/
def joinBelow : (fuel joinedGroup : ℕ) → PageM ℕ
  | 0, _ => throw Fault.endless
  | fuel + 1, joinedGroup => do
    let lastJoined := Page.minus (Page.plus joinedGroup (← Page.groupSize joinedGroup)) 1
    let firstBelow := Page.nextSibling lastJoined
    if !(← isValidPage firstBelow) then return joinedGroup
    let self := (← get).self
    if self.getRegion (← Page.address lastJoined) ≠ self.getRegion (← Page.address firstBelow) then
      return joinedGroup
    if (← Page.isUsed firstBelow) then return joinedGroup
    removeGroup firstBelow
    joinBelow fuel (← joinGroup joinedGroup firstBelow)

/-- `PageAllocator::release`, its loops running for at most `fuel` rounds. -/
def releaseWithin (fuel pages : ℕ) : PageM PUnit := do
  if pages = 0 then return
  let joinedGroup ← joinAbove fuel pages
  let joinedGroup ← joinBelow fuel joinedGroup
  addGroup joinedGroup

/-- `PageAllocator::release`. -/
def release (pages : ℕ) : PageM PUnit := releaseWithin loopBound pages

/-! ### Initialization -/

/-- The first loop of `init`: collects the usable regions, from entry `i` of the array on.  The
list holds the entries before the terminator of the array. -/
def addRegions (pageSize : ℕ) : (i : ℕ) → List Region → PageM Bool
  | _, [] => return true
  | i, region :: regions => do
    if region.size = 0 then return true
    if i = maxRegionsCount then return false
    let (valid, regionInfo) ← (liftM (initRegionInfo region pageSize) : PageM _)
    if valid then
      modify fun s => { s with self := { s.self with
        regionsInfo := s.self.regionsInfo ++ [regionInfo] } }
    addRegions pageSize (i + 1) regions

/-- `PageAllocator::countPages`. -/
def countPages (self : PageAllocator) : ℕ :=
  self.regionsInfo.foldl (fun pagesCount region => Word.add pagesCount region.pageCount) 0

/-- The loop of `chooseDescRegion` over the entries `i, i + 1, ...`. -/
def chooseDescRegionFrom (all : List RegionInfo) (descAreaSize : ℕ) :
    (i selectedIdx : ℕ) → List RegionInfo → ℕ
  | _, selectedIdx, [] => selectedIdx
  | i, selectedIdx, region :: regions =>
    if region.alignedSize < descAreaSize then
      chooseDescRegionFrom all descAreaSize (i + 1) selectedIdx regions
    else if region.alignedSize < (all.getD selectedIdx clearRegionInfo).alignedSize then
      chooseDescRegionFrom all descAreaSize (i + 1) i regions
    else
      chooseDescRegionFrom all descAreaSize (i + 1) selectedIdx regions

/-- `PageAllocator::chooseDescRegion`. -/
def chooseDescRegion (self : PageAllocator) : ℕ :=
  let descAreaSize := Word.mul self.pagesCount sizeofPage
  chooseDescRegionFrom self.regionsInfo descAreaSize 0 0 self.regionsInfo

/-- The loop of `reserveDescPages`. -/
def reserveDescPagesFrom (descRegion : RegionInfo) : (fuel page reservedCount : ℕ) → PageM ℕ
  | 0, _, _ => throw Fault.endless
  | fuel + 1, page, reservedCount => do
    let self := (← get).self
    if page > self.pagesTail then return reservedCount
    if (← Page.address page) ≥ Page.nextSibling self.pagesTail then return reservedCount
    Page.setUsed page true
    if page = descRegion.lastPage then return reservedCount + 1
    reserveDescPagesFrom descRegion fuel (Page.nextSibling page) (reservedCount + 1)

/-- `PageAllocator::reserveDescPages`. -/
def reserveDescPages : PageM ℕ := do
  let descRegion ← regionAt (← get).self.descRegionIdx
  reserveDescPagesFrom descRegion loopBound descRegion.firstPage 0

/-- The loop of `init` over the pages of one region: returns the descriptor behind the last one. -/
def initPages (pageSize alignedEnd : ℕ) : (fuel page addr : ℕ) → MemM ℕ
  | 0, _, _ => throw Fault.endless
  | fuel + 1, page, addr => do
    if addr = alignedEnd then return page
    assert (page ≠ 0)
    Page.init page
    Page.setAddress page addr
    initPages pageSize alignedEnd fuel (Page.nextSibling page) (Word.add addr pageSize)

/-- One round of the loop of `init` over the regions: sets up the pages of region `i`. -/
def initRegion (i page : ℕ) : PageM ℕ := do
  let region ← regionAt i
  let region := { region with
    firstPage := page, lastPage := Page.minus (Page.plus page region.pageCount) 1 }
  modify fun s => { s with self := { s.self with
    regionsInfo := s.self.regionsInfo.set i region } }
  let self := (← get).self
  let page ← initPages self.pageSize region.alignedEnd loopBound page region.alignedStart
  let group := region.firstPage
  initGroup group region.pageCount
  let group ← if i = self.descRegionIdx then do
      let descPagesCount ← reserveDescPages
      modify fun s => { s with self := { s.self with descPagesCount := descPagesCount } }
      pure (← splitGroup group descPagesCount).2
    else pure group
  if group ≠ 0 then
    addGroup group
  return page

/-- The loop of `init` over the `n` regions from index `i` on. -/
def initRegions : (n i page : ℕ) → PageM PUnit
  | 0, _, _ => return
  | n + 1, i, page => do
    let page ← initRegion i page
    initRegions n (i + 1) page

/-- `PageAllocator::init`. -/
def init (regions : List Region) (pageSize : ℕ) : PageM Bool := do
  clear
  if !isValidPageSize pageSize then return false
  if !(← addRegions pageSize 0 regions) then return false
  modify fun s => { s with self := { s.self with pagesCount := countPages s.self } }
  if (← get).self.pagesCount = 0 then return false
  modify fun s => { s with self := { s.self with pageSize := pageSize } }
  modify fun s => { s with self := { s.self with descRegionIdx := chooseDescRegion s.self } }
  let descRegion ← regionAt (← get).self.descRegionIdx
  modify fun s => { s with self := { s.self with
    pagesHead := descRegion.alignedStart
    pagesTail := Page.minus (Page.plus descRegion.alignedStart s.self.pagesCount) 1 } }
  let self := (← get).self
  initRegions self.regionsInfo.length 0 self.pagesHead
  return true

/-! ### Queries -/

/-- The loop of `getPage`. -/
def getPageFrom (lastPage alignedAddr : ℕ) : (fuel page : ℕ) → MemM ℕ
  | 0, _ => throw Fault.endless
  | fuel + 1, page => do
    if page > lastPage then return 0
    if (← Page.address page) = alignedAddr then return page
    getPageFrom lastPage alignedAddr fuel (Page.nextSibling page)

/-- `PageAllocator::getPage`. -/
def getPage (addr : ℕ) : PageM ℕ := do
  let self := (← get).self
  let alignedAddr := alignDown addr self.pageSize
  match self.getRegion alignedAddr with
  | none => return 0
  | some idx =>
    let pageRegion ← regionAt idx
    getPageFrom pageRegion.lastPage alignedAddr loopBound pageRegion.firstPage

/-- `PageAllocator::getStats`; the sums are accumulated in an `unsigned int` of 32 bits. -/
def getStats (self : PageAllocator) : Stats :=
  let totalMemorySize := self.regionsInfo.foldl (fun sum region =>
    Word.add sum region.size % 2 ^ 32) 0
  let effectiveMemorySize := self.regionsInfo.foldl (fun sum region =>
    Word.add sum region.alignedSize % 2 ^ 32) 0
  { totalMemorySize
    effectiveMemorySize
    userMemorySize := Word.sub effectiveMemorySize (Word.mul self.pageSize self.descPagesCount)
    freeMemorySize := Word.mul self.freePagesCount self.pageSize
    pageSize := self.pageSize
    totalPagesCount := self.pagesCount
    reservedPagesCount := self.descPagesCount
    freePagesCount := self.freePagesCount }

end PageAllocator

end Liballocator
