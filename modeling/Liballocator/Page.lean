import Liballocator.ListNode
import Mathlib.Data.Nat.Log

/-!
# `Page` and the groups of pages

A `Page` is the descriptor of one page of memory: the list node, the physical address and a word of
flags whose bits 0 to 20 are the group size and whose bit 21 is the used flag.  `init` clears the
low 32 bits of the flags only, as the code does through the 32-bit member of the union.

The second half is `group.cpp`: the group of a page is described by its first and its last page,
`initGroup`, `clearGroup`, `splitGroup` and `joinGroup` keep these two tags.
-/

namespace Liballocator

open Program

/-! ### The flags word -/

/-- `m_flags.bits.groupSize`. -/
def flagsGroupSize (flags : ℕ) : ℕ := flags % 2 ^ 21

/-- `m_flags.bits.used`. -/
def flagsUsed (flags : ℕ) : Bool := flags / 2 ^ 21 % 2 = 1

/-- Assignment to `m_flags.bits.groupSize`. -/
def flagsSetGroupSize (flags groupSize : ℕ) : ℕ :=
  flags / 2 ^ 21 * 2 ^ 21 + groupSize % 2 ^ 21

/-- Assignment to `m_flags.bits.used`. -/
def flagsSetUsed (flags : ℕ) (value : Bool) : ℕ :=
  flags / 2 ^ 22 * 2 ^ 22 + (if value then 2 ^ 21 else 0) + flags % 2 ^ 21

/-- Assignment of zero to `m_flags.value`, the low 32 bits. -/
def flagsClear (flags : ℕ) : ℕ := flags / 2 ^ 32 * 2 ^ 32

@[simp] theorem flagsGroupSize_clear (f : ℕ) : flagsGroupSize (flagsClear f) = 0 := by
  unfold flagsGroupSize flagsClear
  omega

@[simp] theorem flagsUsed_clear (f : ℕ) : flagsUsed (flagsClear f) = false := by
  unfold flagsUsed flagsClear
  rw [decide_eq_false_iff_not]
  omega

@[simp] theorem flagsGroupSize_setGroupSize (f n : ℕ) :
    flagsGroupSize (flagsSetGroupSize f n) = n % 2 ^ 21 := by
  unfold flagsGroupSize flagsSetGroupSize
  omega

@[simp] theorem flagsUsed_setGroupSize (f n : ℕ) :
    flagsUsed (flagsSetGroupSize f n) = flagsUsed f := by
  unfold flagsUsed flagsSetGroupSize
  rw [decide_eq_decide]
  omega

@[simp] theorem flagsGroupSize_setUsed (f : ℕ) (b : Bool) :
    flagsGroupSize (flagsSetUsed f b) = flagsGroupSize f := by
  unfold flagsGroupSize flagsSetUsed
  cases b <;> simp <;> omega

@[simp] theorem flagsUsed_setUsed (f : ℕ) (b : Bool) : flagsUsed (flagsSetUsed f b) = b := by
  unfold flagsUsed flagsSetUsed
  cases b <;> simp <;> omega

variable [Platform]

namespace Page

/-- `Page::init`. -/
def init (page : ℕ) : MemM PUnit := do
  ListNode.initListNode page
  store page 2 0
  store page 3 (flagsClear (← load page 3))

/-- `Page::setAddress`. -/
def setAddress (page addr : ℕ) : MemM PUnit := store page 2 addr

/-- `Page::setGroupSize`. -/
def setGroupSize (page groupSize : ℕ) : MemM PUnit := do
  store page 3 (flagsSetGroupSize (← load page 3) groupSize)

/-- `Page::setUsed`. -/
def setUsed (page : ℕ) (value : Bool) : MemM PUnit := do
  store page 3 (flagsSetUsed (← load page 3) value)

/-- The pointer `page + count`. -/
def plus (page count : ℕ) : ℕ := Word.add page (Word.mul count sizeofPage)

/-- The pointer `page - count`. -/
def minus (page count : ℕ) : ℕ := Word.sub page (Word.mul count sizeofPage)

/-- `Page::nextSibling`. -/
def nextSibling (page : ℕ) : ℕ := plus page 1

/-- `Page::prevSibling`. -/
def prevSibling (page : ℕ) : ℕ := minus page 1

/-- `Page::address`. -/
def address (page : ℕ) : MemM ℕ := load page 2

/-- `Page::groupSize`. -/
def groupSize (page : ℕ) : MemM ℕ := return flagsGroupSize (← load page 3)

/-- `Page::isUsed`. -/
def isUsed (page : ℕ) : MemM Bool := return flagsUsed (← load page 3)

end Page

/-! ### Groups -/

/-- `groupIdx`: zero for a single page, otherwise one less than the logarithm. -/
def groupIdx (pageCount : ℕ) : ℕ := if pageCount < 2 then 0 else Nat.log 2 pageCount - 1

/-- `initGroup`. -/
def initGroup (group groupSize : ℕ) : MemM PUnit := do
  assert (group ≠ 0)
  let firstPage := group
  let lastPage := Page.minus (Page.plus group groupSize) 1
  Page.setGroupSize firstPage groupSize
  Page.setGroupSize lastPage groupSize

/-- `clearGroup`. -/
def clearGroup (group : ℕ) : MemM PUnit := do
  assert (group ≠ 0)
  let firstPage := group
  let lastPage := Page.minus (Page.plus group (← Page.groupSize group)) 1
  Page.setGroupSize firstPage 0
  Page.setGroupSize lastPage 0

/-- `splitGroup`. -/
def splitGroup (group size : ℕ) : MemM (ℕ × ℕ) := do
  assert (group ≠ 0)
  assert (size ≠ 0)
  let groupSize ← Page.groupSize group
  assert (size ≤ groupSize)
  if size = groupSize then return (group, 0)
  let secondSize := Word.sub groupSize size
  clearGroup group
  let firstGroup := group
  let secondGroup := Page.plus group size
  initGroup firstGroup size
  initGroup secondGroup secondSize
  return (firstGroup, secondGroup)

/-- `joinGroup`. -/
def joinGroup (firstGroup secondGroup : ℕ) : MemM ℕ := do
  assert (firstGroup ≠ 0)
  assert (secondGroup ≠ 0)
  let joinedSize := Word.add (← Page.groupSize firstGroup) (← Page.groupSize secondGroup)
  clearGroup firstGroup
  clearGroup secondGroup
  initGroup firstGroup joinedSize
  return firstGroup

end Liballocator
