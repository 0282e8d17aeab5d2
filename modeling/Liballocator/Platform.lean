import Liballocator.Library.Program
import Mathlib.Tactic.Ring
import Mathlib.Tactic.SplitIfs

/-!
# The machine: word size, arithmetic and memory

The allocator is compiled for machines with 32-bit and with 64-bit words.  `Platform` fixes the
size of a word, `Word.add`, `Word.sub`, `Word.mul` and `Word.not` are the modular operations of
`std::size_t` and `std::uintptr_t`.

Memory is a map from addresses to words.  Every object the allocator keeps in memory (`ListNode`,
`Page`, `Zone`) is a sequence of words, so a field is the word at `base + k * wordBytes`.  The
allocator's own static objects are outside of the memory it manages: the only one that is reached
through pointers, `ZoneAllocator::m_initialZone`, is placed right behind the address space.
-/

namespace Liballocator

open Program

/-- The machine the allocator is compiled for: the size of a pointer (of `std::size_t`, of
`std::uintptr_t`) is four or eight bytes. -/
class Platform where
  /-- Size of a word in bytes. -/
  wordBytes : ℕ
  /-- Words are 32 or 64 bits wide. -/
  wordBytes_eq : wordBytes = 4 ∨ wordBytes = 8

/-- A 32-bit machine. -/
@[reducible] def ilp32 : Platform := ⟨4, Or.inl rfl⟩

/-- A 64-bit machine. -/
@[reducible] def lp64 : Platform := ⟨8, Or.inr rfl⟩

/-- The ways in which the code stops instead of returning. -/
inductive Fault
  /-- A failed `assert`. -/
  | assertion
  /-- Access to an object through a null pointer. -/
  | nullPointer
  /-- `std::array::at` with an index out of range. -/
  | outOfRange
  /-- A loop or a recursion that is still running after `loopBound` rounds. -/
  | endless
  deriving DecidableEq, Repr

section Arithmetic

variable [Platform]

export Platform (wordBytes)

/-- Number of bits of a word. -/
def width : ℕ := 8 * wordBytes

/-- `a + b` on `std::size_t`. -/
def Word.add (a b : ℕ) : ℕ := (a + b) % 2 ^ width

/-- `a - b` on `std::size_t`. -/
def Word.sub (a b : ℕ) : ℕ := (a + (2 ^ width - b % 2 ^ width)) % 2 ^ width

/-- `a * b` on `std::size_t`. -/
def Word.mul (a b : ℕ) : ℕ := a * b % 2 ^ width

/-- `~a` on `std::size_t`. -/
def Word.not (a : ℕ) : ℕ := 2 ^ width - 1 - a

/-- Bound on the rounds of the loops whose end depends on data: a run that needs more of them
than there are addresses does not end. -/
def loopBound : ℕ := 2 ^ width

/-- `sizeof(ListNode<T>)`: two pointers. -/
def sizeofListNode : ℕ := 2 * wordBytes

/-- `sizeof(Page)`: the list node, the address and the flags. -/
def sizeofPage : ℕ := 4 * wordBytes

/-- `sizeof(Zone)`: the list node and five further words. -/
def sizeofZone : ℕ := 7 * wordBytes

/-- Address of the static object `ZoneAllocator::m_initialZone`. -/
def initialZone : ℕ := 2 ^ width

/-- Words are not empty. -/
theorem wordBytes_pos : 0 < wordBytes := by
  rcases Platform.wordBytes_eq with h | h <;> omega

/-- The two address spaces: the word size with the matching power of two. -/
theorem width_cases : (wordBytes = 4 ∧ 2 ^ width = 4294967296) ∨
    (wordBytes = 8 ∧ 2 ^ width = 18446744073709551616) := by
  rcases Platform.wordBytes_eq with h | h
  · exact Or.inl ⟨h, by rw [width, h]; rfl⟩
  · exact Or.inr ⟨h, by rw [width, h]; rfl⟩

/-- The number of the words is positive. -/
theorem two_pow_width_pos : 0 < 2 ^ width := Nat.two_pow_pos _

/-- Every quantity below `2 ^ 32` fits in a word. -/
theorem two_pow_32_le : 2 ^ 32 ≤ 2 ^ width := by
  rcases width_cases with ⟨-, h⟩ | ⟨-, h⟩ <;> omega

/-- A sum that does not overflow. -/
theorem Word.add_eq {a b : ℕ} (h : a + b < 2 ^ width) : Word.add a b = a + b :=
  Nat.mod_eq_of_lt h

/-- A difference that does not wrap around. -/
theorem Word.sub_eq {a b : ℕ} (h : b ≤ a) (ha : a < 2 ^ width) : Word.sub a b = a - b := by
  rw [Word.sub, Nat.mod_eq_of_lt (h.trans_lt ha)]
  have : a + (2 ^ width - b) = a - b + 2 ^ width := by omega
  rw [this, Nat.add_mod_right, Nat.mod_eq_of_lt (by omega)]

/-- A product that does not overflow. -/
theorem Word.mul_eq {a b : ℕ} (h : a * b < 2 ^ width) : Word.mul a b = a * b :=
  Nat.mod_eq_of_lt h

/-- A sum is a word. -/
theorem Word.add_lt (a b : ℕ) : Word.add a b < 2 ^ width := Nat.mod_lt _ two_pow_width_pos

/-- A difference is a word. -/
theorem Word.sub_lt (a b : ℕ) : Word.sub a b < 2 ^ width := Nat.mod_lt _ two_pow_width_pos

end Arithmetic

/-! ### Memory -/

/-- Contents of the memory: the word at each address. -/
abbrev Mem := ℕ → ℕ

/-- Code that only works on memory. -/
abbrev MemM (α : Type) := StateT Mem (Except Fault) α

/-- `assert(p)`. -/
def assert {σ : Type} (p : Prop) [Decidable p] : StateT σ (Except Fault) PUnit :=
  if p then pure ⟨⟩ else throw Fault.assertion

/-- The rule for `assert`. -/
@[simp] theorem wp_assert {σ : Type} {p : Prop} [Decidable p] {Q : PUnit → σ → Prop} {s : σ} :
    wp (assert p) Q s ↔ p ∧ Q ⟨⟩ s := by
  rw [assert, wp_ite, wp_pure, wp_throw]
  by_cases hp : p <;> simp [hp]

/-- The rule for `assert`, when only runs that return count. -/
@[simp] theorem wlp_assert {σ : Type} {p : Prop} [Decidable p] {Q : PUnit → σ → Prop} {s : σ} :
    wlp (assert p) Q s ↔ (p → Q ⟨⟩ s) := by
  rw [assert, wlp_ite, wlp_pure, wlp_throw]
  exact ⟨fun h => h.1, fun h => ⟨h, fun _ => trivial⟩⟩

section Access

variable [Platform]

/-- Read field number `k` of the object at `base`. -/
def load (base k : ℕ) : MemM ℕ := do
  if base = 0 then throw Fault.nullPointer
  return (← get) (base + k * wordBytes)

/-- Write field number `k` of the object at `base`. -/
def store (base k v : ℕ) : MemM PUnit := do
  if base = 0 then throw Fault.nullPointer
  modify fun m => Function.update m (base + k * wordBytes) v

/-- The rule for reading a field. -/
@[simp] theorem wp_load {base k : ℕ} {Q : ℕ → Mem → Prop} {m : Mem} :
    wp (load base k) Q m ↔ base ≠ 0 ∧ Q (m (base + k * wordBytes)) m := by
  rw [load]
  by_cases h : base = 0 <;> simp [h]

/-- The rule for writing a field. -/
@[simp] theorem wp_store {base k v : ℕ} {Q : PUnit → Mem → Prop} {m : Mem} :
    wp (store base k v) Q m ↔
      base ≠ 0 ∧ Q ⟨⟩ (Function.update m (base + k * wordBytes) v) := by
  rw [store]
  by_cases h : base = 0 <;> simp [h]

end Access

end Liballocator
