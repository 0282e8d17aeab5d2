import Liballocator.Platform
import Liballocator.Library.LinkedList

/-!
# `ListNode`: the intrusive list node

`ListNode<T>` is the base class of `Page`, `Zone` and `Chunk`: two pointers at the beginning of the
object.  `addToList` and `removeFromList` receive the address of a head variable (`addToListAt` and
`removeFromListAt`); most head variables are members of objects that are not in memory here, so the
rest of the model uses the functions that take the value of that variable and return its new value.

`addToList_spec` and `removeFromList_spec` connect the code to the list library: on any set of nodes
that do not overlap the code performs `Links.push` and `Links.unlink`, and it writes no other word.
-/

namespace Liballocator

open Program LinkedList

variable [Platform]

namespace ListNode

/-- `ListNode::initListNode`. -/
def initListNode (node : ℕ) : MemM PUnit := do
  store node 0 0
  store node 1 0

/-- `ListNode::next`. -/
def next (node : ℕ) : MemM ℕ := load node 0

/-- `ListNode::prev`. -/
def prev (node : ℕ) : MemM ℕ := load node 1

/-- `ListNode::addToList`; `list` is the value of the head variable. -/
def addToList (node list : ℕ) : MemM ℕ := do
  assert ((← next node) = 0)
  assert ((← prev node) = 0)
  if list ≠ 0 then
    store node 0 list
    store (← next node) 1 node
  return node

/-- `ListNode::removeFromList`; `list` is the value of the head variable. -/
def removeFromList (node list : ℕ) : MemM ℕ := do
  assert (node = list ∨ (← next node) ≠ 0 ∨ (← prev node) ≠ 0)
  if (← next node) ≠ 0 then
    store (← next node) 1 (← prev node)
  if (← prev node) ≠ 0 then
    store (← prev node) 0 (← next node)
  let head ← if list = node then next node else pure list
  store node 0 0
  store node 1 0
  return head

/-- `ListNode::addToList` on the head variable at the address `list`. -/
def addToListAt (node list : ℕ) : MemM PUnit := do
  assert (list ≠ 0)
  assert ((← next node) = 0)
  assert ((← prev node) = 0)
  if (← load list 0) ≠ 0 then
    store node 0 (← load list 0)
    store (← next node) 1 node
  store list 0 node

/-- `ListNode::removeFromList` on the head variable at the address `list`. -/
def removeFromListAt (node list : ℕ) : MemM PUnit := do
  assert (list ≠ 0)
  assert (node = (← load list 0) ∨ (← next node) ≠ 0 ∨ (← prev node) ≠ 0)
  if (← next node) ≠ 0 then
    store (← next node) 1 (← prev node)
  if (← prev node) ≠ 0 then
    store (← prev node) 0 (← next node)
  if (← load list 0) = node then
    store list 0 (← next node)
  store node 0 0
  store node 1 0

end ListNode

/-! ### The nodes of a memory -/

/-- The links that the memory stores in its nodes. -/
def links (m : Mem) : Links ℕ where
  next a := m a
  prev a := m (a + wordBytes)

@[simp] theorem links_next (m : Mem) (a : ℕ) : (links m).next a = m a := rfl

@[simp] theorem links_prev (m : Mem) (a : ℕ) : (links m).prev a = m (a + wordBytes) := rfl

/-- No node of `S` starts in the second word of another one. -/
def NodesApart (S : Set ℕ) : Prop := ∀ a ∈ S, ∀ b ∈ S, a + wordBytes ≠ b

/-- The words that hold the links of the nodes of `S`. -/
def linkWords (S : Set ℕ) : Set ℕ := {a | ∃ n ∈ S, a = n ∨ a = n + wordBytes}

namespace ListNode

@[simp] theorem wp_next {node : ℕ} {Q : ℕ → Mem → Prop} {m : Mem} :
    wp (next node) Q m ↔ node ≠ 0 ∧ Q (m node) m := by
  simp [next]

@[simp] theorem wp_prev {node : ℕ} {Q : ℕ → Mem → Prop} {m : Mem} :
    wp (prev node) Q m ↔ node ≠ 0 ∧ Q (m (node + wordBytes)) m := by
  simp [prev]

/-- `initListNode` clears both links and writes nothing else. -/
theorem initListNode_spec {node : ℕ} {m : Mem} (hn : node ≠ 0) :
    wp (initListNode node) (fun _ m' => m' node = 0 ∧ m' (node + wordBytes) = 0 ∧
      ∀ a ∉ linkWords {node}, m' a = m a) m := by
  have hw := wordBytes_pos
  simp only [initListNode, wp_bind, wp_store, Nat.zero_mul, Nat.add_zero, Nat.one_mul]
  refine ⟨hn, hn, ?_, ?_, fun a ha => ?_⟩
  · rw [Function.update_of_ne (by omega), Function.update_self]
  · rw [Function.update_self]
  · simp only [linkWords, Set.mem_singleton_iff, exists_eq_left, Set.mem_ofPred_eq, not_or] at ha
    rw [Function.update_of_ne ha.2, Function.update_of_ne ha.1]

/-- `addToList` on an unlinked node performs the list update `Links.push` on every set of separate
nodes that contains the node and the old head. -/
theorem addToList_spec {node list : ℕ} {m : Mem} {S : Set ℕ} (hS : NodesApart S) (hnS : node ∈ S)
    (hlS : list ≠ 0 → list ∈ S) (hn : node ≠ 0) (hnext : m node = 0)
    (hprev : m (node + wordBytes) = 0) :
    wp (addToList node list) (fun r m' => r = node ∧
      (∀ a ∈ S, (links m').next a = ((links m).push node list).next a ∧
        (links m').prev a = ((links m).push node list).prev a) ∧
      ∀ a ∉ linkWords S, m' a = m a) m := by
  have hw := wordBytes_pos
  simp only [addToList, wp_bind, wp_next, wp_prev, wp_assert, wp_ite, wp_store, wp_pure,
    Nat.zero_mul, Nat.add_zero, Nat.one_mul]
  refine ⟨hn, hnext, hn, hprev, fun hl => ?_, fun hl => ?_⟩
  · have hl' : list ≠ 0 := hl
    refine ⟨hn, hn, ?_⟩
    rw [Function.update_self]
    refine ⟨hl', trivial, fun a ha => ?_, fun a ha => ?_⟩
    · have hne : a ≠ list + wordBytes := fun e => hS list (hlS hl') a ha e.symm
      have hnn : a + wordBytes ≠ node := hS a ha node hnS
      simp only [links_next, links_prev, Links.push, if_neg hl', Function.update_apply,
        if_neg hne, if_neg hnn, Nat.add_right_cancel_iff]
      exact ⟨trivial, trivial⟩
    · simp only [linkWords, Set.mem_ofPred_eq, not_exists, not_and, not_or] at ha
      rw [Function.update_of_ne (ha list (hlS hl')).2, Function.update_of_ne (ha node hnS).1]
  · have hl' : list = 0 := not_not.mp hl
    simp [Links.push, hl']

/-- The memory after the two neighbours of `node` have been linked with each other. -/
private def bypass (m : Mem) (node : ℕ) : Mem :=
  let m₁ := if m node = 0 then m
    else Function.update m (m node + wordBytes) (m (node + wordBytes))
  if m (node + wordBytes) = 0 then m₁ else Function.update m₁ (m (node + wordBytes)) (m node)

/-- The run of `removeFromList` on a node whose neighbours do not overlap it. -/
private theorem removeFromList_run {node list : ℕ} {m : Mem} (hn : node ≠ 0)
    (hhead : node = list ∨ m node ≠ 0 ∨ m (node + wordBytes) ≠ 0)
    (hnx : m node ≠ 0 → node ≠ m node + wordBytes ∧ m node ≠ node)
    (hpv : m (node + wordBytes) ≠ 0 →
      m (node + wordBytes) ≠ node ∧ node + wordBytes ≠ m (node + wordBytes)) :
    wp (removeFromList node list) (fun r m' => r = (if list = node then m node else list) ∧
      m' = Function.update (Function.update (bypass m node) node 0) (node + wordBytes) 0) m := by
  simp only [removeFromList, wp_bind, wp_next, wp_prev, wp_assert, wp_ite, wp_store, wp_pure,
    Nat.zero_mul, Nat.add_zero, Nat.one_mul]
  refine ⟨hn, hn, hhead, hn, fun h₁ => ?_, fun h₁ => ?_⟩
  · obtain ⟨e₁, e₂⟩ := hnx h₁
    have e₃ : node + wordBytes ≠ m node + wordBytes := by omega
    simp only [Function.update_of_ne e₁, Function.update_of_ne e₃]
    refine ⟨hn, hn, h₁, hn, fun h₂ => ?_, fun h₂ => ?_⟩
    · rcases eq_or_ne list node with hl | hl <;>
        simp [bypass, h₁, h₂, hn, hl, Function.update_of_ne (hpv h₂).1.symm, Function.update_of_ne e₁]
    · rcases eq_or_ne list node with hl | hl <;> simp [bypass, h₁, not_not.mp h₂, hn, hl]
  · refine ⟨hn, fun h₂ => ?_, fun h₂ => ?_⟩
    · rcases eq_or_ne list node with hl | hl <;>
        simp [bypass, not_not.mp h₁, h₂, hn, hl, Function.update_of_ne (hpv h₂).1.symm]
    · rcases eq_or_ne list node with hl | hl <;>
        simp [bypass, not_not.mp h₁, not_not.mp h₂, hn, hl]

/-- `removeFromList` of a node of a list performs the list update `Links.unlink` on every set of
separate nodes that contains the list, and the new head is the one of the shortened list. -/
theorem removeFromList_spec {node list : ℕ} {m : Mem} {S : Set ℕ} {xs ys : List ℕ}
    (hS : NodesApart S) (hl : IsList (links m) list (xs ++ node :: ys))
    (hsub : ∀ a ∈ xs ++ node :: ys, a ∈ S) :
    wp (removeFromList node list) (fun r m' =>
      r = (if list = node then m node else list) ∧
      (∀ a ∈ S, (links m').next a = ((links m).unlink node).next a ∧
        (links m').prev a = ((links m).unlink node).prev a) ∧
      ∀ a ∉ linkWords S, m' a = m a) m := by
  have hnS : node ∈ S := hsub node (by simp)
  have hnd := hl.nodup
  have hhead : node = list ∨ m node ≠ 0 ∨ m (node + wordBytes) ≠ 0 := hl.head_or_link
  obtain ⟨hnb, hpb⟩ := hl.neighbours_mem
  simp only [links_next, links_prev] at hnb hpb
  -- the neighbours are other nodes of the same list
  have hnx : m node ≠ 0 → m node ∈ S ∧ m node ≠ node := by
    intro h0
    have hmem := hnb.resolve_left h0
    refine ⟨hsub _ (by simp [hmem]), fun e => ?_⟩
    rw [e] at hmem
    exact (List.nodup_cons.mp (List.nodup_append.mp hnd).2.1).1 hmem
  have hpv : m (node + wordBytes) ≠ 0 → m (node + wordBytes) ∈ S ∧ m (node + wordBytes) ≠ node := by
    intro h0
    have hmem := hpb.resolve_left h0
    refine ⟨hsub _ (by simp [hmem]), fun e => ?_⟩
    rw [e] at hmem
    exact (List.nodup_append.mp hnd).2.2 _ hmem _ (by simp) rfl
  refine (removeFromList_run (hl.ne_zero (by simp)) hhead
    (fun h0 => ⟨fun e => hS _ (hnx h0).1 _ hnS e.symm, (hnx h0).2⟩)
    fun h0 => ⟨(hpv h0).2, hS _ hnS _ (hpv h0).1⟩).mono ?_
  rintro r m' ⟨hr, rfl⟩
  refine ⟨hr, fun a ha => ?_, fun a ha => ?_⟩
  · have e₁ : a ≠ node + wordBytes := (hS _ hnS _ ha).symm
    have e₂ : a + wordBytes ≠ node := hS _ ha _ hnS
    have e₃ : m node ≠ 0 → a ≠ m node + wordBytes := fun h0 => (hS _ (hnx h0).1 _ ha).symm
    have e₄ : m (node + wordBytes) ≠ 0 → a + wordBytes ≠ m (node + wordBytes) :=
      fun h0 => hS _ ha _ (hpv h0).1
    simp only [links_next, links_prev, Links.unlink, Function.update_apply, bypass, if_neg e₁,
      if_neg e₂, Nat.add_right_cancel_iff]
    by_cases h₁ : m node = 0 <;> by_cases h₂ : m (node + wordBytes) = 0 <;>
      simp [h₁, h₂, e₃, e₄, Function.update_apply]
  · simp only [linkWords, Set.mem_ofPred_eq, not_exists, not_and, not_or] at ha
    rw [Function.update_of_ne (ha node hnS).2, Function.update_of_ne (ha node hnS).1]
    unfold bypass
    split_ifs with h₁ h₂ h₂
    · rfl
    · exact Function.update_of_ne (ha _ (hnx h₂).1).2 _ _
    · exact Function.update_of_ne (ha _ (hpv h₁).1).1 _ _
    · rw [Function.update_of_ne (ha _ (hpv h₁).1).1, Function.update_of_ne (ha _ (hnx h₂).1).2]

/-! ### Whole lists -/

variable {node list : ℕ} {xs ys : List ℕ} {m : Mem}

/-- `addToList` puts an unlinked node in front of a list. -/
theorem addToList_isList (hl : IsList (links m) list xs) (hS : NodesApart {x | x ∈ node :: xs})
    (hn : node ≠ 0) (hnx : node ∉ xs) (hnext : m node = 0) (hprev : m (node + wordBytes) = 0) :
    wp (addToList node list) (fun r m' => r = node ∧ IsList (links m') node (node :: xs) ∧
      ∀ a ∉ linkWords {x | x ∈ node :: xs}, m' a = m a) m := by
  have hhead : list ≠ 0 → list ∈ {x | x ∈ node :: xs} := by
    intro h0
    cases xs with
    | nil => exact absurd (isList_nil_iff.mp hl) h0
    | cons x xs =>
      rw [hl.head_eq]
      exact List.mem_cons_of_mem _ List.mem_cons_self
  apply (addToList_spec hS List.mem_cons_self hhead hn hnext hprev).mono
  rintro _ m' ⟨rfl, hlinks, hframe⟩
  exact ⟨rfl, (hl.push hn hnx hnext hprev).congr (fun x hx => (hlinks x hx).1)
    fun x hx => (hlinks x hx).2, hframe⟩

/-- `removeFromList` takes a node out of its list and clears its links. -/
theorem removeFromList_isList (hl : IsList (links m) list (xs ++ node :: ys))
    (hS : NodesApart {x | x ∈ xs ++ node :: ys}) :
    wp (removeFromList node list) (fun r m' => IsList (links m') r (xs ++ ys) ∧
      m' node = 0 ∧ m' (node + wordBytes) = 0 ∧
      ∀ a ∉ linkWords {x | x ∈ xs ++ node :: ys}, m' a = m a) m := by
  have hnode : node ∈ xs ++ node :: ys := by simp
  refine (removeFromList_spec hS hl fun a ha => ha).mono ?_
  rintro _ m' ⟨rfl, hlinks, hframe⟩
  obtain ⟨hnext, hprev⟩ := hlinks node hnode
  have hsub : ∀ x ∈ xs ++ ys, x ∈ xs ++ node :: ys := by
    intro x hx
    rcases List.mem_append.mp hx with hx | hx
    · exact List.mem_append_left _ hx
    · exact List.mem_append_right _ (List.mem_cons_of_mem _ hx)
  refine ⟨hl.unlink.congr (fun x hx => (hlinks x (hsub x hx)).1)
    fun x hx => (hlinks x (hsub x hx)).2, ?_, ?_, hframe⟩
  · exact hnext.trans Links.unlink_self.1
  · exact hprev.trans Links.unlink_self.2

end ListNode

end Liballocator
