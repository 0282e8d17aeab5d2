import Liballocator.ListNode

/-!
# Heaps of list nodes

A heap holds the nodes of any number of lists together with nodes that are on no list, and for each
list a head variable.  All of them are separate objects (`Placed`); each head variable leads to a
well-formed list, and no node is on two lists (`NodeHeap`).  `addToList` and `removeFromList` change
the one list and leave the others alone.
-/

namespace Liballocator

open Program LinkedList

section Heaps

variable [Platform] {ι : Type} {S : Set ℕ} {head : ι → ℕ} {lists : ι → List ℕ} {m : Mem} {n : ℕ}

/-- The nodes of `S` and the head variables are separate objects. -/
structure Placed (S : Set ℕ) (head : ι → ℕ) : Prop where
  node_ne_zero : ∀ a ∈ S, a ≠ 0
  head_ne_zero : ∀ i, head i ≠ 0
  nodes : ∀ a ∈ S, ∀ b ∈ S, a ≠ b → a + sizeofListNode ≤ b ∨ b + sizeofListNode ≤ a
  heads : ∀ i j, i ≠ j → head i + wordBytes ≤ head j ∨ head j + wordBytes ≤ head i
  apart : ∀ i, ∀ a ∈ S, head i + wordBytes ≤ a ∨ a + sizeofListNode ≤ head i

/-- The head variables lead to well-formed lists of nodes that have no node in common. -/
structure NodeHeap (S : Set ℕ) (head : ι → ℕ) (lists : ι → List ℕ) (m : Mem) : Prop where
  placed : Placed S head
  subset : ∀ i, ∀ a ∈ lists i, a ∈ S
  wellFormed : ∀ i, WellFormed (links m) (m (head i)) (lists i)
  disjoint : ∀ i j, i ≠ j → (lists i).Disjoint (lists j)

namespace Placed

variable (h : Placed S head)
include h

/-- The links of different nodes do not overlap. -/
theorem nodesApart : NodesApart S := by
  intro a ha b hb he
  have hw := wordBytes_pos
  have hsize : sizeofListNode = 2 * wordBytes := rfl
  by_cases hab : a = b
  · omega
  · have := h.nodes a ha b hb hab
    omega

/-- A head variable is no link of a node. -/
theorem head_notMem (i : ι) : head i ∉ linkWords S := by
  rintro ⟨a, ha, he⟩
  have hw := wordBytes_pos
  have hsize : sizeofListNode = 2 * wordBytes := rfl
  have := h.apart i a ha
  omega

/-- The heads of the lists are no links. -/
theorem ne_head {a : ℕ} (ha : a ∈ linkWords S) (i : ι) : a ≠ head i :=
  fun e => h.head_notMem i (e ▸ ha)

/-- Different lists have different heads. -/
theorem head_inj {i j : ι} (hij : i ≠ j) : head i ≠ head j := by
  have hw := wordBytes_pos
  have := h.heads i j hij
  omega

end Placed

/-- The first word of a node is a link. -/
theorem mem_linkWords_next {a : ℕ} (ha : a ∈ S) : a ∈ linkWords S := ⟨a, ha, Or.inl rfl⟩

/-- The second word of a node is a link. -/
theorem mem_linkWords_prev {a : ℕ} (ha : a ∈ S) : a + wordBytes ∈ linkWords S :=
  ⟨a, ha, Or.inr rfl⟩

namespace ListNode

variable {Q : PUnit → Mem → Prop} {list : ℕ}

/-- On a head variable that is no link of a node, `addToList` stores what it computes from the
value of the variable. -/
theorem wp_addToListAt (hlist : list ≠ 0)
    (h : wp (addToList n (m list)) (fun r m' => Q ⟨⟩ (Function.update m' list r)) m) :
    wp (addToListAt n list) Q m := by
  simp only [addToList, addToListAt, wp_bind, wp_next, wp_prev, wp_assert, wp_ite, wp_store,
    wp_pure, wp_load, Nat.zero_mul, Nat.add_zero, Nat.one_mul] at h ⊢
  obtain ⟨hn, hnext, -, hprev, hpos, hneg⟩ := h
  refine ⟨hlist, hn, hnext, hn, hprev, hlist, fun h0 => ?_, fun h0 => ?_⟩
  · obtain ⟨-, -, hs, hQ⟩ := hpos h0
    exact ⟨hlist, hn, hn, hs, hlist, hQ⟩
  · exact ⟨hlist, hneg h0⟩

/-- The end of `removeFromList`, behind the changes at the neighbours. -/
private def finishRemove (node list : ℕ) : MemM ℕ := do
  let head ← if list = node then next node else pure list
  store node 0 0
  store node 1 0
  return head

/-- The end of `removeFromList` on a head variable. -/
private def finishRemoveAt (node list : ℕ) : MemM PUnit := do
  if (← load list 0) = node then
    store list 0 (← next node)
  store node 0 0
  store node 1 0

/-- `removeFromList` ends with `finishRemove`. -/
private theorem removeFromList_eq (node list : ℕ) : removeFromList node list = (do
    assert (node = list ∨ (← next node) ≠ 0 ∨ (← prev node) ≠ 0)
    if (← next node) ≠ 0 then
      store (← next node) 1 (← prev node)
    if (← prev node) ≠ 0 then
      store (← prev node) 0 (← next node)
    finishRemove node list) := rfl

/-- `removeFromListAt` ends with `finishRemoveAt`. -/
private theorem removeFromListAt_eq (node list : ℕ) : removeFromListAt node list = (do
    assert (list ≠ 0)
    assert (node = (← load list 0) ∨ (← next node) ≠ 0 ∨ (← prev node) ≠ 0)
    if (← next node) ≠ 0 then
      store (← next node) 1 (← prev node)
    if (← prev node) ≠ 0 then
      store (← prev node) 0 (← next node)
    finishRemoveAt node list) := rfl

/-- The rule for the end of `removeFromListAt`, given that for a head by value. -/
private theorem wp_finishRemoveAt {m₁ : Mem} (hlist : list ≠ 0) (h₁ : list ≠ n)
    (h₂ : list ≠ n + wordBytes)
    (h : wp (finishRemove n (m₁ list)) (fun r m' => Q ⟨⟩ (Function.update m' list r)) m₁) :
    wp (finishRemoveAt n list) Q m₁ := by
  simp only [finishRemove, finishRemoveAt, wp_bind, wp_next, wp_ite, wp_store, wp_pure, wp_load,
    Nat.zero_mul, Nat.add_zero, Nat.one_mul] at h ⊢
  refine ⟨hlist, fun he => ?_, fun he => ?_⟩
  · obtain ⟨hn, -, -, hQ⟩ := h.1 he
    refine ⟨hn, hlist, hn, hn, ?_⟩
    rwa [Function.update_comm h₁, Function.update_comm h₂]
  · obtain ⟨hn, -, hQ⟩ := h.2 he
    refine ⟨hn, hn, ?_⟩
    -- the head variable keeps its value
    rwa [Function.update_eq_self_iff.mpr ?_] at hQ
    rw [Function.update_of_ne h₂, Function.update_of_ne h₁]

/-- On a head variable that is no link of the node or its neighbours, `removeFromList` stores what
it computes from the value of the variable. -/
theorem wp_removeFromListAt (hlist : list ≠ 0) (h₁ : list ≠ n) (h₂ : list ≠ n + wordBytes)
    (h₃ : m n ≠ 0 → list ≠ m n + wordBytes) (h₄ : m (n + wordBytes) ≠ 0 → list ≠ m (n + wordBytes))
    (hnx : m n ≠ 0 → n + wordBytes ≠ m n + wordBytes)
    (h : wp (removeFromList n (m list)) (fun r m' => Q ⟨⟩ (Function.update m' list r)) m) :
    wp (removeFromListAt n list) Q m := by
  have hfinish : ∀ m₁ : Mem, m₁ list = m list →
      wp (finishRemove n (m list)) (fun r m' => Q ⟨⟩ (Function.update m' list r)) m₁ →
      wp (finishRemoveAt n list) Q m₁ := fun m₁ he hw =>
    wp_finishRemoveAt hlist h₁ h₂ (he ▸ hw)
  rw [removeFromList_eq] at h
  rw [removeFromListAt_eq]
  simp only [wp_bind, wp_next, wp_prev, wp_assert, wp_ite, wp_store, wp_load, Nat.zero_mul,
    Nat.add_zero, Nat.one_mul] at h ⊢
  obtain ⟨hn, -, hassert, -, hpos, hneg⟩ := h
  refine ⟨hlist, hlist, hn, hn, hassert, hn, fun h0 => ?_, fun h0 => ?_⟩
  · obtain ⟨-, -, -, -, hpp, hpn⟩ := hpos h0
    rw [Function.update_of_ne (hnx h0)] at hpp hpn ⊢
    refine ⟨hn, hn, h0, hn, fun hp => ?_, fun hp => ?_⟩
    · obtain ⟨-, -, -, hw⟩ := hpp hp
      refine ⟨hn, hn, hp, hfinish _ ?_ hw⟩
      rw [Function.update_of_ne (h₄ hp), Function.update_of_ne (h₃ h0)]
    · exact hfinish _ (Function.update_of_ne (h₃ h0) _ _) (hpn hp)
  · obtain ⟨-, hpp, hpn⟩ := hneg h0
    refine ⟨hn, fun hp => ?_, fun hp => hfinish _ rfl (hpn hp)⟩
    obtain ⟨-, -, -, hw⟩ := hpp hp
    exact ⟨hn, hn, hp, hfinish _ (Function.update_of_ne (h₄ hp) _ _) hw⟩

end ListNode

namespace NodeHeap

/-- Each head is followed by the nodes of its list. -/
theorem isList (h : NodeHeap S head lists m) (i : ι) : IsList (links m) (m (head i)) (lists i) :=
  isList_iff_wellFormed.mpr (h.wellFormed i)

variable [DecidableEq ι] {i : ι}

/-- One list and its head variable change, the other lists survive. -/
theorem step (h : NodeHeap S head lists m) {m' : Mem} {r : ℕ} {xs : List ℕ}
    (hlist : IsList (links m') r xs) (hsub : ∀ a ∈ xs, a ∈ S)
    (hdis : ∀ j, j ≠ i → xs.Disjoint (lists j))
    (hother : ∀ j, j ≠ i → IsList (links m') (m (head j)) (lists j))
    (hframe : ∀ a ∉ linkWords S, m' a = m a) :
    NodeHeap S head (Function.update lists i xs) (Function.update m' (head i) r) := by
  have hkeep : ∀ a ∈ linkWords S, Function.update m' (head i) r a = m' a := fun a ha =>
    Function.update_of_ne (h.placed.ne_head ha i) _ _
  refine ⟨h.placed, fun j a ha => ?_, fun j => ?_, fun j k hjk => ?_⟩
  · by_cases hj : j = i
    · subst hj
      rw [Function.update_self] at ha
      exact hsub a ha
    · rw [Function.update_of_ne hj] at ha
      exact h.subset j a ha
  · rw [← isList_iff_wellFormed]
    by_cases hj : j = i
    · subst hj
      rw [Function.update_self, Function.update_self]
      exact hlist.congr (fun a ha => hkeep _ (mem_linkWords_next (hsub a ha)))
        fun a ha => hkeep _ (mem_linkWords_prev (hsub a ha))
    · rw [Function.update_of_ne hj, Function.update_of_ne (h.placed.head_inj hj),
        hframe _ (h.placed.head_notMem j)]
      exact (hother j hj).congr (fun a ha => hkeep _ (mem_linkWords_next (h.subset j a ha)))
        fun a ha => hkeep _ (mem_linkWords_prev (h.subset j a ha))
  · by_cases hj : j = i
    · subst hj
      rw [Function.update_self, Function.update_of_ne hjk.symm]
      exact hdis k hjk.symm
    · rw [Function.update_of_ne hj]
      by_cases hk : k = i
      · subst hk
        rw [Function.update_self]
        exact List.disjoint_symm (hdis j hj)
      · rw [Function.update_of_ne hk]
        exact h.disjoint j k hjk

/-- An unlinked node is put in front of a list. -/
theorem addToListAt (h : NodeHeap S head lists m) (hn : n ∈ S) (hnext : m n = 0)
    (hprev : m (n + wordBytes) = 0) (hfree : ∀ j, n ∉ lists j) :
    wp (ListNode.addToListAt n (head i)) (fun _ m' =>
      NodeHeap S head (Function.update lists i (n :: lists i)) m') m := by
  have hn0 := h.placed.node_ne_zero n hn
  have hhead : m (head i) ≠ 0 → m (head i) ∈ S := by
    intro h0
    have hl := h.isList i
    cases hxs : lists i with
    | nil => exact absurd (isList_nil_iff.mp (hxs ▸ hl)) h0
    | cons x xs =>
      rw [hxs] at hl
      rw [hl.head_eq]
      exact h.subset i x (hxs ▸ List.mem_cons_self)
  refine ListNode.wp_addToListAt (h.placed.head_ne_zero i)
    ((ListNode.addToList_spec h.placed.nodesApart hn hhead hn0 hnext hprev).mono ?_)
  rintro r m' ⟨hr, hlinks, hframe⟩
  rw [hr]
  have hsub : ∀ a ∈ n :: lists i, a ∈ S := by
    intro a ha
    rcases List.mem_cons.mp ha with rfl | ha
    · exact hn
    · exact h.subset i a ha
  refine h.step ?_ hsub (fun j hj => ?_) (fun j hj => ?_) hframe
  · exact ((h.isList i).push hn0 (hfree i) hnext hprev).congr (fun a ha => (hlinks a (hsub a ha)).1)
      fun a ha => (hlinks a (hsub a ha)).2
  · exact List.disjoint_cons_left.mpr ⟨hfree j, h.disjoint i j hj.symm⟩
  · have hdis : ∀ z ∈ lists j, z ∉ lists i := fun z hz hz' => h.disjoint j i hj hz hz'
    exact ((h.isList i).push_other (h.isList j) (hfree j) hdis).congr
      (fun a ha => (hlinks a (h.subset j a ha)).1) fun a ha => (hlinks a (h.subset j a ha)).2

/-- A node is taken out of its list, wherever it stands there. -/
theorem removeFromListAt (h : NodeHeap S head lists m) (hn : n ∈ lists i) :
    wp (ListNode.removeFromListAt n (head i)) (fun _ m' =>
      NodeHeap S head (Function.update lists i ((lists i).erase n)) m' ∧
        m' n = 0 ∧ m' (n + wordBytes) = 0) m := by
  have hnS := h.subset i n hn
  have hsub := h.subset i
  have hl := h.isList i
  have hnd := hl.nodup
  have hhead : ∀ {a}, a ∈ linkWords S → a ≠ head i := fun ha => h.placed.ne_head ha i
  have hdis : ∀ j, j ≠ i → ((lists i).erase n).Disjoint (lists j) := fun j hj =>
    List.disjoint_of_subset_left List.erase_subset (h.disjoint i j hj.symm)
  have hother : ∀ j, j ≠ i → ∀ z ∈ lists j, z ∉ lists i := fun j hj z hz hz' =>
    h.disjoint j i hj hz hz'
  obtain ⟨xs, ys, hsplit⟩ := List.append_of_mem hn
  rw [hsplit] at hl hsub hnd hother
  have hnx : n ∉ xs := fun hx => (List.nodup_append.mp hnd).2.2 _ hx _ List.mem_cons_self rfl
  have hny : n ∉ ys := (List.nodup_cons.mp (List.nodup_append.mp hnd).2.1).1
  have herase : (lists i).erase n = xs ++ ys := by
    rw [hsplit, List.erase_append_right _ hnx, List.erase_cons_head]
  obtain ⟨hnb, hpb⟩ := hl.neighbours_mem
  simp only [links_next, links_prev] at hnb hpb
  have hnextS : m n ≠ 0 → m n ∈ S := fun h0 =>
    hsub _ (List.mem_append_right _ (List.mem_cons_of_mem n (hnb.resolve_left h0)))
  have hprevS : m (n + wordBytes) ≠ 0 → m (n + wordBytes) ∈ S := fun h0 =>
    hsub _ (List.mem_append_left _ (hpb.resolve_left h0))
  refine ListNode.wp_removeFromListAt (h.placed.head_ne_zero i)
    (hhead (mem_linkWords_next hnS)).symm (hhead (mem_linkWords_prev hnS)).symm
    (fun h0 => (hhead (mem_linkWords_prev (hnextS h0))).symm)
    (fun h0 => (hhead (mem_linkWords_next (hprevS h0))).symm)
    (fun h0 e => hny ((Nat.add_right_cancel e).symm ▸ hnb.resolve_left h0))
    ((ListNode.removeFromList_spec h.placed.nodesApart hl hsub).mono ?_)
  rintro _ m' ⟨rfl, hlinks, hframe⟩
  have hself := hlinks n hnS
  refine ⟨?_, ?_, ?_⟩
  · rw [herase] at hdis ⊢
    have hsub' : ∀ a ∈ xs ++ ys, a ∈ S := fun a ha =>
      h.subset i a (List.mem_of_mem_erase (herase ▸ ha))
    refine h.step ?_ hsub' hdis (fun j hj => ?_) hframe
    · exact hl.unlink.congr (fun a ha => (hlinks a (hsub' a ha)).1)
        fun a ha => (hlinks a (hsub' a ha)).2
    · exact (hl.unlink_other (h.isList j) (hother j hj)).congr
        (fun a ha => (hlinks a (h.subset j a ha)).1) fun a ha => (hlinks a (h.subset j a ha)).2
  · rw [Function.update_of_ne (hhead (mem_linkWords_next hnS))]
    exact hself.1.trans Links.unlink_self.1
  · rw [Function.update_of_ne (hhead (mem_linkWords_prev hnS))]
    exact hself.2.trans Links.unlink_self.2

/-- The operations refine those of mathematical lists: insertion in front and removal.  They return
without a failing assertion, and the other lists of the heap keep their nodes. -/
theorem refines_lists (h : NodeHeap S head lists m) (hn : n ∈ S) (i : ι) :
    (m n = 0 → m (n + wordBytes) = 0 → (∀ j, n ∉ lists j) →
      ∃ m', ListNode.addToListAt n (head i) m = .ok (⟨⟩, m') ∧
        NodeHeap S head (Function.update lists i (n :: lists i)) m') ∧
    (n ∈ lists i →
      ∃ m', ListNode.removeFromListAt n (head i) m = .ok (⟨⟩, m') ∧
        NodeHeap S head (Function.update lists i ((lists i).erase n)) m' ∧
        m' n = 0 ∧ m' (n + wordBytes) = 0) := by
  refine ⟨fun hnext hprev hfree => ?_, fun hmem => ?_⟩
  · obtain ⟨⟨⟩, m', hrun, h'⟩ := h.addToListAt (i := i) hn hnext hprev hfree
    exact ⟨m', hrun, h'⟩
  · obtain ⟨⟨⟩, m', hrun, h'⟩ := h.removeFromListAt hmem
    exact ⟨m', hrun, h'⟩

end NodeHeap

end Heaps

section Lp64

attribute [local instance] lp64

/-- A memory with the lists `[16, 32]` and `[48]`; their heads are stored at 8 and at 1000, and the
node 64 is on no list. -/
def twoLists : Mem := fun a =>
  if a = 8 then 16 else if a = 1000 then 48 else if a = 16 then 32 else if a = 40 then 16 else 0

/-- The addresses of the heads and the nodes of the two lists. -/
def twoHeads : Bool → ℕ
  | false => 8
  | true => 1000

/-- The nodes of two lists. -/
def twoNodes : Bool → List ℕ
  | false => [16, 32]
  | true => [48]

/-- The memory holds the two lists. -/
theorem twoLists_heap : NodeHeap {16, 32, 48, 64} twoHeads twoNodes twoLists := by
  have hw : sizeofListNode = 16 := rfl
  have hb : wordBytes = 8 := rfl
  refine ⟨⟨?_, by decide, ?_, by decide, ?_⟩, ?_, ?_, ?_⟩
  · rintro a (rfl | rfl | rfl | rfl) <;> omega
  · rw [hw]
    rintro a (rfl | rfl | rfl | rfl) b (rfl | rfl | rfl | rfl) hab <;> omega
  · rw [hw, hb]
    rintro (_ | _) a (rfl | rfl | rfl | rfl) <;> simp only [twoHeads] <;> omega
  · rintro (_ | _) a ha <;>
      simp only [twoNodes, List.mem_cons, List.not_mem_nil, or_false] at ha <;>
      simp only [Set.mem_insert_iff, Set.mem_singleton_iff] <;> omega
  · rintro (_ | _)
    · exact ⟨⟨rfl, by decide, rfl, by decide, rfl⟩, fun _ => rfl, by decide, by decide⟩
    · exact ⟨⟨rfl, by decide, rfl⟩, fun _ => rfl, by decide, by decide⟩
  · rintro (_ | _) (_ | _) hij <;> simp [twoNodes] at hij ⊢

/-- A node is added to the first list, and another one is removed from it. -/
theorem refines_twoLists :
    (∃ m', ListNode.addToListAt 64 (twoHeads false) twoLists = .ok (⟨⟩, m') ∧
      NodeHeap {16, 32, 48, 64} twoHeads
        (Function.update twoNodes false (64 :: twoNodes false)) m') ∧
    ∃ m', ListNode.removeFromListAt 32 (twoHeads false) twoLists = .ok (⟨⟩, m') ∧
      NodeHeap {16, 32, 48, 64} twoHeads
        (Function.update twoNodes false ((twoNodes false).erase 32)) m' ∧
      m' 32 = 0 ∧ m' (32 + wordBytes) = 0 :=
  ⟨(twoLists_heap.refines_lists (by simp) false).1 rfl rfl (by decide),
    (twoLists_heap.refines_lists (by simp) false).2 (by decide)⟩

end Lp64

end Liballocator
