import Mathlib.Data.List.Nodup
import Mathlib.Logic.Function.Basic
import Mathlib.Tactic.SplitIfs

/-!
# Intrusive doubly linked lists

The links of a set of nodes are two maps, `Links.next` and `Links.prev`, on an arbitrary type `α`
whose element `0` is the null pointer.  `Seg L p h xs q t` is the usual inductive description of a
piece of a list: starting at the pointer `h`, whose node is preceded by `p`, the traversal visits
the nodes `xs` and arrives at the pointer `t`, the last node before it being `q`.  A whole list with
head `h` is `IsList L h xs`: nothing comes before it and the traversal ends at the null pointer.

`WellFormed L h xs` says the same by the links alone: the forward traversal ends, the head has no
node before it, and `next` and `prev` are inverse to each other (`isList_iff_wellFormed`).

`Links.push` and `Links.unlink` are the two updates an intrusive list performs.  `IsList.push` and
`IsList.unlink` say what they do to the traversal, `IsList.congr` is the frame rule, and
`IsList.unique` says that the head determines the traversal.
-/

namespace LinkedList

variable {α : Type} [Zero α]

/-- The links of all nodes. -/
structure Links (α : Type) where
  /-- The node after the given one, or null. -/
  next : α → α
  /-- The node before the given one, or null. -/
  prev : α → α

/-- `Seg L p h xs q t`: from `h`, preceded by `p`, the traversal visits `xs` and arrives at `t`,
preceded by `q`. -/
def Seg (L : Links α) : α → α → List α → α → α → Prop
  | p, h, [], q, t => p = q ∧ h = t
  | p, h, x :: xs, q, t => h = x ∧ x ≠ 0 ∧ L.prev x = p ∧ Seg L x (L.next x) xs q t

/-- `h` is the head of a well-formed list with the nodes `xs`. -/
def IsList (L : Links α) (h : α) (xs : List α) : Prop :=
  ∃ q, Seg L 0 h xs q 0

/-! ### Segments -/

/-- A segment over an append is two segments that meet. -/
theorem seg_append {L : Links α} {p h q t : α} {xs ys : List α} :
    Seg L p h (xs ++ ys) q t ↔ ∃ r u, Seg L p h xs r u ∧ Seg L r u ys q t := by
  induction xs generalizing p h with
  | nil =>
    constructor
    · exact fun hs => ⟨p, h, ⟨rfl, rfl⟩, hs⟩
    · rintro ⟨r, u, ⟨rfl, rfl⟩, hs⟩
      exact hs
  | cons x xs ih =>
    simp only [List.cons_append, Seg, ih]
    constructor
    · rintro ⟨rfl, hx, hp, r, u, h₁, h₂⟩
      exact ⟨r, u, ⟨rfl, hx, hp, h₁⟩, h₂⟩
    · rintro ⟨r, u, ⟨rfl, hx, hp, h₁⟩, h₂⟩
      exact ⟨rfl, hx, hp, r, u, h₁, h₂⟩

/-- A segment depends on the links of its own nodes only. -/
theorem Seg.congr {L L' : Links α} {p h q t : α} {xs : List α}
    (hn : ∀ x ∈ xs, L'.next x = L.next x) (hp : ∀ x ∈ xs, L'.prev x = L.prev x)
    (hs : Seg L p h xs q t) : Seg L' p h xs q t := by
  induction xs generalizing p h with
  | nil => exact hs
  | cons x xs ih =>
    obtain ⟨rfl, hx, hpx, hs⟩ := hs
    refine ⟨rfl, hx, (hp h (by simp)).trans hpx, ?_⟩
    rw [hn h (by simp)]
    exact ih (fun y hy => hn y (by simp [hy])) (fun y hy => hp y (by simp [hy])) hs

/-- The nodes of a segment are not null. -/
theorem Seg.ne_zero {L : Links α} {p h q t : α} {xs : List α} (hs : Seg L p h xs q t) {x : α}
    (hx : x ∈ xs) : x ≠ 0 := by
  induction xs generalizing p h with
  | nil => simp at hx
  | cons y xs ih =>
    obtain ⟨-, hy, -, hs⟩ := hs
    rcases List.mem_cons.mp hx with rfl | hx
    · exact hy
    · exact ih hs hx

/-- The end of a segment: its last node points on to `t` and is the node before it. -/
theorem Seg.last {L : Links α} {p h q t : α} {xs : List α} (hs : Seg L p h xs q t) :
    (xs = [] ∧ p = q ∧ h = t) ∨ (∃ ys, xs = ys ++ [q] ∧ q ≠ 0 ∧ L.next q = t) := by
  induction xs generalizing p h with
  | nil => exact Or.inl ⟨rfl, hs.1, hs.2⟩
  | cons x xs ih =>
    obtain ⟨rfl, hx, -, hs⟩ := hs
    rcases ih hs with ⟨rfl, rfl, hn⟩ | ⟨ys, rfl, hq, hn⟩
    · exact Or.inr ⟨[], rfl, hx, hn⟩
    · exact Or.inr ⟨h :: ys, rfl, hq, hn⟩

/-- Two segments from one pointer to the end of their lists visit the same nodes. -/
theorem Seg.unique {L : Links α} {p p' h q q' : α} {xs ys : List α} (hx : Seg L p h xs q 0)
    (hy : Seg L p' h ys q' 0) : xs = ys := by
  induction xs generalizing p p' h ys with
  | nil =>
    cases ys with
    | nil => rfl
    | cons y ys => exact absurd (hx.2.symm.trans hy.1).symm hy.2.1
  | cons x xs ih =>
    obtain ⟨rfl, hx0, -, hx⟩ := hx
    cases ys with
    | nil => exact absurd hy.2 hx0
    | cons y ys =>
      obtain ⟨rfl, -, -, hy⟩ := hy
      rw [ih hx hy]

/-! ### Whole lists -/

theorem isList_nil_iff {L : Links α} {h : α} : IsList L h [] ↔ h = 0 := by
  constructor
  · rintro ⟨q, -, h⟩
    exact h
  · rintro rfl
    exact ⟨0, rfl, rfl⟩

/-- The first node of a list is its head. -/
theorem IsList.head_eq {L : Links α} {h x : α} {xs : List α} (hl : IsList L h (x :: xs)) :
    h = x := by
  obtain ⟨q, rfl, -⟩ := hl
  rfl

theorem IsList.ne_zero {L : Links α} {h x : α} {xs : List α} (hl : IsList L h xs)
    (hx : x ∈ xs) : x ≠ 0 := by
  obtain ⟨q, hs⟩ := hl
  exact hs.ne_zero hx

/-- The head of a list determines its nodes. -/
theorem IsList.unique {L : Links α} {h : α} {xs ys : List α} (hx : IsList L h xs)
    (hy : IsList L h ys) : xs = ys := by
  obtain ⟨q, hx⟩ := hx
  obtain ⟨q', hy⟩ := hy
  exact hx.unique hy

/-- The frame rule: a list depends on the links of its own nodes only. -/
theorem IsList.congr {L L' : Links α} {h : α} {xs : List α} (hl : IsList L h xs)
    (hn : ∀ x ∈ xs, L'.next x = L.next x) (hp : ∀ x ∈ xs, L'.prev x = L.prev x) :
    IsList L' h xs := by
  obtain ⟨q, hs⟩ := hl
  exact ⟨q, hs.congr hn hp⟩

/-- A traversal that ends does not visit a node twice. -/
theorem Seg.nodup {L : Links α} {p h q : α} {xs : List α} (hs : Seg L p h xs q 0) : xs.Nodup := by
  induction xs generalizing p h with
  | nil => exact List.nodup_nil
  | cons x xs ih =>
    obtain ⟨rfl, hx, hp, hs'⟩ := hs
    refine List.nodup_cons.mpr ⟨fun hmem => ?_, ih hs'⟩
    -- a second visit of `h` would start the same traversal again
    obtain ⟨ys, zs, rfl⟩ := List.append_of_mem hmem
    obtain ⟨r, u, -, hz⟩ := seg_append.mp hs'
    obtain ⟨rfl, hz⟩ := hz
    have hw : Seg L p u (u :: (ys ++ u :: zs)) q 0 := ⟨rfl, hx, hp, hs'⟩
    have hz' : Seg L r u (u :: zs) q 0 := ⟨rfl, hz⟩
    have hlen := congrArg List.length (hw.unique hz')
    simp only [List.length_cons, List.length_append] at hlen
    omega

theorem IsList.nodup {L : Links α} {h : α} {xs : List α} (hl : IsList L h xs) : xs.Nodup := by
  obtain ⟨q, hs⟩ := hl
  exact hs.nodup

/-- The links of a node inside of a list lead to its neighbours. -/
theorem IsList.links_eq {L : Links α} {h x : α} {xs ys : List α}
    (hl : IsList L h (xs ++ x :: ys)) :
    L.next x = ys.head?.getD 0 ∧ L.prev x = xs.getLast?.getD 0 := by
  obtain ⟨q, hs⟩ := hl
  obtain ⟨r, u, h₁, rfl, hx, hp, h₂⟩ := seg_append.mp hs
  constructor
  · cases ys with
    | nil => simpa using h₂.2
    | cons y ys => simpa using h₂.1
  · rcases h₁.last with ⟨rfl, hr, -⟩ | ⟨zs, rfl, -, -⟩
    · simpa [hr] using hp
    · simpa using hp

/-- A node of a list that has no neighbours is the head of the list. -/
theorem IsList.head_or_link {L : Links α} {h x : α} {xs ys : List α}
    (hl : IsList L h (xs ++ x :: ys)) : x = h ∨ L.next x ≠ 0 ∨ L.prev x ≠ 0 := by
  rcases List.eq_nil_or_concat xs with rfl | ⟨zs, z, rfl⟩
  · exact Or.inl hl.head_eq.symm
  · refine Or.inr (Or.inr ?_)
    rw [hl.links_eq.2]
    simpa using hl.ne_zero (x := z) (by simp)

/-! ### Well-formed lists by their links -/

/-- The forward traversal from `h` visits the nodes `xs` and ends. -/
def Traversal (L : Links α) : α → List α → Prop
  | h, [] => h = 0
  | h, x :: xs => h = x ∧ x ≠ 0 ∧ Traversal L (L.next x) xs

/-- The links of the nodes `xs` form a list with head `h`. -/
structure WellFormed (L : Links α) (h : α) (xs : List α) : Prop where
  traversal : Traversal L h xs
  head_prev : h ≠ 0 → L.prev h = 0
  prev_next : ∀ x ∈ xs, L.next x ≠ 0 → L.prev (L.next x) = x
  next_prev : ∀ x ∈ xs, L.prev x ≠ 0 → L.next (L.prev x) = x

theorem Seg.traversal {L : Links α} {p h q : α} {xs : List α} (hs : Seg L p h xs q 0) :
    Traversal L h xs := by
  induction xs generalizing p h with
  | nil => exact hs.2
  | cons x xs ih => exact ⟨hs.1, hs.2.1, ih hs.2.2.2⟩

/-- A traversal with matching predecessors is a segment. -/
theorem Traversal.seg {L : Links α} {p h : α} {xs : List α} (ht : Traversal L h xs)
    (hp : h ≠ 0 → L.prev h = p) (hprev : ∀ x ∈ xs, L.next x ≠ 0 → L.prev (L.next x) = x) :
    ∃ q, Seg L p h xs q 0 := by
  induction xs generalizing p h with
  | nil => exact ⟨p, rfl, ht⟩
  | cons x xs ih =>
    obtain ⟨rfl, hx, ht⟩ := ht
    obtain ⟨q, hs⟩ := ih ht (hprev h List.mem_cons_self)
      fun y hy => hprev y (List.mem_cons_of_mem h hy)
    exact ⟨q, rfl, hx, hp hx, hs⟩

/-- The two descriptions of a list agree. -/
theorem isList_iff_wellFormed {L : Links α} {h : α} {xs : List α} :
    IsList L h xs ↔ WellFormed L h xs := by
  constructor
  · intro hl
    have hl' := hl
    obtain ⟨q, hs⟩ := hl'
    refine ⟨hs.traversal, fun h0 => ?_, fun x hx hn => ?_, fun x hx hp => ?_⟩
    · cases xs with
      | nil => exact absurd hs.2 h0
      | cons x xs =>
        obtain ⟨rfl, -, hp, -⟩ := hs
        exact hp
    · obtain ⟨ys, zs, rfl⟩ := List.append_of_mem hx
      have hnext := hl.links_eq.1
      cases zs with
      | nil => exact absurd hnext hn
      | cons z zs =>
        have hsplit : ys ++ x :: z :: zs = (ys ++ [x]) ++ z :: zs := by simp
        rw [hsplit] at hl
        rw [hnext]
        simpa using hl.links_eq.2
    · obtain ⟨ys, zs, rfl⟩ := List.append_of_mem hx
      have hprev := hl.links_eq.2
      rcases List.eq_nil_or_concat ys with rfl | ⟨ys, y, rfl⟩
      · exact absurd hprev hp
      · have hsplit : ys.concat y ++ x :: zs = ys ++ y :: (x :: zs) := by simp
        rw [hsplit] at hl
        rw [hprev]
        simpa using hl.links_eq.1
  · exact fun hw => hw.traversal.seg hw.head_prev hw.prev_next

/-! ### Insertion at the head -/

section Updates

variable [DecidableEq α]

/-- Insert the node `n` in front of the list with head `h`. -/
def Links.push (L : Links α) (n h : α) : Links α :=
  if h = 0 then L else ⟨Function.update L.next n h, Function.update L.prev h n⟩

/-- Take the node `n` out of its list. -/
def Links.unlink (L : Links α) (n : α) : Links α :=
  { next := Function.update
      (if L.prev n = 0 then L.next else Function.update L.next (L.prev n) (L.next n)) n 0
    prev := Function.update
      (if L.next n = 0 then L.prev else Function.update L.prev (L.next n) (L.prev n)) n 0 }

/-- Inserting an unlinked node puts it in front of the traversal. -/
theorem IsList.push {L : Links α} {h n : α} {xs : List α} (hl : IsList L h xs) (hn : n ≠ 0)
    (hnx : n ∉ xs) (hnext : L.next n = 0) (hprev : L.prev n = 0) :
    IsList (L.push n h) n (n :: xs) := by
  have hnd := hl.nodup
  obtain ⟨q, hs⟩ := hl
  cases xs with
  | nil =>
    refine ⟨n, rfl, hn, ?_, ?_⟩
    · simp [Links.push, hs.2, hprev]
    · simp [Links.push, hs.2, hnext, Seg]
  | cons x xs =>
    obtain ⟨rfl, hx, -, hs⟩ := hs
    have hne : n ≠ h := fun e => hnx (by simp [e])
    rw [List.nodup_cons] at hnd
    refine ⟨q, rfl, hn, ?_, ?_, hx, ?_, ?_⟩
    · simp [Links.push, hx, hne, hprev]
    · simp [Links.push, hx]
    · simp [Links.push, hx]
    · simp only [Links.push, hx, if_false, Function.update_of_ne hne.symm]
      refine hs.congr (fun y hy => ?_) fun y hy => ?_
      · exact Function.update_of_ne (fun e => hnx (by simp [← e, hy])) _ _
      · have hyh : y ≠ h := fun e => hnd.1 (e ▸ hy)
        exact Function.update_of_ne hyh _ _

/-- An insertion only touches the inserted node and the old head. -/
theorem Links.push_eq_of_ne {L : Links α} {n h a : α} (hn : a ≠ n) (hh : a ≠ h) :
    (L.push n h).next a = L.next a ∧ (L.push n h).prev a = L.prev a := by
  unfold Links.push
  split_ifs
  · exact ⟨rfl, rfl⟩
  · exact ⟨Function.update_of_ne hn _ _, Function.update_of_ne hh _ _⟩

/-! ### Removal -/

/-- Change of the pointer a segment ends with: the last node is redirected. -/
private theorem Seg.redirect {L : Links α} {p h q t u n : α} {xs : List α} (hp : p ∉ xs)
    (hnd : xs.Nodup) (hs : Seg L p h xs q t) (hq : q ≠ 0) (hn : n ∉ xs) :
    Seg ⟨Function.update (Function.update L.next q u) n 0, L.prev⟩ p
      (if xs = [] then u else h) xs q u := by
  induction xs generalizing p h with
  | nil => exact ⟨hs.1, rfl⟩
  | cons x xs ih =>
    obtain ⟨rfl, hx, hpx, hs⟩ := hs
    rw [List.nodup_cons] at hnd
    have hnh : h ≠ n := fun e => hn (by simp [e])
    refine ⟨by simp, hx, hpx, ?_⟩
    have := ih hnd.1 hnd.2 hs fun e => hn (by simp [e])
    rcases hs.last with ⟨rfl, rfl, -⟩ | ⟨ys, rfl, -, -⟩
    · simpa [Function.update_of_ne hnh] using this
    · have hq' : h ≠ q := fun e => hnd.1 (by simp [e])
      simpa [Function.update_of_ne hnh, Function.update_of_ne hq'] using this

/-- Taking a node out of a list removes it from the traversal and clears its links. -/
theorem IsList.unlink {L : Links α} {h n : α} {xs ys : List α}
    (hl : IsList L h (xs ++ n :: ys)) :
    IsList (L.unlink n) (if h = n then L.next n else h) (xs ++ ys) := by
  have hnd := hl.nodup
  obtain ⟨q, hs⟩ := hl
  obtain ⟨r, u, h₁, rfl, hn, hp, h₂⟩ := seg_append.mp hs
  rw [List.nodup_append] at hnd
  obtain ⟨hxs, hys, hdis⟩ := hnd
  rw [List.nodup_cons] at hys
  have hnx : u ∉ xs := fun hm => hdis _ hm _ (by simp) rfl
  have hxy : ∀ x ∈ xs, x ∉ ys := fun x hx hy => hdis x hx x (by simp [hy]) rfl
  -- the nodes behind `u`: only the first one sees a new predecessor
  have hright : Seg (L.unlink u) r (L.next u) ys (if ys = [] then r else q) 0 := by
    cases ys with
    | nil => exact ⟨rfl, h₂.2⟩
    | cons y ys =>
      obtain ⟨hy, hy0, hpy, h₂⟩ := h₂
      have hyu : y ≠ u := fun e => hys.1 (by simp [e])
      have hnu : L.next u ≠ 0 := hy ▸ hy0
      have hry : ∀ z ∈ y :: ys, L.prev u = 0 ∨ z ≠ L.prev u := by
        intro z hz
        rcases h₁.last with ⟨rfl, hr, -⟩ | ⟨zs, rfl, -, -⟩
        · exact Or.inl (hp.trans hr.symm)
        · exact Or.inr fun e => hxy r (by simp) (by rwa [hp.symm, ← e])
      have hnext : ∀ z ∈ y :: ys, (L.unlink u).next z = L.next z := by
        intro z hz
        have hzu : z ≠ u := fun e => hys.1 (e ▸ hz)
        simp only [Links.unlink, Function.update_of_ne hzu]
        split_ifs with h0
        · rfl
        · exact Function.update_of_ne ((hry z hz).resolve_left h0) _ _
      refine ⟨hy, hy0, ?_, ?_⟩
      · simp [Links.unlink, Function.update_of_ne hyu, hy, hy0, hp]
      · rw [hnext y (by simp)]
        refine h₂.congr (fun z hz => hnext z (by simp [hz])) fun z hz => ?_
        have hzu : z ≠ u := fun e => hys.1 (by simp [← e, hz])
        have hzy : z ≠ L.next u := by
          rw [hy]
          exact fun e => (List.nodup_cons.mp hys.2).1 (e ▸ hz)
        simp [Links.unlink, hnu, Function.update_of_ne hzu, Function.update_of_ne hzy]
  refine ⟨if ys = [] then r else q, seg_append.mpr ⟨r, L.next u, ?_, hright⟩⟩
  rcases h₁.last with ⟨rfl, rfl, rfl⟩ | ⟨zs, hzs, hr, hnr⟩
  · -- `u` is the head
    simp [Seg]
  · have hhu : h ≠ u := by
      cases xs with
      | nil => simp at hzs
      | cons x xs =>
        rw [h₁.1]
        exact fun e => hnx (by simp [e])
    rw [if_neg hhu]
    have hne : xs ≠ [] := by simp [hzs]
    have h0 : (0 : α) ∉ xs := fun hm => h₁.ne_zero hm rfl
    have key := h₁.redirect (u := L.next u) (n := u) h0 hxs hr hnx
    rw [if_neg hne] at key
    refine key.congr (fun x _ => ?_) fun x hx => ?_
    · simp [Links.unlink, hp, hr]
    · have hxu : x ≠ u := fun e => hnx (e ▸ hx)
      simp only [Links.unlink, Function.update_of_ne hxu]
      split_ifs with hn0
      · rfl
      · refine Function.update_of_ne (fun e => ?_) _ _
        cases ys with
        | nil => exact hn0 h₂.2
        | cons y ys => exact hxy x hx (by rw [e, h₂.1]; simp)

/-- A removed node has no links left. -/
theorem Links.unlink_self {L : Links α} {n : α} :
    (L.unlink n).next n = 0 ∧ (L.unlink n).prev n = 0 := by
  simp [Links.unlink]

/-- A removal only touches the removed node and its neighbours. -/
theorem Links.unlink_eq_of_ne {L : Links α} {n a : α} (hn : a ≠ n) (hnext : a ≠ L.next n)
    (hprev : a ≠ L.prev n) :
    (L.unlink n).next a = L.next a ∧ (L.unlink n).prev a = L.prev a := by
  constructor
  · simp only [Links.unlink, Function.update_of_ne hn]
    split_ifs
    · rfl
    · exact Function.update_of_ne hprev _ _
  · simp only [Links.unlink, Function.update_of_ne hn]
    split_ifs
    · rfl
    · exact Function.update_of_ne hnext _ _

omit [DecidableEq α] in
/-- The neighbours of a node are nodes of its list, or null. -/
theorem IsList.neighbours_mem {L : Links α} {h n : α} {xs ys : List α}
    (hl : IsList L h (xs ++ n :: ys)) :
    (L.next n = 0 ∨ L.next n ∈ ys) ∧ (L.prev n = 0 ∨ L.prev n ∈ xs) := by
  rw [hl.links_eq.1, hl.links_eq.2]
  constructor
  · cases ys <;> simp
  · rcases List.eq_nil_or_concat xs with rfl | ⟨zs, z, rfl⟩ <;> simp

/-- Every list that shares no node with the list of `n` survives the removal of `n`. -/
theorem IsList.unlink_other {L : Links α} {h h' n : α} {xs ys zs : List α}
    (hl : IsList L h (xs ++ n :: ys)) (ho : IsList L h' zs)
    (hdis : ∀ z ∈ zs, z ∉ xs ++ n :: ys) : IsList (L.unlink n) h' zs := by
  have hkeep : ∀ z ∈ zs, (L.unlink n).next z = L.next z ∧ (L.unlink n).prev z = L.prev z := by
    intro z hz
    have hz0 := ho.ne_zero hz
    have hzn := hdis z hz
    simp only [List.mem_append, List.mem_cons, not_or] at hzn
    obtain ⟨hnx, hpv⟩ := hl.neighbours_mem
    refine Links.unlink_eq_of_ne hzn.2.1 (fun e => ?_) fun e => ?_
    · rcases hnx with h0 | hm
      · exact hz0 (e.trans h0)
      · exact hzn.2.2 (e ▸ hm)
    · rcases hpv with h0 | hm
      · exact hz0 (e.trans h0)
      · exact hzn.1 (e ▸ hm)
  exact ho.congr (fun z hz => (hkeep z hz).1) fun z hz => (hkeep z hz).2

/-- Every list without the inserted node whose head is not the old head survives an insertion. -/
theorem IsList.push_other {L : Links α} {h h' n : α} {xs zs : List α} (hl : IsList L h xs)
    (ho : IsList L h' zs) (hn : n ∉ zs) (hdis : ∀ z ∈ zs, z ∉ xs) : IsList (L.push n h) h' zs := by
  have hkeep : ∀ z ∈ zs, (L.push n h).next z = L.next z ∧ (L.push n h).prev z = L.prev z := by
    intro z hz
    refine Links.push_eq_of_ne (fun e => hn (e ▸ hz)) fun e => ?_
    cases xs with
    | nil => exact ho.ne_zero hz (e.trans (isList_nil_iff.mp hl))
    | cons x xs => exact hdis z hz (by rw [e, hl.head_eq]; simp)
  exact ho.congr (fun z hz => (hkeep z hz).1) fun z hz => (hkeep z hz).2

end Updates

end LinkedList
