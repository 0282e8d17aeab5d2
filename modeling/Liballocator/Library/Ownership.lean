import Mathlib.Data.List.Nodup
import Mathlib.Logic.Relation

/-!
# Chains of ownership

`Grounded own root l` says of a list `l` of objects that the last one is the root and that every
other one is owned by an object further back in the list.  The list grows at the front by objects
that its members own (`Grounded.push`) and loses objects that own none of its members
(`Grounded.erase`).  When owners are unique they stand behind what they own (`Grounded.idxOf_lt`).
So no object owns itself through others, every chain of owners ends (`Grounded.wellFounded`), it
ends at the root (`Grounded.reaches`), and as long as some object other than the root is in the
list, one of them owns none of the list (`Grounded.head_not_owner`).
-/

namespace Ownership

variable {α : Type} {own own' : α → α → Prop} {root x y : α} {l : List α}

/-- `root` is the last element of the list, and every other element is owned by a later one;
`own y x` says that `y` owns `x`. -/
def Grounded (own : α → α → Prop) (root : α) : List α → Prop
  | [] => False
  | x :: l => x = root ∧ l = [] ∨ (∃ y ∈ l, own y x) ∧ Grounded own root l

theorem grounded_singleton : Grounded own root [root] := Or.inl ⟨rfl, rfl⟩

/-- A new object is owned by one that is there. -/
theorem Grounded.push (h : Grounded own root l) (hy : y ∈ l) (hown : own y x) :
    Grounded own root (x :: l) := Or.inr ⟨⟨y, hy, hown⟩, h⟩

theorem Grounded.root_mem (h : Grounded own root l) : root ∈ l := by
  induction l with
  | nil => exact h.elim
  | cons x l ih =>
    rcases h with ⟨rfl, -⟩ | ⟨-, h⟩
    · exact List.mem_cons_self
    · exact List.mem_cons_of_mem _ (ih h)

/-- Every object but the root has an owner, and the owner is another object. -/
theorem Grounded.exists_owner (h : Grounded own root l) (hnd : l.Nodup) (hx : x ∈ l)
    (hne : x ≠ root) : ∃ y ∈ l, y ≠ x ∧ own y x := by
  induction l with
  | nil => exact h.elim
  | cons z l ih =>
    obtain ⟨hz, hnd⟩ := List.nodup_cons.mp hnd
    rcases h with ⟨rfl, rfl⟩ | ⟨⟨y, hy, hown⟩, h⟩
    · exact absurd (List.mem_singleton.mp hx) hne
    · rcases List.mem_cons.mp hx with rfl | hx
      · exact ⟨y, List.mem_cons_of_mem _ hy, fun e => hz (e ▸ hy), hown⟩
      · obtain ⟨y, hy, hyx, hown⟩ := ih h hnd hx
        exact ⟨y, List.mem_cons_of_mem _ hy, hyx, hown⟩

/-- The relation matters on the members of the list only. -/
theorem Grounded.mono (h : Grounded own root l)
    (hown : ∀ y ∈ l, ∀ x ∈ l, own y x → own' y x) : Grounded own' root l := by
  induction l with
  | nil => exact h
  | cons z l ih =>
    rcases h with h | ⟨⟨y, hy, hyz⟩, h⟩
    · exact Or.inl h
    · refine Or.inr ⟨⟨y, hy, ?_⟩, ih h fun y hy x hx => ?_⟩
      · exact hown y (List.mem_cons_of_mem _ hy) z List.mem_cons_self hyz
      · exact hown y (List.mem_cons_of_mem _ hy) x (List.mem_cons_of_mem _ hx)

/-- An object that owns none of the list may leave it. -/
theorem Grounded.erase [DecidableEq α] (h : Grounded own root l) (hx : x ≠ root)
    (hown : ∀ z ∈ l, ¬own x z) : Grounded own root (l.erase x) := by
  induction l with
  | nil => exact h.elim
  | cons z l ih =>
    have hown' : ∀ w ∈ l, ¬own x w := fun w hw => hown w (List.mem_cons_of_mem _ hw)
    by_cases hz : z = x
    · subst hz
      rw [List.erase_cons_head]
      rcases h with ⟨hr, -⟩ | ⟨-, h⟩
      · exact absurd hr hx
      · exact h
    · rw [List.erase_cons_tail (by simpa using hz)]
      rcases h with ⟨rfl, rfl⟩ | ⟨⟨y, hy, hyz⟩, h⟩
      · exact Or.inl ⟨rfl, rfl⟩
      · have hyx : y ≠ x := by
          rintro rfl
          exact hown z List.mem_cons_self hyz
        exact Or.inr ⟨⟨y, (List.mem_erase_of_ne hyx).mpr hy, hyz⟩, ih h hown'⟩

/-- Every chain of owners reaches the root. -/
theorem Grounded.reaches (h : Grounded own root l) (hx : x ∈ l) :
    Relation.ReflTransGen (fun x y => x ∈ l ∧ y ∈ l ∧ own y x) x root := by
  induction l generalizing x with
  | nil => exact h.elim
  | cons z l ih =>
    have hmono := Relation.ReflTransGen.mono fun x y (hxy : x ∈ l ∧ y ∈ l ∧ own y x) =>
      (show x ∈ z :: l ∧ y ∈ z :: l ∧ own y x from
        ⟨List.mem_cons_of_mem _ hxy.1, List.mem_cons_of_mem _ hxy.2.1, hxy.2.2⟩)
    rcases h with ⟨rfl, rfl⟩ | ⟨⟨y, hy, hyz⟩, h⟩
    · rw [List.mem_singleton.mp hx]
    · rcases List.mem_cons.mp hx with rfl | hx
      · exact .head ⟨hx, List.mem_cons_of_mem _ hy, hyz⟩ (hmono _ _ (ih h hy))
      · exact hmono _ _ (ih h hx)

section Unique

variable [DecidableEq α] (h : Grounded own root l) (hnd : l.Nodup)
  (hunique : ∀ y ∈ l, ∀ z ∈ l, ∀ w ∈ l, own y w → own z w → y = z) (hroot : ∀ y ∈ l, ¬own y root)

include h hnd hunique hroot

/-- An owner stands behind what it owns. -/
theorem Grounded.idxOf_lt (hx : x ∈ l) (hy : y ∈ l) (hown : own y x) : l.idxOf x < l.idxOf y := by
  induction l with
  | nil => exact h.elim
  | cons z l ih =>
    have hxr : x ≠ root := by
      rintro rfl
      exact hroot y hy hown
    obtain ⟨hzl, hnd'⟩ := List.nodup_cons.mp hnd
    have hbehind : ∀ w ∈ l, own w x → y ∈ l := fun w hw hwx =>
      hunique w (List.mem_cons_of_mem _ hw) y hy x hx hwx hown ▸ hw
    have hpos : ∀ w ∈ l, (z :: l).idxOf w = l.idxOf w + 1 := fun w hw =>
      List.idxOf_cons_ne _ fun e => hzl (e ▸ hw)
    rcases h with ⟨rfl, rfl⟩ | ⟨⟨w, hw, hwz⟩, h⟩
    · exact absurd (List.mem_singleton.mp hx) hxr
    rcases List.mem_cons.mp hx with rfl | hxl
    · rw [List.idxOf_cons_self, hpos y (hbehind w hw hwz)]
      exact Nat.succ_pos _
    · obtain ⟨w, hw, -, hwx⟩ := h.exists_owner hnd' hxl hxr
      have hyl := hbehind w hw hwx
      rw [hpos x hxl, hpos y hyl]
      have hsub : ∀ {v}, v ∈ l → v ∈ z :: l := List.mem_cons_of_mem z
      refine Nat.succ_lt_succ (ih h hnd' ?_ (fun v hv => hroot v (hsub hv)) hxl hyl)
      exact fun v hv u hu t ht => hunique v (hsub hv) u (hsub hu) t (hsub ht)

/-- No chain of owners goes on forever, wherever it begins. -/
theorem Grounded.wellFounded : WellFounded fun y x => y ∈ l ∧ own y x := by
  refine Subrelation.wf (r := InvImage (· < ·) fun x =>
    if x ∈ l then l.length - l.idxOf x else l.length + 1) ?_ (InvImage.wf _ Nat.lt_wfRel.wf)
  rintro y x ⟨hy, hown⟩
  have hlt := List.idxOf_lt_length_of_mem hy
  simp only [InvImage, if_pos hy]
  split_ifs with hx
  · have := h.idxOf_lt hnd hunique hroot hx hy hown
    omega
  · omega

end Unique

/-- When owners are unique, the object in front owns none of the list. -/
theorem Grounded.head_not_owner (h : Grounded own root (x :: l)) (hnd : (x :: l).Nodup)
    (hunique : ∀ y ∈ x :: l, ∀ z ∈ x :: l, ∀ w ∈ x :: l, own y w → own z w → y = z)
    (hroot : ∀ y ∈ x :: l, ¬own y root) : ∀ z ∈ x :: l, ¬own x z := by
  classical
  intro z hz hxz
  have := h.idxOf_lt hnd hunique hroot hz List.mem_cons_self hxz
  rw [List.idxOf_cons_self] at this
  exact absurd this (Nat.not_lt_zero _)

end Ownership
