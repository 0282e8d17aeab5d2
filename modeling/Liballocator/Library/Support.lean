import Mathlib.Data.Set.Basic
import Liballocator.Library.Ownership

/-!
# Objects that carry something

The objects in `D` own each other and what is `live`.  `Supported own root live D` says that every
object but the root and everything live has its owner in `D`, that every object but the root owns
something, and that no chain from an object to what it owns goes on forever.  So every object
carries something that is live (`Supported.exists_live`).  When owners are unique, more objects are
needed to carry more (`Supported.subset`), so what is live determines `D`.
-/

namespace Ownership

variable {α : Type} {own own' : α → α → Prop} {root x y : α} {l : List α} {live live' D D' : Set α}

/-- What is owned by the objects: other objects than the root, and what is live. -/
def Carried (root : α) (live D : Set α) : Set α := {x | x ∈ D ∧ x ≠ root ∨ x ∈ live}

/-- The objects `D` own what is carried, and each of them but the root owns some of it. -/
structure Supported (own : α → α → Prop) (root : α) (live D : Set α) : Prop where
  root_mem : root ∈ D
  owner : ∀ x ∈ Carried root live D, ∃ y ∈ D, own y x
  owns : ∀ y ∈ D, y ≠ root → ∃ x ∈ Carried root live D, own y x
  wellFounded : WellFounded fun x y => x ∈ D ∧ y ∈ D ∧ own y x

/-- The relation matters on the objects only. -/
theorem Supported.congr (h : Supported own root live D)
    (hown : ∀ y ∈ D, ∀ x, own' y x ↔ own y x) : Supported own' root live D := by
  refine ⟨h.root_mem, fun x hx => ?_, fun y hy hne => ?_, ?_⟩
  · obtain ⟨y, hy, hyx⟩ := h.owner x hx
    exact ⟨y, hy, (hown y hy x).mpr hyx⟩
  · obtain ⟨x, hx, hyx⟩ := h.owns y hy hne
    exact ⟨x, hx, (hown y hy x).mpr hyx⟩
  · apply Subrelation.wf (fun {x y} hxy => ?_) h.wellFounded
    exact ⟨hxy.1, hxy.2.1, (hown y hxy.2.1 x).mp hxy.2.2⟩

/-- Every object but the root owns something live, or owns an object that does, and so on. -/
theorem Supported.exists_live (h : Supported own root live D) (hy : y ∈ D) (hne : y ≠ root) :
    ∃ z ∈ D, ∃ x ∈ live, own z x ∧
      Relation.ReflTransGen (fun a b => a ∈ D ∧ b ∈ D ∧ own b a) z y := by
  induction y using h.wellFounded.induction with
  | _ y ih =>
    obtain ⟨x, ⟨hx, hxr⟩ | hx, hyx⟩ := h.owns y hy hne
    · obtain ⟨z, hz, w, hw, hzw, hchain⟩ := ih x ⟨hx, hy, hyx⟩ hx hxr
      exact ⟨z, hz, w, hw, hzw, hchain.tail ⟨hx, hy, hyx⟩⟩
    · exact ⟨y, hy, x, hx, hyx, .refl⟩

/-- More objects are needed to carry more. -/
theorem Supported.subset (h : Supported own root live D) (h' : Supported own root live' D')
    (hlive : live ⊆ live') (hunique : ∀ y ∈ D, ∀ z ∈ D', ∀ x, own y x → own z x → y = z) :
    D ⊆ D' := by
  intro y hy
  induction y using h.wellFounded.induction with
  | _ y ih =>
    by_cases hne : y = root
    · exact hne ▸ h'.root_mem
    -- the owner in `D'` of what `y` owns is `y`
    obtain ⟨x, hx, hyx⟩ := h.owns y hy hne
    have hx' : x ∈ Carried root live' D' := by
      rcases hx with ⟨hx, hxr⟩ | hx
      · exact Or.inl ⟨ih x ⟨hx, hy, hyx⟩ hx, hxr⟩
      · exact Or.inr (hlive hx)
    obtain ⟨z, hz, hzx⟩ := h'.owner x hx'
    exact hunique y hy z hz x hyx hzx ▸ hz

/-- When owners are unique and in a list that ends at the root, no chain from an object to what it
owns goes on forever. -/
theorem Grounded.wellFounded_owned [DecidableEq α] (h : Grounded own root l) (hnd : l.Nodup)
    (hunique : ∀ y ∈ l, ∀ z ∈ l, ∀ w ∈ l, own y w → own z w → y = z) (hroot : ∀ y ∈ l, ¬own y root)
    (hlist : ∀ x ∈ D, ∀ y ∈ D, own y x → y ∈ l) :
    WellFounded fun x y => x ∈ D ∧ y ∈ D ∧ own y x := by
  -- owners have a position, and what is not in the list owns no object
  refine Subrelation.wf (r := InvImage (· < ·) fun x => if x ∈ l then l.idxOf x + 1 else 0) ?_
    (InvImage.wf _ Nat.lt_wfRel.wf)
  rintro x y ⟨hx, hy, hown⟩
  have hyl := hlist x hx y hy hown
  simp only [InvImage, if_pos hyl]
  split_ifs with hxl
  · exact Nat.succ_lt_succ (h.idxOf_lt hnd hunique hroot hxl hyl hown)
  · exact Nat.succ_pos _

end Ownership
