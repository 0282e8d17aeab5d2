import Mathlib.Algebra.GroupWithZero.Nat
import Mathlib.Algebra.BigOperators.Ring.List
import Mathlib.Data.List.Perm.Basic
import Mathlib.Data.List.Nodup
import Mathlib.Logic.Function.Basic

/-!
# Families of lists

A family `f : ι → List α` and a list `l` of indices stand for the concatenation `l.flatMap f`, for
example all entries of some buckets.  The lemmas split off the entries of one index
(`flatMap_perm`) and say what happens to the concatenation when the list of one index is replaced
(`flatMap_update`, `flatMap_update_cons`, `flatMap_update_uncons`).  A sum over the concatenation is
a sum of sums (`sum_map_flatMap`).  `map_erase_of_injOn` removes an entry from a list of images.
-/

namespace Families

variable {ι α : Type} [DecidableEq ι] {l : List ι} {k : ι} {f : ι → List α}

/-- The entries of an index that is not in the list do not matter. -/
theorem flatMap_update_of_notMem (hk : k ∉ l) (v : List α) :
    l.flatMap (Function.update f k v) = l.flatMap f := by
  refine List.flatMap_congr fun i hi => Function.update_of_ne ?_ _ _
  rintro rfl
  exact hk hi

/-- The entries of one index come first. -/
theorem flatMap_perm (hk : k ∈ l) : (l.flatMap f).Perm (f k ++ (l.erase k).flatMap f) := by
  have h := (List.perm_cons_erase hk).flatMap_right f
  rwa [List.flatMap_cons] at h

/-- The entries after those of one index have been replaced. -/
theorem flatMap_update (hnd : l.Nodup) (hk : k ∈ l) (v : List α) :
    (l.flatMap (Function.update f k v)).Perm (v ++ (l.erase k).flatMap f) := by
  have h := flatMap_perm (f := Function.update f k v) hk
  rwa [Function.update_self, flatMap_update_of_notMem hnd.not_mem_erase] at h

/-- One entry is added. -/
theorem flatMap_update_cons (hnd : l.Nodup) (hk : k ∈ l) {v : List α} {x : α}
    (hv : v.Perm (x :: f k)) : (l.flatMap (Function.update f k v)).Perm (x :: l.flatMap f) := by
  refine (flatMap_update hnd hk v).trans ((hv.append_right _).trans ?_)
  rw [List.cons_append]
  exact List.Perm.cons _ (flatMap_perm hk).symm

/-- One entry is taken away. -/
theorem flatMap_update_uncons (hnd : l.Nodup) (hk : k ∈ l) {v : List α} {x : α}
    (hv : (x :: v).Perm (f k)) : (x :: l.flatMap (Function.update f k v)).Perm (l.flatMap f) := by
  apply ((flatMap_update hnd hk v).cons x).trans
  rw [← List.cons_append]
  exact (hv.append_right _).trans (flatMap_perm hk).symm

omit [DecidableEq ι] in
/-- A sum over all entries, index by index. -/
theorem sum_map_flatMap {g : α → ℕ} :
    ((l.flatMap f).map g).sum = (l.map fun i => ((f i).map g).sum).sum := by
  rw [List.flatMap_def, List.map_flatten, List.sum_flatten, List.map_map, List.map_map]
  rfl

omit [DecidableEq ι] in
/-- A sum of equal numbers. -/
theorem sum_map_eq_mul {g : ι → ℕ} {n : ℕ} (h : ∀ i ∈ l, g i = n) :
    (l.map g).sum = l.length * n := by
  induction l with
  | nil => rw [List.map_nil, List.sum_nil, List.length_nil, Nat.zero_mul]
  | cons i l ih =>
    rw [List.map_cons, List.sum_cons, h i List.mem_cons_self,
      ih fun j hj => h j (List.mem_cons_of_mem _ hj), List.length_cons, Nat.succ_mul, Nat.add_comm]

omit [DecidableEq ι] in
/-- The images after an entry with an image of its own has been removed. -/
theorem map_erase_of_injOn [DecidableEq α] {β : Type} [DecidableEq β] {g : α → β} {x : α}
    {v : List α} (h : ∀ y ∈ v, g y = g x → y = x) : (v.erase x).map g = (v.map g).erase (g x) := by
  induction v with
  | nil => rfl
  | cons y v ih =>
    rw [List.map_cons]
    by_cases hy : y = x
    · rw [hy, List.erase_cons_head, List.erase_cons_head]
    · have hg : g y ≠ g x := fun e => hy (h y List.mem_cons_self e)
      rw [List.erase_cons_tail (by simpa using hy), List.erase_cons_tail (by simpa using hg),
        List.map_cons, ih fun z hz => h z (List.mem_cons_of_mem _ hz)]

end Families
