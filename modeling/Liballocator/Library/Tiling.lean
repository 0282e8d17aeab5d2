import Mathlib.Algebra.GroupWithZero.Nat
import Mathlib.Algebra.BigOperators.Group.Finset.Basic
import Mathlib.Algebra.Order.BigOperators.Group.Finset
import Mathlib.Algebra.BigOperators.Group.Finset.Piecewise
import Mathlib.Data.List.Count
import Mathlib.Data.List.Perm.Basic
import Mathlib.Order.Interval.Finset.Nat

/-!
# Tilings of an initial segment of the naturals by spans

A `Span` is an interval of naturals given by its first element and its size.  A list of spans
`Tiles n` when the spans are not empty and every number below `n` is covered by exactly one of them,
and nothing else is covered.  The property does not depend on the order of the list, and it is kept
when a span is split in two (`Tiles.split`), when two adjacent spans are joined (`Tiles.join`) and
when a new span is put behind the last number (`Tiles.append`).

`MaximalRun F J g` describes the maximal runs of a predicate `F` whose neighbours are glued by `J`.
Two maximal runs with a common point are equal, so a tiling by maximal runs is determined by `F`
and `J` alone.
-/

namespace Tiling

/-- An interval of naturals. -/
structure Span where
  /-- The least element. -/
  first : ℕ
  /-- The number of elements. -/
  size : ℕ
  deriving DecidableEq, Repr

/-- The first number behind the span. -/
def Span.stop (g : Span) : ℕ := g.first + g.size

/-- `i` is an element of the span `g`. -/
def Span.Covers (g : Span) (i : ℕ) : Prop := g.first ≤ i ∧ i < g.first + g.size

instance (g : Span) (i : ℕ) : Decidable (g.Covers i) :=
  inferInstanceAs (Decidable (g.first ≤ i ∧ i < g.first + g.size))

/-- The spans of `l` are not empty and cover the numbers below `n`, each exactly once. -/
def Tiles (n : ℕ) (l : List Span) : Prop :=
  (∀ g ∈ l, 0 < g.size) ∧ ∀ i, l.countP (fun g => g.Covers i) = if i < n then 1 else 0

variable {n : ℕ} {l : List Span} {g h : Span}

/-- How often a number is covered by a list of spans, span by span. -/
private theorem countP_covers_cons (g : Span) (l : List Span) (i : ℕ) :
    (g :: l).countP (fun h => h.Covers i) =
      l.countP (fun h => h.Covers i) + if g.first ≤ i ∧ i < g.first + g.size then 1 else 0 := by
  rw [List.countP_cons]
  congr 1
  exact if_congr decide_eq_true_iff rfl rfl

theorem tiles_nil : Tiles 0 [] := ⟨by simp, by simp⟩

/-- A tiling does not depend on the order of its spans. -/
theorem Tiles.perm {l' : List Span} (ht : Tiles n l) (hp : l.Perm l') : Tiles n l' :=
  ⟨fun g hg => ht.1 g (hp.mem_iff.mpr hg), fun i => by rw [← hp.countP_eq, ht.2]⟩

theorem Tiles.size_pos (ht : Tiles n l) (hg : g ∈ l) : 0 < g.size := ht.1 g hg

/-- Two spans of a tiling that cover one number are the same. -/
theorem Tiles.eq_of_covers (ht : Tiles n l) (hg : g ∈ l) (hh : h ∈ l) {i : ℕ}
    (hgi : g.Covers i) (hhi : h.Covers i) : g = h := by
  by_contra hne
  have hp := List.perm_cons_erase hg
  have hh' : h ∈ l.erase g := (List.mem_erase_of_ne (Ne.symm hne)).mpr hh
  have hc := ht.2 i
  rw [hp.countP_eq, List.countP_cons_of_pos (by simpa using hgi)] at hc
  have : 0 < (l.erase g).countP (fun g => g.Covers i) :=
    List.countP_pos_iff.mpr ⟨h, hh', by simpa using hhi⟩
  split_ifs at hc
  all_goals omega

/-- Every number of the tiled segment is covered. -/
theorem Tiles.exists_covers (ht : Tiles n l) {i : ℕ} (hi : i < n) : ∃ g ∈ l, g.Covers i := by
  have hc := ht.2 i
  rw [if_pos hi] at hc
  obtain ⟨g, hg, hgi⟩ := List.countP_pos_iff.mp (by omega : 0 < l.countP fun g => g.Covers i)
  exact ⟨g, hg, by simpa using hgi⟩

theorem Tiles.lt_of_covers (ht : Tiles n l) (hg : g ∈ l) {i : ℕ} (hi : g.Covers i) : i < n := by
  by_contra hn
  have hc := ht.2 i
  rw [if_neg hn] at hc
  have := List.countP_eq_zero.mp hc g hg
  simp [hi] at this

/-- The spans of a tiling end inside of the tiled segment. -/
theorem Tiles.stop_le (ht : Tiles n l) (hg : g ∈ l) : g.first + g.size ≤ n := by
  have hpos := ht.size_pos hg
  have := ht.lt_of_covers hg (i := g.first + g.size - 1) ⟨by omega, by omega⟩
  omega

theorem Tiles.first_lt (ht : Tiles n l) (hg : g ∈ l) : g.first < n := by
  have := ht.stop_le hg
  have := ht.size_pos hg
  omega

/-- Different spans of a tiling are apart. -/
theorem Tiles.disjoint (ht : Tiles n l) (hg : g ∈ l) (hh : h ∈ l) (hne : g ≠ h) :
    g.first + g.size ≤ h.first ∨ h.first + h.size ≤ g.first := by
  by_contra hc
  have hpg := ht.size_pos hg
  have hph := ht.size_pos hh
  refine hne (ht.eq_of_covers hg hh (i := max g.first h.first) ⟨?_, ?_⟩ ⟨?_, ?_⟩) <;> omega

/-- The spans of a tiling are determined by their first element. -/
theorem Tiles.eq_of_first (ht : Tiles n l) (hg : g ∈ l) (hh : h ∈ l) (hf : g.first = h.first) :
    g = h := by
  have hpg := ht.size_pos hg
  have hph := ht.size_pos hh
  exact ht.eq_of_covers hg hh (i := g.first) ⟨le_rfl, by omega⟩ ⟨by omega, by omega⟩

/-- The span that covers the last number in front of another one ends there. -/
theorem Tiles.adjacent (ht : Tiles n l) (hg : g ∈ l) (hh : h ∈ l) (hpos : 0 < h.first)
    (hcov : g.Covers (h.first - 1)) : g.first + g.size = h.first := by
  have hph := ht.size_pos hh
  obtain ⟨h₁, h₂⟩ := hcov
  have hne : g ≠ h := by
    rintro rfl
    omega
  rcases ht.disjoint hg hh hne with h₃ | h₃ <;> omega

/-- The span that covers the first number behind another one begins there. -/
theorem Tiles.adjacent_right (ht : Tiles n l) (hg : g ∈ l) (hh : h ∈ l)
    (hcov : h.Covers (g.first + g.size)) : g.first + g.size = h.first := by
  obtain ⟨h₁, h₂⟩ := hcov
  have hne : g ≠ h := by
    rintro rfl
    omega
  rcases ht.disjoint hg hh hne with h₃ | h₃ <;> omega

/-- A tiling has no span twice. -/
theorem Tiles.nodup (ht : Tiles n l) : l.Nodup := by
  rw [List.nodup_iff_count_le_one]
  intro g
  by_cases hg : g ∈ l
  · have hpos := ht.size_pos hg
    have hc := ht.2 g.first
    have hle : l.count g ≤ l.countP fun h => h.Covers g.first := by
      apply List.countP_mono_left
      intro h _ hh
      have : h = g := by simpa using hh
      subst this
      exact decide_eq_true ⟨le_rfl, by omega⟩
    split_ifs at hc <;> omega
  · rw [List.count_eq_zero_of_not_mem hg]
    exact Nat.zero_le _

/-- In a tiling by free spans and by the spans of some holders each number is free or has one
holder. -/
theorem Tiles.free_or_held {ι : Type*} {used free : List Span} {holders : List ι} {span : ι → Span}
    (ht : Tiles n (used ++ free)) (hp : used.Perm (holders.map span)) {i : ℕ} (hi : i < n) :
    ((∃ g ∈ free, g.Covers i) ∧ ∀ o ∈ holders, ¬(span o).Covers i) ∨
      (¬(∃ g ∈ free, g.Covers i) ∧ ∃! o, o ∈ holders ∧ (span o).Covers i) := by
  have hnd := List.nodup_append.mp ht.nodup
  have hmem : ∀ o ∈ holders, span o ∈ used := fun o ho =>
    hp.mem_iff.mpr (List.mem_map_of_mem ho)
  have hapart : ∀ g ∈ free, g.Covers i → ∀ o ∈ holders, ¬(span o).Covers i := by
    intro g hg hgi o ho hoi
    have he := ht.eq_of_covers (List.mem_append_right _ hg) (List.mem_append_left _ (hmem o ho))
      hgi hoi
    exact hnd.2.2 _ (hmem o ho) g hg he.symm
  obtain ⟨g, hg, hgi⟩ := ht.exists_covers hi
  rcases List.mem_append.mp hg with hg | hg
  · obtain ⟨o, ho, rfl⟩ := List.mem_map.mp (hp.mem_iff.mp hg)
    refine Or.inr ⟨?_, o, ⟨ho, hgi⟩, ?_⟩
    · rintro ⟨g, hg, hcov⟩
      exact hapart g hg hcov o ho hgi
    rintro o' ⟨ho', hcov⟩
    have he := ht.eq_of_covers (List.mem_append_left _ (hmem o' ho'))
      (List.mem_append_left _ (hmem o ho)) hcov hgi
    exact List.inj_on_of_nodup_map (hp.nodup_iff.mp hnd.1) ho' ho he
  · exact Or.inl ⟨⟨g, hg, hgi⟩, hapart g hg hgi⟩

/-- The rest of a tiling does not contain the removed span. -/
theorem Tiles.not_mem_tail (ht : Tiles n (g :: l)) : g ∉ l := (List.nodup_cons.mp ht.nodup).1

/-! ### Changing a tiling -/

/-- Splitting a span in two. -/
theorem Tiles.split (ht : Tiles n (g :: l)) {k : ℕ} (hk : 0 < k) (hkg : k < g.size) :
    Tiles n (⟨g.first, k⟩ :: ⟨g.first + k, g.size - k⟩ :: l) := by
  refine ⟨fun h hh => ?_, fun i => ?_⟩
  · rcases List.mem_cons.mp hh with rfl | hh
    · exact hk
    · rcases List.mem_cons.mp hh with rfl | hh
      · exact Nat.sub_pos_of_lt hkg
      · exact ht.1 h (List.mem_cons_of_mem _ hh)
  · rw [← ht.2 i]
    simp only [countP_covers_cons]
    split_ifs <;> omega

/-- Joining two adjacent spans. -/
theorem Tiles.join (ht : Tiles n (g :: h :: l)) (hadj : g.first + g.size = h.first) :
    Tiles n (⟨g.first, g.size + h.size⟩ :: l) := by
  refine ⟨fun k hk => ?_, fun i => ?_⟩
  · rcases List.mem_cons.mp hk with rfl | hk
    · have := ht.size_pos (List.mem_cons_self (a := g))
      simp only
      omega
    · exact ht.1 k (by simp [hk])
  · rw [← ht.2 i]
    simp only [countP_covers_cons]
    split_ifs <;> omega

/-- A new span behind the tiled segment. -/
theorem Tiles.append (ht : Tiles n l) {k : ℕ} (hk : 0 < k) : Tiles (n + k) (⟨n, k⟩ :: l) := by
  refine ⟨fun h hh => ?_, fun i => ?_⟩
  · rcases List.mem_cons.mp hh with rfl | hh
    · exact hk
    · exact ht.1 h hh
  · have := ht.2 i
    rw [countP_covers_cons, this]
    simp only
    split_ifs <;> omega

/-- The sizes of the spans count how often the numbers are covered. -/
private theorem sum_countP_covers (hl : ∀ g ∈ l, g.first + g.size ≤ n) :
    ∑ i ∈ Finset.range n, l.countP (fun g => g.Covers i) = (l.map Span.size).sum := by
  induction l with
  | nil => simp
  | cons g l ih =>
    have hg : ∑ i ∈ Finset.range n, (if g.Covers i then 1 else 0) = g.size := by
      rw [← Finset.card_filter]
      have : (Finset.range n).filter (fun i => g.Covers i) =
          Finset.Ico g.first (g.first + g.size) := by
        ext i
        have := hl g (by simp)
        rw [Finset.mem_filter, Finset.mem_range, Finset.mem_Ico, Span.Covers]
        omega
      rw [this, Nat.card_Ico]
      omega
    simp only [countP_covers_cons, Finset.sum_add_distrib, List.map_cons, List.sum_cons,
      ih fun h hh => hl h (by simp [hh])]
    rw [Nat.add_comm]
    exact congrArg (· + _) hg

/-- The sizes of the spans add up to the length of the tiled segment. -/
theorem Tiles.sum_size (ht : Tiles n l) : (l.map Span.size).sum = n := by
  rw [← sum_countP_covers fun g hg => ht.stop_le hg]
  calc ∑ i ∈ Finset.range n, l.countP (fun g => g.Covers i)
      = ∑ _i ∈ Finset.range n, 1 :=
        Finset.sum_congr rfl fun i hi => by rw [ht.2, if_pos (Finset.mem_range.mp hi)]
    _ = n := by simp

/-- Spans that do not overlap are together not longer than the segment they lie in. -/
theorem sum_size_le (hl : ∀ g ∈ l, g.first + g.size ≤ n)
    (hd : l.Pairwise fun g h => g.first + g.size ≤ h.first ∨ h.first + h.size ≤ g.first) :
    (l.map Span.size).sum ≤ n := by
  have hone : ∀ i, l.countP (fun g => g.Covers i) ≤ 1 := by
    intro i
    clear hl
    induction l with
    | nil => simp
    | cons g l ih =>
      obtain ⟨hg, hd⟩ := List.pairwise_cons.mp hd
      rw [countP_covers_cons]
      split_ifs with hcov
      · -- no other span covers the same number
        have hzero : l.countP (fun h => h.Covers i) = 0 := by
          apply List.countP_eq_zero.mpr
          intro h hh hc
          have := hg h hh
          have hc := of_decide_eq_true hc
          unfold Span.Covers at hc
          omega
        omega
      · exact ih hd
  rw [← sum_countP_covers hl]
  calc ∑ i ∈ Finset.range n, l.countP (fun g => g.Covers i)
      ≤ ∑ _i ∈ Finset.range n, 1 := Finset.sum_le_sum fun i _ => hone i
    _ = n := by simp

/-! ### Maximal runs -/

/-- `g` is a maximal run of numbers that satisfy `F`, where `i` and `i + 1` may only belong to one
run if `J i`. -/
structure MaximalRun (F J : ℕ → Prop) (g : Span) : Prop where
  size_pos : 0 < g.size
  all : ∀ i, g.Covers i → F i
  glued : ∀ i, g.Covers i → g.Covers (i + 1) → J i
  /-- The run cannot be extended to the left. -/
  left : ∀ i, i + 1 = g.first → ¬(F i ∧ J i)
  /-- The run cannot be extended to the right. -/
  right : ∀ i, i + 1 = g.first + g.size → ¬(F (i + 1) ∧ J i)

/-- Of two maximal runs with a common number the second does not start earlier. -/
private theorem MaximalRun.first_le {F J : ℕ → Prop} (hg : MaximalRun F J g)
    (hh : MaximalRun F J h) {i : ℕ} (hgi : g.Covers i) (hhi : h.Covers i) : g.first ≤ h.first := by
  by_contra hlt
  simp only [Span.Covers] at hgi hhi
  have h₁ : h.Covers (g.first - 1) := ⟨by omega, by omega⟩
  have h₂ : h.Covers (g.first - 1 + 1) := ⟨by omega, by omega⟩
  exact hg.left (g.first - 1) (by omega) ⟨hh.all _ h₁, hh.glued _ h₁ h₂⟩

/-- Of two maximal runs with a common number the first does not end earlier. -/
private theorem MaximalRun.stop_le {F J : ℕ → Prop} (hg : MaximalRun F J g)
    (hh : MaximalRun F J h) {i : ℕ} (hgi : g.Covers i) (hhi : h.Covers i) :
    h.first + h.size ≤ g.first + g.size := by
  by_contra hlt
  simp only [Span.Covers] at hgi hhi
  have h₁ : h.Covers (g.first + g.size - 1) := ⟨by omega, by omega⟩
  have h₂ : h.Covers (g.first + g.size - 1 + 1) := ⟨by omega, by omega⟩
  exact hg.right (g.first + g.size - 1) (by omega) ⟨hh.all _ h₂, hh.glued _ h₁ h₂⟩

/-- Maximal runs with a common number are equal. -/
theorem MaximalRun.eq_of_covers {F J : ℕ → Prop} (hg : MaximalRun F J g) (hh : MaximalRun F J h)
    {i : ℕ} (hgi : g.Covers i) (hhi : h.Covers i) : g = h := by
  have h₁ := hg.first_le hh hgi hhi
  have h₂ := hh.first_le hg hhi hgi
  have h₃ := hg.stop_le hh hgi hhi
  have h₄ := hh.stop_le hg hhi hgi
  cases g
  cases h
  simp only [Span.mk.injEq] at *
  omega

/-- It matters only for neighbours in `F` whether they are glued. -/
theorem MaximalRun.congr {F J F' J' : ℕ → Prop} (hg : MaximalRun F J g) (hF : ∀ i, F i ↔ F' i)
    (hJ : ∀ i, F i → F (i + 1) → (J i ↔ J' i)) : MaximalRun F' J' g := by
  have hpos := hg.size_pos
  refine ⟨hpos, fun i hi => (hF i).mp (hg.all i hi),
    fun i hi hi' => (hJ i (hg.all i hi) (hg.all (i + 1) hi')).mp (hg.glued i hi hi'), ?_, ?_⟩
  · rintro i hi ⟨hf, hj⟩
    have hnext := hg.all (i + 1) ⟨by omega, by omega⟩
    exact hg.left i hi ⟨(hF i).mpr hf, (hJ i ((hF i).mpr hf) hnext).mpr hj⟩
  · rintro i hi ⟨hf, hj⟩
    have hlast := hg.all i ⟨by omega, by omega⟩
    exact hg.right i hi ⟨(hF _).mpr hf, (hJ i hlast ((hF _).mpr hf)).mpr hj⟩

/-- Two lists of spans that consist of all the maximal runs of the same data have the same spans:
every run of the first list covers a number with `F`, and the second list covers that number. -/
theorem mem_of_maximalRun {F J : ℕ → Prop} {l' : List Span} (hl : ∀ g ∈ l, MaximalRun F J g)
    (hl' : ∀ g ∈ l', MaximalRun F J g) (hcov : ∀ i, F i → ∃ g ∈ l', g.Covers i) (hg : g ∈ l) :
    g ∈ l' := by
  have hrun := hl g hg
  have hfirst : g.Covers g.first := ⟨le_rfl, by have := hrun.size_pos; omega⟩
  obtain ⟨h, hh, hcov⟩ := hcov _ (hrun.all _ hfirst)
  rwa [hrun.eq_of_covers (hl' h hh) hfirst hcov]

/-- In a tiling whose spans `free` are maximal runs, each of them ends at one of the `cuts` or in
front of a span of `used`.  Hence there are not many of them. -/
theorem Tiles.length_le_of_maximalRun {F J : ℕ → Prop} {rest used free : List Span} {cuts : List ℕ}
    (ht : Tiles n (rest ++ (used ++ free))) (hrun : ∀ g ∈ free, MaximalRun F J g)
    (hcuts : ∀ i < n, i ∉ cuts → i + 1 < n ∧ J i)
    (hrest : ∀ h ∈ rest, ∀ i, i + 1 = h.first → i ∈ cuts) :
    free.length ≤ used.length + cuts.length := by
  have hall : ∀ {g}, g ∈ free → g ∈ rest ++ (used ++ free) := fun hg =>
    List.mem_append_right _ (List.mem_append_right _ hg)
  have hlast : ∀ {g}, g ∈ free → 0 < g.size := fun hg => (hrun _ hg).size_pos
  have hnd : (free.map Span.stop).Nodup := by
    refine List.Nodup.map_on (fun g hg h hh he => ?_)
      (List.nodup_append.mp (List.nodup_append.mp ht.nodup).2.1).2.1
    have hpg := hlast hg
    have hph := hlast hh
    unfold Span.stop at he
    exact ht.eq_of_covers (hall hg) (hall hh) (i := g.first + g.size - 1) ⟨by omega, by omega⟩
      ⟨by omega, by omega⟩
  have hsub : free.map Span.stop ⊆ used.map Span.first ++ cuts.map Nat.succ := by
    intro x hx
    obtain ⟨g, hg, rfl⟩ := List.mem_map.mp hx
    obtain ⟨i, hi⟩ : ∃ i, i + 1 = g.first + g.size :=
      ⟨g.first + g.size - 1, by have := hlast hg; omega⟩
    by_cases hcut : i ∈ cuts
    · exact List.mem_append_right _ (List.mem_map.mpr ⟨i, hcut, hi⟩)
    · have hle := ht.stop_le (hall hg)
      obtain ⟨hlt, hJ⟩ := hcuts i (by omega) hcut
      obtain ⟨h, hh, hcov⟩ := ht.exists_covers hlt
      have hadj : i + 1 = h.first := hi.trans (ht.adjacent_right (hall hg) hh (hi ▸ hcov))
      rcases List.mem_append.mp hh with hh | hh
      · exact absurd (hrest h hh i hadj) hcut
      rcases List.mem_append.mp hh with hh | hh
      · exact List.mem_append_left _ (List.mem_map.mpr ⟨h, hh, hadj.symm.trans hi⟩)
      · -- two runs that could be joined
        exact absurd ⟨(hrun h hh).all _ hcov, hJ⟩ ((hrun g hg).right i hi)
  have hlen := (hnd.subperm hsub).length_le
  rwa [List.length_map, List.length_append, List.length_map, List.length_map] at hlen

end Tiling
