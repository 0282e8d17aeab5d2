import Liballocator.Library.Tiling

/-!
# Pools of runs

A pool is a set of free numbers, some of which are glued to their successors.  Who takes `n` numbers
from it gets a run: free numbers in a row, each of them glued to the next one.  Nobody is refused as
long as there is such a run (`Step`).

A pool may keep its free numbers as a list of maximal runs.  Then a run can be taken exactly when
one of the maximal runs is large enough (`MaximalRun.isRun`, `IsRun.exists_maximalRun`).
-/

namespace RunPool

open Tiling

/-- What is taken from a pool and given to it. -/
inductive Event
  | take (n : ℕ) (first : Option ℕ)
  | give (g : Span)
  deriving DecidableEq, Repr

/-- The numbers of `g` satisfy `F`, and each of them is glued to the next one. -/
structure IsRun (F J : ℕ → Prop) (g : Span) : Prop where
  all : ∀ i, g.Covers i → F i
  glued : ∀ i, g.Covers i → g.Covers (i + 1) → J i

/-- The effect of an event on the free numbers. -/
inductive Step (J : ℕ → Prop) : (ℕ → Prop) → Event → (ℕ → Prop) → Prop
  | take {F : ℕ → Prop} {n first : ℕ} : 0 < n → IsRun F J ⟨first, n⟩ →
    Step J F (.take n (some first)) fun i => F i ∧ ¬(⟨first, n⟩ : Span).Covers i
  | refuse {F : ℕ → Prop} {n : ℕ} : (0 < n → ∀ first, ¬IsRun F J ⟨first, n⟩) →
    Step J F (.take n none) F
  | give {F : ℕ → Prop} {g : Span} : (∀ i, g.Covers i → ¬F i) →
    Step J F (.give g) fun i => F i ∨ g.Covers i

variable {F J : ℕ → Prop} {g h : Span} {l : List Span} {n i : ℕ}

/-- The first numbers of a maximal run are a run. -/
theorem IsRun.of_maximalRun (hh : MaximalRun F J h) (hn : n ≤ h.size) : IsRun F J ⟨h.first, n⟩ := by
  have hcov : ∀ {i}, (⟨h.first, n⟩ : Span).Covers i → h.Covers i := fun hi =>
    ⟨hi.1, hi.2.trans_le (Nat.add_le_add_left hn _)⟩
  exact ⟨fun i hi => hh.all i (hcov hi), fun i hi hi' => hh.glued i (hcov hi) (hcov hi')⟩

/-- A maximal run that covers the first number of a run covers all of it. -/
theorem IsRun.covers (hg : IsRun F J g) (hh : MaximalRun F J h) (hfirst : h.Covers g.first)
    (hi : g.Covers i) : h.Covers i := by
  obtain ⟨hge, hlt⟩ := hi
  induction i, hge using Nat.le_induction with
  | base => exact hfirst
  | succ i hge ih =>
    have hlast := ih (Nat.lt_of_succ_lt hlt)
    refine ⟨hlast.1.trans (Nat.le_succ i), ?_⟩
    by_contra hstop
    -- otherwise the maximal run could be extended
    have hend : i + 1 = h.first + h.size := le_antisymm hlast.2 (Nat.le_of_not_lt hstop)
    exact hh.right i hend ⟨hg.all _ ⟨hge.trans (Nat.le_succ i), hlt⟩,
      hg.glued i ⟨hge, Nat.lt_of_succ_lt hlt⟩ ⟨hge.trans (Nat.le_succ i), hlt⟩⟩

/-- One of the maximal runs is at least as large as a run. -/
theorem IsRun.exists_maximalRun (hg : IsRun F J g) (hpos : 0 < g.size)
    (hl : ∀ h ∈ l, MaximalRun F J h) (hcov : ∀ i, F i → ∃ h ∈ l, h.Covers i) :
    ∃ h ∈ l, g.size ≤ h.size := by
  have hfirst : g.Covers g.first := ⟨le_rfl, Nat.lt_add_of_pos_right hpos⟩
  obtain ⟨h, hh, hc⟩ := hcov _ (hg.all _ hfirst)
  have hlast := hg.covers (hl h hh) hc (i := g.first + g.size - 1) ⟨by omega, by omega⟩
  have hge := hc.1
  have hlt := hlast.2
  exact ⟨h, hh, by omega⟩

end RunPool
