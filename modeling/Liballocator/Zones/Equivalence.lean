import Liballocator.Zones.Independence

/-!
# The code and the heap have the same dialogues

`Heap.Dialogue` is a dialogue with the heap alone: lists of zones, chunks and groups, and no memory.
Every dialogue with the code is one with the heap, and the code can always answer as the heap does
(`Dialogue.exists_iff`).  So the heap says all about the allocator that its users can observe.
-/

namespace Liballocator

open Program LinkedList Tiling

section Equivalence

variable [Platform]

/-- The heaps that calls lead to from the heap `H₀`, with the calls and their answers, the last one
first, and the blocks that are live. -/
inductive Heap.Dialogue (L : Layout) (H₀ : Heap) : List (Call × Answer) → Heap → List Block → Prop
  | start : Dialogue L H₀ [] H₀ []
  | allocate {l : List (Call × Answer)} {H : Heap} {blocks : List Block} (size : ℕ) :
    Dialogue L H₀ l H blocks →
    Dialogue L H₀ ((.allocate size, .pointer (H.allocate L size).1) :: l) (H.allocate L size).2
      (if (H.allocate L size).1 = 0 then blocks else ⟨(H.allocate L size).1, size⟩ :: blocks)
  | release {l : List (Call × Answer)} {H : Heap} {blocks : List Block} {b : Block} :
    Dialogue L H₀ l H blocks → b ∈ blocks →
    Dialogue L H₀ ((.release b.ptr, .nothing) :: l) (H.release L b.ptr) (blocks.erase b)
  | getStats {l : List (Call × Answer)} {H : Heap} {blocks : List Block} :
    Dialogue L H₀ l H blocks → Dialogue L H₀ ((.getStats, .stats (H.stats L)) :: l) H blocks

variable {L : Layout} {r : Group} {a₀ : Pages} {H H₀ : Heap} {blocks : List Block}
  {s s₀ s₁ : State} {l : List (Call × Answer)}

/-- In a dialogue the heap serves the users. -/
theorem Heap.Dialogue.serves (h : Heap.Dialogue L H₀ l H blocks) (S : Site L r a₀)
    (hv₀ : Serves L r a₀ H₀ [] []) : ∃ leaked, Serves L r a₀ H blocks leaked := by
  induction h with
  | start => exact ⟨[], hv₀⟩
  | allocate size _ ih =>
    obtain ⟨leaked, hv⟩ := ih
    refine ⟨leaked, ?_⟩
    rcases hv.allocate S.toArena size with ⟨h0, hv', -⟩ | ⟨hne, hv'⟩
    · rwa [if_pos h0]
    · rwa [if_neg hne]
  | release _ hb ih =>
    obtain ⟨leaked, hv⟩ := ih
    obtain ⟨leaked', hv', -⟩ := hv.release S.toArena hb
    exact ⟨leaked', hv'⟩
  | getStats _ ih => exact ih

/-- The answers of the heap are possible answers of the code. -/
theorem Heap.Dialogue.exists_dialogue (h : Heap.Dialogue L H₀ l H blocks) (S : Site L r a₀)
    (hr₀ : HeapRep L H₀ s₀) (hv₀ : Serves L r a₀ H₀ [] []) :
    ∃ s, Liballocator.Dialogue s₀ l s blocks ∧ HeapRep L H s := by
  induction h with
  | start => exact ⟨s₀, .start, hr₀⟩
  | allocate size h ih =>
    obtain ⟨s, hd, hr⟩ := ih
    obtain ⟨leaked, hv⟩ := h.serves S hv₀
    obtain ⟨_, s', hcall, rfl, hr', -⟩ := hr.allocate hv S.toArena size
    exact ⟨s', hd.allocate hcall, hr'⟩
  | release h hb ih =>
    obtain ⟨s, hd, hr⟩ := ih
    obtain ⟨leaked, hv⟩ := h.serves S hv₀
    obtain ⟨⟨⟩, s', hcall, hr', -⟩ := hr.release hv S.toArena S.placed hb
    exact ⟨s', hd.release hb hcall, hr'⟩
  | getStats h ih =>
    obtain ⟨s, hd, hr⟩ := ih
    obtain ⟨leaked, hv⟩ := h.serves S hv₀
    obtain ⟨_, s', hcall, rfl, rfl⟩ := hr.getStats hv.wf S.toArena
    exact ⟨_, hd.getStats hcall, hr⟩

/-- The answers of the code are possible answers of the heap. -/
theorem Dialogue.exists_heap (h : Dialogue s₀ l s blocks) (S : Site L r a₀) (hr₀ : HeapRep L H₀ s₀)
    (hv₀ : Serves L r a₀ H₀ [] []) : ∃ H, Heap.Dialogue L H₀ l H blocks ∧ HeapRep L H s := by
  induction h with
  | start => exact ⟨H₀, .start, hr₀⟩
  | allocate _ hcall ih =>
    obtain ⟨H, hd, hr⟩ := ih
    obtain ⟨leaked, hv⟩ := hd.serves S hv₀
    obtain ⟨rfl, hr', -⟩ := (hr.allocate hv S.toArena _).of_run_eq hcall
    exact ⟨_, hd.allocate _, hr'⟩
  | release _ hb hcall ih =>
    obtain ⟨H, hd, hr⟩ := ih
    obtain ⟨leaked, hv⟩ := hd.serves S hv₀
    obtain ⟨hr', -⟩ := (hr.release hv S.toArena S.placed hb).of_run_eq hcall
    exact ⟨_, hd.release hb, hr'⟩
  | getStats _ hcall ih =>
    obtain ⟨H, hd, hr⟩ := ih
    obtain ⟨leaked, hv⟩ := hd.serves S hv₀
    obtain ⟨rfl, rfl⟩ := (hr.getStats hv.wf S.toArena).of_run_eq hcall
    exact ⟨H, hd.getStats, hr⟩
  | write _ hm ih =>
    obtain ⟨H, hd, hr⟩ := ih
    obtain ⟨leaked, hv⟩ := hd.serves S hv₀
    exact ⟨H, hd, hr.write hv S hm⟩

variable {regions : List Region} {ps : ℕ}

/-- After `init` the possible dialogues with the code are those with the heap that has only the
initial zone; the memory before `init` has no influence on this heap. -/
theorem Dialogue.exists_iff (hg : GoodArguments regions ps) (hps : ps ≤ 4096)
    (hinit : init regions ps s₀ = .ok (true, s₁)) :
    ∃ g a, (Pages.initial (accepted ps regions) ps).allocate 1 = (some g, a) ∧
      ∀ l blocks, (∃ s, Dialogue s₁ l s blocks) ↔
        ∃ H, Heap.Dialogue (layout (hg.usable_of_init hinit).toFitting)
          (Heap.initial (layout (hg.usable_of_init hinit).toFitting) a g.first) l H blocks := by
  have S := (hg.usable_of_init hinit).site hg.few hps
  obtain ⟨g, a, hal, hr⟩ := hg.initial_of_init hps hinit
  have hv := S.serves_initial hal
  refine ⟨g, a, hal, fun l blocks => ⟨?_, ?_⟩⟩
  · rintro ⟨s, h⟩
    obtain ⟨H, hd, -⟩ := h.exists_heap S hr hv
    exact ⟨H, hd⟩
  · rintro ⟨H, h⟩
    obtain ⟨s, hd, -⟩ := h.exists_dialogue S hr hv
    exact ⟨s, hd⟩

end Equivalence

section Separate

attribute [local instance] lp64

/-- The heap is asked for eight bytes, and the code can answer the same. -/
theorem Dialogue.exists_iff_separate : ∃ s₁ g a s blocks,
    init separateRegions 256 blankState = .ok (true, s₁) ∧
      Dialogue s₁ [(.allocate 8, .pointer ((Heap.initial (layout separateRegions_fitting) a
        g).allocate (layout separateRegions_fitting) 8).1)] s blocks := by
  obtain ⟨s₁, hinit, -⟩ := separateRegions_usable.exists_init (by decide) (by decide)
    (show _ = some ⟨2, 1⟩ by decide) blankState
  obtain ⟨g, a, -, hiff⟩ := Dialogue.exists_iff separateRegions_good (by decide) hinit
  obtain ⟨s, hd⟩ := (hiff _ _).mpr ⟨_, Heap.Dialogue.start.allocate 8⟩
  exact ⟨s₁, g.first, a, s, _, hinit, hd⟩

end Separate

end Liballocator
