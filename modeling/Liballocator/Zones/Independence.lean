import Liballocator.Zones.Statistics

/-!
# What the answers depend on

The answers of the allocator to a sequence of calls are a function of the heap after `init`
(`Heap.answers`), which depends on the regions and on the page size only.  Neither what the memory
has held before `init` nor what the users write to their blocks has an influence on them, nor on
whether a call returns.
-/

namespace Liballocator

open Program LinkedList Tiling

/-- A call after `init`. -/
inductive Call
  | allocate (size : ℕ)
  | release (ptr : ℕ)
  | getStats
  deriving DecidableEq, Repr

/-- What a call returns. -/
inductive Answer
  | pointer (ptr : ℕ)
  | nothing
  | stats (stats : Stats)
  deriving DecidableEq, Repr

section Independence

variable [Platform]

/-- The states that calls lead to from the state `s₀`, with the calls and their answers, the last
one first, and the blocks that are live; between the calls the users write to their blocks. -/
inductive Dialogue (s₀ : State) : List (Call × Answer) → State → List Block → Prop
  | start : Dialogue s₀ [] s₀ []
  | allocate {l : List (Call × Answer)} {s s' : State} {blocks : List Block} {size ptr : ℕ} :
    Dialogue s₀ l s blocks → Liballocator.allocate size s = .ok (ptr, s') →
    Dialogue s₀ ((.allocate size, .pointer ptr) :: l) s'
      (if ptr = 0 then blocks else ⟨ptr, size⟩ :: blocks)
  | release {l : List (Call × Answer)} {s s' : State} {blocks : List Block} {b : Block} :
    Dialogue s₀ l s blocks → b ∈ blocks → Liballocator.release b.ptr s = .ok (⟨⟩, s') →
    Dialogue s₀ ((.release b.ptr, .nothing) :: l) s' (blocks.erase b)
  | getStats {l : List (Call × Answer)} {s s' : State} {blocks : List Block} {stats : Stats} :
    Dialogue s₀ l s blocks → Liballocator.getStats s = .ok (stats, s') →
    Dialogue s₀ ((.getStats, .stats stats) :: l) s' blocks
  | write {l : List (Call × Answer)} {s : State} {blocks : List Block} {m : Mem} :
    Dialogue s₀ l s blocks →
    (∀ x, (∀ b ∈ blocks, x ∉ b.bytes s.self.pageSize) → m x = s.mem x) →
    Dialogue s₀ l { s with pages := { s.pages with mem := m } } blocks

/-- The code of a call, with its answer. -/
def Call.run : Call → ZoneM Answer
  | .allocate size => do return .pointer (← Liballocator.allocate size)
  | .release ptr => do
    Liballocator.release ptr
    return .nothing
  | .getStats => do return .stats (← Liballocator.getStats)

/-- A call may not release anything but live blocks. -/
def Call.Allowed (blocks : List Block) : Call → Prop
  | .release ptr => ∃ b ∈ blocks, b.ptr = ptr
  | _ => True

namespace Heap

/-- The answer to a call, and the heap after it. -/
def answer (L : Layout) (H : Heap) : Call → Answer × Heap
  | .allocate size => (.pointer (H.allocate L size).1, (H.allocate L size).2)
  | .release ptr => (.nothing, H.release L ptr)
  | .getStats => (.stats (H.stats L), H)

/-- The answers to a sequence of calls, the last one first, and the heap after them. -/
def answers (L : Layout) (H : Heap) : List Call → List Answer × Heap
  | [] => ([], H)
  | c :: cs => (((answers L H cs).2.answer L c).1 :: (answers L H cs).1,
    ((answers L H cs).2.answer L c).2)

end Heap

variable {L : Layout} {r : Group} {a₀ : Pages} {H H₀ : Heap} {blocks blocks' : List Block}
  {s s' s₀ s₀' s₁ s₁' : State} {l l' : List (Call × Answer)}

/-- The answers of the code are those of the heap. -/
theorem Dialogue.simulation (h : Dialogue s₀ l s blocks) (S : Site L r a₀) (hr₀ : HeapRep L H₀ s₀)
    (hv₀ : Serves L r a₀ H₀ [] []) :
    l.map Prod.snd = (H₀.answers L (l.map Prod.fst)).1 ∧
      HeapRep L (H₀.answers L (l.map Prod.fst)).2 s ∧
      ∃ leaked, Serves L r a₀ (H₀.answers L (l.map Prod.fst)).2 blocks leaked := by
  induction h with
  | start => exact ⟨rfl, hr₀, [], hv₀⟩
  | @allocate l s s' blocks size ptr _ hcall ih =>
    obtain ⟨hans, hr, leaked, hv⟩ := ih
    obtain ⟨rfl, hr', -⟩ := (hr.allocate hv S.toArena size).of_run_eq hcall
    simp only [List.map_cons, Heap.answers, Heap.answer, ← hans]
    refine ⟨trivial, hr', leaked, ?_⟩
    rcases hv.allocate S.toArena size with ⟨h0, hv', -⟩ | ⟨hne, hv'⟩
    · rwa [if_pos h0]
    · rwa [if_neg hne]
  | @release l s s' blocks b _ hb hcall ih =>
    obtain ⟨hans, hr, leaked, hv⟩ := ih
    obtain ⟨hr', -⟩ := (hr.release hv S.toArena S.placed hb).of_run_eq hcall
    obtain ⟨leaked', hv', -⟩ := hv.release S.toArena hb
    simp only [List.map_cons, Heap.answers, Heap.answer, ← hans]
    exact ⟨trivial, hr', leaked', hv'⟩
  | @getStats l s s' blocks stats _ hcall ih =>
    obtain ⟨hans, hr, leaked, hv⟩ := ih
    obtain ⟨rfl, rfl⟩ := (hr.getStats hv.wf S.toArena).of_run_eq hcall
    simp only [List.map_cons, Heap.answers, Heap.answer, ← hans]
    exact ⟨trivial, hr, leaked, hv⟩
  | write _ hm ih =>
    obtain ⟨hans, hr, leaked, hv⟩ := ih
    exact ⟨hans, hr.write hv S hm, leaked, hv⟩

/-- An allowed call returns, with the answer of the heap. -/
theorem HeapRep.answer {leaked : List Group} (hr : HeapRep L H s) (S : Site L r a₀)
    (hv : Serves L r a₀ H blocks leaked) {c : Call} (hc : c.Allowed blocks) :
    ∃ s', c.run s = .ok ((H.answer L c).1, s') := by
  have hwp : wp c.run (fun a _ => a = (H.answer L c).1) s := by
    cases c with
    | allocate size =>
      simp only [Call.run, wp_bind, wp_pure]
      exact (hr.allocate hv S.toArena size).mono fun _ _ h => congrArg Answer.pointer h.1
    | release ptr =>
      obtain ⟨b, hb, rfl⟩ := hc
      simp only [Call.run, wp_bind, wp_pure]
      exact (hr.release hv S.toArena S.placed hb).mono fun _ _ _ => rfl
    | getStats =>
      simp only [Call.run, wp_bind, wp_pure]
      exact (hr.getStats hv.wf S.toArena).mono fun _ _ h => congrArg Answer.stats h.1
  obtain ⟨_, s', hrun, rfl⟩ := hwp
  exact ⟨s', hrun⟩

variable {regions : List Region} {ps : ℕ}

/-- Two runs with the same calls get the same answers, whatever the memory has held before `init`
and whatever the users write to their blocks.  The next call returns in both of them, with the same
answer. -/
theorem Dialogue.eq_of_calls (hg : GoodArguments regions ps) (hps : ps ≤ 4096)
    (hinit : init regions ps s₀ = .ok (true, s₁)) (s₀' : State) :
    ∃ s₁', init regions ps s₀' = .ok (true, s₁') ∧
      ∀ {l l' s s' blocks blocks'}, Dialogue s₁ l s blocks → Dialogue s₁' l' s' blocks' →
        l.map Prod.fst = l'.map Prod.fst → l = l' ∧
          ∀ c : Call, c.Allowed blocks ∨ c.Allowed blocks' →
            ∃ a s₂ s₂', c.run s = .ok (a, s₂) ∧ c.run s' = .ok (a, s₂') := by
  have h := hg.usable_of_init hinit
  have S := h.site hg.few hps
  obtain ⟨g, a, hal, hr⟩ := hg.initial_of_init hps hinit
  have hal₁ : ((Pages.initial (accepted ps regions) ps).allocate 1).1 = some g := by rw [hal]
  obtain ⟨s₁', hinit', hr'⟩ := h.exists_init hg.few hps hal₁ s₀'
  rw [hal] at hr'
  refine ⟨s₁', hinit', fun {l l' s s' _ _} hl hl' hcalls => ?_⟩
  have hv := S.serves_initial hal
  obtain ⟨hans, hra, leaked, hva⟩ := hl.simulation S hr hv
  obtain ⟨hans', hra', leaked', hva'⟩ := hl'.simulation S hr' hv
  rw [← hcalls] at hans' hra' hva'
  constructor
  · rw [← List.zip_unzip l, ← List.zip_unzip l', List.unzip_fst, List.unzip_snd, List.unzip_fst,
      List.unzip_snd, hcalls, hans, hans']
  · -- both runs have come to the same heap
    rintro c (hc | hc)
    · obtain ⟨s₂, hrun⟩ := hra.answer S hva hc
      obtain ⟨s₂', hrun'⟩ := hra'.answer S hva hc
      exact ⟨_, s₂, s₂', hrun, hrun'⟩
    · obtain ⟨s₂, hrun⟩ := hra.answer S hva' hc
      obtain ⟨s₂', hrun'⟩ := hra'.answer S hva' hc
      exact ⟨_, s₂, s₂', hrun, hrun'⟩

end Independence

section Separate

attribute [local instance] lp64

/-- An allocator that has been used before, in a memory full of ones. -/
def usedState : State :=
  { self := ⟨true, 256, 4096, 3, fun _ => ⟨4096, 5⟩⟩
    pages := { blankPages with mem := fun _ => 1 } }

/-- An allocation after `init` in the one memory and in the other, and then the release of the
block. -/
theorem Dialogue.eq_of_calls_separate : ∃ s₁ s s₁' s' l l' b b' a s₂ s₂',
    init separateRegions 256 blankState = .ok (true, s₁) ∧
      init separateRegions 256 usedState = .ok (true, s₁') ∧
      Dialogue s₁ l s [b] ∧ Dialogue s₁' l' s' b' ∧ l.map Prod.fst = [.allocate 8] ∧ l = l' ∧
      (Call.release b.ptr).run s = .ok (a, s₂) ∧ (Call.release b.ptr).run s' = .ok (a, s₂') := by
  obtain ⟨s₁, s, ptr, hinit, hcall, hne⟩ := exists_calls_separate blankState
  obtain ⟨s₁', s', ptr', hinit', hcall', -⟩ := exists_calls_separate usedState
  obtain ⟨s₂, hinit₂, heq⟩ :=
    Dialogue.eq_of_calls separateRegions_good (by decide) hinit usedState
  cases hinit'.symm.trans hinit₂
  have hl := Dialogue.start.allocate hcall
  have hl' := Dialogue.start.allocate hcall'
  rw [if_neg hne] at hl
  obtain ⟨hll, hnext⟩ := heq hl hl' rfl
  obtain ⟨a, t, t', hrun, hrun'⟩ := hnext (.release ptr) (Or.inl ⟨_, List.mem_cons_self, rfl⟩)
  exact ⟨s₁, s, s₁', s', _, _, ⟨ptr, 8⟩, _, a, t, t', hinit, hinit', hl, hl', rfl, hll, hrun, hrun'⟩

end Separate

end Liballocator
