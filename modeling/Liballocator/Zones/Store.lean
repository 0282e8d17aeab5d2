import Liballocator.Library.ObjectStore
import Liballocator.Zones.Safety

/-!
# The allocator as an object store

`Session` is the allocator together with its users, who write to the cells of their blocks and read
them.  Every trace of it is one of an object store (`Session.refines_store`): the users see objects
that are apart from each other and that keep their contents, although all of them lie in one memory
in which the allocator keeps its own data, too.
-/

namespace Liballocator

open Program Tiling Simulation ObjectStore

section Store

variable [Platform]

/-- Calls and accesses of the users to their blocks. -/
inductive Session : State × List Block → Event ℕ ℕ → State × List Block → Prop
  | allocate {s s' : State} {blocks : List Block} {size ptr : ℕ} :
    Liballocator.allocate size s = .ok (ptr, s') → ptr ≠ 0 →
    Session (s, blocks) (.allocate size (some ptr)) (s', ⟨ptr, size⟩ :: blocks)
  | refuse {s s' : State} {blocks : List Block} {size : ℕ} :
    Liballocator.allocate size s = .ok (0, s') →
    Session (s, blocks) (.allocate size none) (s', blocks)
  | release {s s' : State} {blocks : List Block} {b : Block} :
    b ∈ blocks → Liballocator.release b.ptr s = .ok (⟨⟩, s') →
    Session (s, blocks) (.release b.ptr) (s', blocks.erase b)
  | write {s : State} {blocks : List Block} {b : Block} {k v : ℕ} : b ∈ blocks → k < b.size →
    Session (s, blocks) (.write b.ptr k v)
      ({ s with pages := { s.pages with mem := Function.update s.mem (b.ptr + k) v } }, blocks)
  | read {s : State} {blocks : List Block} {b : Block} {k : ℕ} : b ∈ blocks → k < b.size →
    Session (s, blocks) (.read b.ptr k (s.mem (b.ptr + k))) (s, blocks)

variable {L : Layout} {r : Group} {a₀ : Pages} {H : Heap} {blocks l : List Block}
  {leaked : List Group} {b c : Block} {s s' s₀ s₁ : State}

/-- What a user may access of a block belongs to the block. -/
theorem Serves.cell_mem (S : Site L r a₀) {k : ℕ} (hk : k < b.size) :
    b.ptr + k ∈ b.bytes L.pageSize := by
  have hlen := b.size_le_length S.sound.pageSize.pos S.pageSize_le
  exact ⟨Nat.le_add_right _ _, Nat.add_lt_add_left (hk.trans_le hlen) _⟩

/-- The live blocks are extents of the memory. -/
theorem Serves.extents (hv : Serves L r a₀ H blocks leaked) (S : Site L r a₀)
    (hpos : ∀ b ∈ blocks, 0 < b.size) : Extents Block.ptr Block.size blocks := by
  refine ⟨hpos, List.pairwise_iff_forall_sublist.mpr fun {b c} hsub => ?_⟩
  obtain ⟨rest, hp⟩ := hsub.exists_perm_append
  have hb := hpos b (hsub.subset (by simp))
  have hc := hpos c (hsub.subset (by simp))
  -- if they overlapped, one of them would start in the other
  by_contra hnot
  rcases Nat.le_total b.ptr c.ptr with hle | hle
  · have hmem := Serves.cell_mem (b := b) S (k := c.ptr - b.ptr) (by omega)
    rw [Nat.add_sub_cancel' hle] at hmem
    exact hv.bytes_apart S hp hmem (Serves.cell_mem S hc)
  · have hmem := Serves.cell_mem (b := c) S (k := b.ptr - c.ptr) (by omega)
    rw [Nat.add_sub_cancel' hle] at hmem
    exact hv.bytes_apart S hp (Serves.cell_mem S hb) hmem

/-- What a call does not write keeps the contents of the blocks. -/
theorem Serves.keep (hv : Serves L r a₀ H blocks leaked) (S : Site L r a₀) (hl : l ⊆ blocks)
    (hfr : ∀ a ∈ H.userBytes L l leaked ∪ L.outside, s'.mem a = s.mem a) :
    Keep Block.ptr Block.size l s.mem s'.mem :=
  fun _ hb _ hk => hfr _ (Or.inl (hv.bytes_subset_of_mem S hl hb (Serves.cell_mem S hk)))

/-- The state serves the users with the given extents and memory. -/
def Serving (L : Layout) (r : Group) (a₀ : Pages) (session : State × List Block)
    (flat : List Block × Mem) : Prop :=
  Running L r a₀ session.1 session.2 ∧ (∀ b ∈ session.2, 0 < b.size) ∧
    flat = (session.2, session.1.mem)

/-- The allocator works on the extents of a flat memory. -/
theorem Session.simulates (S : Site L r a₀) :
    Simulates Session (FlatStep Block.ptr Block.size) (Serving L r a₀) := by
  rintro _ _ e _ ⟨hrunning, hpos, rfl⟩ hstep
  obtain ⟨H, leaked, hr, hv, hleak⟩ := hrunning
  cases hstep with
  | @allocate s s' blocks size ptr hcall hne =>
    obtain ⟨rfl, hr', hfr⟩ := (hr.allocate hv S.toArena size).of_run_eq hcall
    have hv' := (hv.allocate S.toArena size).resolve_left fun h => hne h.1
    have hsize : 0 < size := by
      apply Nat.pos_of_ne_zero
      rintro rfl
      exact hne rfl
    have hpos' : ∀ b ∈ (⟨(H.allocate L size).1, size⟩ :: blocks : List Block), 0 < b.size := by
      intro b hb
      rcases List.mem_cons.mp hb with rfl | hb
      · exact hsize
      · exact hpos b hb
    exact ⟨_, .allocate (hv'.2.extents S hpos') (hv.keep S (List.Subset.refl _) hfr),
      ⟨_, leaked, hr', hv'.2, hleak⟩, hpos', rfl⟩
  | @refuse s s' blocks size hcall =>
    obtain ⟨h0, hr', hfr⟩ := (hr.allocate hv S.toArena size).of_run_eq hcall
    have hv' := (hv.allocate S.toArena size).resolve_right fun h => h.1 h0.symm
    exact ⟨_, .refuse (hv.keep S (List.Subset.refl _) hfr), ⟨_, leaked, hr', hv'.2.1, hleak⟩, hpos,
      rfl⟩
  | @release s s' blocks b hb hcall =>
    obtain ⟨hr', hfr⟩ := (hr.release hv S.toArena S.placed hb).of_run_eq hcall
    obtain ⟨leaked', hv', hleak'⟩ := hv.release S.toArena hb
    exact ⟨_, .release hb (hv.keep S List.erase_subset hfr),
      ⟨_, leaked', hr', hv', fun hall => (hleak' hall).trans (hleak hall)⟩,
      fun c hc => hpos c (List.mem_of_mem_erase hc), rfl⟩
  | @write s blocks b k v hb hk =>
    refine ⟨_, .write hb hk, ⟨H, leaked, hr.write hv S fun x hx => ?_, hv, hleak⟩, hpos, rfl⟩
    refine Function.update_of_ne ?_ _ _
    rintro rfl
    rw [hr.pageSize] at hx
    exact hx b hb (Serves.cell_mem S hk)
  | @read s blocks b k hb hk => exact ⟨_, .read hb hk, ⟨H, leaked, hr, hv, hleak⟩, hpos, rfl⟩

/-- Every trace of the allocator and its users is a trace of an object store. -/
theorem Running.trace_store {events : List (Event ℕ ℕ)} (h₀ : Running L r a₀ s₁ [])
    (S : Site L r a₀) (htrace : Trace Session (s₁, []) events (s, blocks)) :
    Trace ObjectStore.Step (fun _ => none) events
      (objects Block.ptr Block.size s.mem blocks) := by
  have hempty : Extents Block.ptr Block.size [] := ⟨by simp, .nil⟩
  obtain ⟨_, htrace', flat, ⟨-, -, hflat⟩, -, rfl⟩ :=
    htrace.simulate ((Session.simulates S).comp flat_simulates)
      ⟨([], s₁.mem), ⟨h₀, by simp, rfl⟩, hempty, rfl⟩
  rw [hflat] at htrace'
  exact htrace'

/-! ### Every session -/

variable {regions : List Region} {ps : ℕ} {events events' : List (Event ℕ ℕ)} {p k v w : ℕ}

/-- After `init` the users see an object store: whatever they do, the allocator answers like one that
keeps every object apart from the others. -/
theorem Session.refines_store (hg : GoodArguments regions ps) (hps : ps ≤ 4096)
    (hinit : init regions ps s₀ = .ok (true, s₁))
    (htrace : Trace Session (s₁, []) events (s, blocks)) :
    Trace ObjectStore.Step (fun _ => none) events
      (objects Block.ptr Block.size s.mem blocks) :=
  (hg.running hps hinit .start).trace_store ((hg.usable_of_init hinit).site hg.few hps) htrace

/-- Users read from their blocks what they have written there last, whatever has been allocated,
released and written elsewhere since. -/
theorem Session.read_of_write (hg : GoodArguments regions ps) (hps : ps ≤ 4096)
    (hinit : init regions ps s₀ = .ok (true, s₁))
    (htrace : Trace Session (s₁, []) (.read p k w :: (events' ++ .write p k v :: events))
      (s, blocks))
    (hevents : ∀ e ∈ events', ¬e.Changes p k) : w = v := by
  have S := (hg.usable_of_init hinit).site hg.few hps
  exact ObjectStore.eq_of_written ((hg.running hps hinit .start).trace_store S htrace) hevents

end Store

section Separate

attribute [local instance] lp64

/-- A block is allocated and written, another allocation follows, and the block is read. -/
theorem exists_session_separate : ∃ s₁ s blocks p e w,
    init separateRegions 256 blankState = .ok (true, s₁) ∧ (∃ result, e = .allocate 100 result) ∧
      Trace Session (s₁, []) (.read p 3 w :: ([e] ++ .write p 3 7 :: [.allocate 8 (some p)]))
        (s, blocks) := by
  obtain ⟨s₁, hinit, hr⟩ := separateRegions_usable.exists_init (by decide) (by decide)
    (show _ = some ⟨2, 1⟩ by decide) blankState
  have S := separateRegions_usable.site (by decide) (by decide)
  have hv : Serves (layout separateRegions_fitting) _ _ separateHeap [] [] :=
    S.serves_initial (g := ⟨2, 1⟩) (Prod.ext (by decide) rfl)
  have hr : HeapRep (layout separateRegions_fitting) separateHeap s₁ := hr
  obtain ⟨p, s, hcall, hp, hr', -⟩ := hr.allocate hv S.toArena 8
  have hne : (separateHeap.allocate (layout separateRegions_fitting) 8).1 ≠ 0 := by decide
  have hv' := ((hv.allocate S.toArena 8).resolve_left fun h => hne h.1).2
  rw [← hp] at hne
  rw [← hp] at hv'
  have hr'' := hr'.write hv' S (m := Function.update s.mem (p + 3) 7) fun x hx => by
    refine Function.update_of_ne ?_ _ _
    rintro rfl
    rw [hr'.pageSize] at hx
    exact hx _ List.mem_cons_self (Serves.cell_mem S (show 3 < 8 by decide))
  have h3 : 3 < (⟨p, 8⟩ : Block).size := show 3 < 8 by decide
  have hwrite : Trace Session (s₁, []) (.write p 3 7 :: [.allocate 8 (some p)]) _ :=
    (Trace.nil.snoc (.allocate hcall hne)).snoc (.write List.mem_cons_self h3)
  obtain ⟨q, s', hcall', -⟩ := hr''.allocate hv' S.toArena 100
  by_cases hq : q = 0
  · subst hq
    exact ⟨s₁, _, _, p, _, _, hinit, ⟨none, rfl⟩, (hwrite.snoc (.refuse hcall')).snoc
      (.read List.mem_cons_self h3)⟩
  · exact ⟨s₁, _, _, p, _, _, hinit, ⟨some q, rfl⟩, (hwrite.snoc (.allocate hcall' hq)).snoc
      (.read (List.mem_cons_of_mem _ List.mem_cons_self) h3)⟩

/-- The session is one of an object store. -/
theorem Session.refines_store_separate : ∃ s₁ s blocks events,
    init separateRegions 256 blankState = .ok (true, s₁) ∧ events ≠ [] ∧
      Trace Session (s₁, []) events (s, blocks) ∧ Trace ObjectStore.Step (fun _ => none) events
        (objects Block.ptr Block.size s.mem blocks) := by
  obtain ⟨s₁, s, blocks, p, e, w, hinit, -, htrace⟩ := exists_session_separate
  exact ⟨s₁, s, blocks, _, hinit, by simp, htrace,
    Session.refines_store separateRegions_good (by decide) hinit htrace⟩

/-- The seven that has been written is read. -/
theorem Session.read_of_write_separate : ∃ s₁ s blocks p e w,
    init separateRegions 256 blankState = .ok (true, s₁) ∧
      Trace Session (s₁, []) (.read p 3 w :: ([e] ++ .write p 3 7 :: [.allocate 8 (some p)]))
        (s, blocks) ∧ w = 7 := by
  obtain ⟨s₁, s, blocks, p, e, w, hinit, ⟨result, rfl⟩, htrace⟩ := exists_session_separate
  have hnot : ∀ e ∈ ([.allocate 100 result] : List (Event ℕ ℕ)), ¬e.Changes p 3 := by
    intro e he
    rw [List.mem_singleton.mp he]
    exact id
  exact ⟨s₁, s, blocks, p, _, w, hinit, htrace,
    Session.read_of_write separateRegions_good (by decide) hinit htrace hnot⟩

end Separate

end Liballocator
