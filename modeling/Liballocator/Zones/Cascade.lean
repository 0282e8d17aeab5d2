import Liballocator.Zones.Refine

/-!
# The rounds of `deallocateChunk`

A zone that becomes entirely free is removed, and the chunk of its descriptor is given back in the
same way.  `Cascade` follows these rounds without a bound on their number; `deallocateChunk` returns
`true` after them (`Cascade.run`).
-/

namespace Liballocator

open Program

variable [Platform]

namespace ZoneAllocator

/-- From the state `s` on, `deallocateChunk` gives back a chunk and then the descriptors of the
zones in the list, each of which has become entirely free; every chunk has a zone. -/
inductive Cascade : (s : State) → (chunk : ℕ) → List ℕ → State → Prop
  | stop {s s₁ : State} {chunk zone : ℕ} : findZone chunk s = .ok (zone, s) → zone ≠ 0 →
    returnChunk zone chunk s = .ok (⟨⟩, s₁) →
    ¬(s₁.mem (zone + 4 * wordBytes) = s₁.mem (zone + 5 * wordBytes) ∧ zone ≠ initialZone) →
    Cascade s chunk [] s₁
  | next {s s₁ s₂ s₃ s' : State} {chunk zone : ℕ} {zones : List ℕ} :
    findZone chunk s = .ok (zone, s) → zone ≠ 0 → returnChunk zone chunk s = .ok (⟨⟩, s₁) →
    s₁.mem (zone + 4 * wordBytes) = s₁.mem (zone + 5 * wordBytes) → zone ≠ initialZone →
    removeZone zone s₁ = .ok (⟨⟩, s₂) → clearZone zone s₂ = .ok (⟨⟩, s₃) →
    Cascade s₃ zone zones s' → Cascade s chunk (zone :: zones) s'

variable {s s' : State} {chunk : ℕ} {zones : List ℕ}

/-- The initial zone is never removed. -/
theorem Cascade.initialZone_notMem (h : Cascade s chunk zones s') : initialZone ∉ zones := by
  induction h with
  | stop => exact List.not_mem_nil
  | next _ _ _ _ hne _ _ _ ih =>
    rw [List.mem_cons, not_or]
    exact ⟨hne.symm, ih⟩

/-- One round of `deallocateChunk`: the chunk is given back to its zone, and the zone is removed if
it has become entirely free. -/
theorem wp_deallocateChunkWithin_succ {s₁ : State} {zone fuel : ℕ} {Q : Bool → State → Prop}
    (hfind : findZone chunk s = .ok (zone, s)) (h0 : zone ≠ 0)
    (hreturn : returnChunk zone chunk s = .ok (⟨⟩, s₁))
    (hnext : s₁.mem (zone + 4 * wordBytes) = s₁.mem (zone + 5 * wordBytes) ∧ zone ≠ initialZone →
      wp (removeZone zone) (fun _ => wp (clearZone zone) fun _ =>
        wp (deallocateChunkWithin fuel zone) Q) s₁)
    (hstop : ¬(s₁.mem (zone + 4 * wordBytes) = s₁.mem (zone + 5 * wordBytes) ∧
      zone ≠ initialZone) → Q true s₁) :
    wp (deallocateChunkWithin (fuel + 1) chunk) Q s := by
  rw [deallocateChunkWithin_succ, wp_bind]
  apply wp_of_run_eq hfind
  simp only [h0, if_false, wp_bind]
  apply wp_of_run_eq hreturn
  simp only [wp_liftMem', Zone.wp_chunksCount, Zone.wp_freeChunksCount, wp_ite, wp_bind, wp_pure]
  exact ⟨h0, h0, hnext, hstop⟩

/-- `deallocateChunk` goes through the rounds and returns `true`. -/
theorem Cascade.run (h : Cascade s chunk zones s') {fuel : ℕ} (hfuel : zones.length < fuel) :
    deallocateChunkWithin fuel chunk s = .ok (true, s') := by
  suffices hwp : wp (deallocateChunkWithin fuel chunk) (fun b t => b = true ∧ t = s') s by
    obtain ⟨_, _, hrun, rfl, rfl⟩ := hwp
    exact hrun
  induction h generalizing fuel with
  | stop hfind h0 hreturn hnot =>
    obtain ⟨fuel, rfl⟩ := Nat.exists_eq_add_of_lt hfuel
    apply wp_deallocateChunkWithin_succ hfind h0 hreturn
    · exact fun hall => absurd hall hnot
    · exact fun _ => ⟨rfl, rfl⟩
  | next hfind h0 hreturn hall hne hremove hclear _ ih =>
    obtain ⟨fuel, rfl⟩ := Nat.exists_eq_add_of_lt hfuel
    apply wp_deallocateChunkWithin_succ hfind h0 hreturn
    · intro _
      apply wp_of_run_eq hremove
      apply wp_of_run_eq hclear
      apply ih
      rw [List.length_cons]
      omega
    · exact fun hnot => absurd ⟨hall, hne⟩ hnot

end ZoneAllocator

end Liballocator
