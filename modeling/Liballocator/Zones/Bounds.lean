import Liballocator.Zones.Runs

/-!
# The array of classes

There are eight classes of chunks, of 16 to 2048 bytes.  A request that is rounded up to the page
size or more gets whole pages, so with pages of at most 4096 bytes every other request belongs to
one of the classes.  Larger pages are accepted too, and then a request for 2049 bytes asks for the
class number eight.

The class is looked up for the chunk size that a descriptor holds, too, so small pages are enough
only as long as nothing else writes to the descriptors.  On good arguments nothing does; a table
that is larger than its region may (`exists_outOfRange_tight`).
-/

namespace Liballocator

open Program

section Bounds

variable [Platform]

variable {regions : List Region} {ps idx zone chunkSize : ℕ} {s₀ s₁ s : State}

/-! ### The page size of the zone allocator -/

/-- `m_pageSize` of the zone allocator. -/
def State.zonePageSize (s : State) : ℕ := s.self.pageSize

namespace ZoneAllocator

omit [Platform] in
/-- Reading an entry of the array keeps the page size. -/
theorem preserves_zoneInfoAt : Preserves State.zonePageSize (zoneInfoAt idx) := by
  intro s
  simp only [zoneInfoAt, wlp_bind, wlp_ite, wlp_throw, wlp_pure, wlp_get]
  exact ⟨fun _ => trivial, fun _ => trivial⟩

omit [Platform] in
/-- Writing an entry of the array keeps the page size. -/
theorem preserves_setZoneInfoAt {info : ZoneInfo} :
    Preserves State.zonePageSize (setZoneInfoAt idx info) := by
  intro s
  simp only [setZoneInfoAt, wlp_bind, wlp_ite, wlp_throw, wlp_modify]
  exact ⟨fun _ => trivial, fun _ => rfl⟩

omit [Platform] in
/-- Code on memory keeps the page size. -/
theorem preserves_mem {α : Type} {x : MemM α} :
    Preserves State.zonePageSize (liftM x : ZoneM α) :=
  preserves_within fun _ _ => rfl

/-- `initZone` keeps the page size. -/
theorem preserves_initZone : Preserves State.zonePageSize (initZone zone chunkSize) := by
  intro s
  simp only [initZone, callPageAllocator, wlp_bind, wlp_assert, wlp_get, wlp_ite, wlp_throw,
    wlp_liftPages, wlp_liftMem', wlp_pure]
  refine fun _ => ⟨fun _ => trivial, fun _ => wlp_of_forall fun _ _ => ⟨fun _ => ?_, fun _ => rfl⟩⟩
  exact wlp_of_forall fun _ _ => rfl

/-- `addZone` keeps the page size. -/
theorem preserves_addZone : Preserves State.zonePageSize (addZone zone) := by
  have hassert : Preserves State.zonePageSize (assert (zone ≠ 0) : ZoneM PUnit) :=
    fun _ => wlp_assert.mpr fun _ => rfl
  exact hassert.bind fun _ => preserves_mem.bind fun _ => preserves_zoneInfoAt.bind fun _ =>
    preserves_mem.bind fun _ => preserves_zoneInfoAt.bind fun _ => preserves_setZoneInfoAt.bind
      fun _ => preserves_mem.bind fun _ => preserves_zoneInfoAt.bind fun _ => preserves_setZoneInfoAt

/-- `init` stores the page size. -/
theorem init_pageSize : wlp (init ps) (fun _ s' => s'.self.pageSize = ps) s := by
  simp only [init, clear, wlp_bind, wlp_modify, wlp_liftMem']
  refine wlp_of_forall fun _ m => (preserves_initZone _).mono ?_
  rintro ok s₁ h₁
  cases ok with
  | false =>
    rw [Bool.not_false, if_pos rfl, wlp_pure]
    exact h₁
  | true =>
    simp only [Bool.not_true, Bool.false_eq_true, if_false, wlp_bind, wlp_pure]
    exact (preserves_addZone s₁).mono fun _ _ h₂ => h₂.trans h₁

/-- With pages of more than 4096 bytes a request for 2049 bytes is out of range. -/
theorem allocate_outOfRange (hps : 4096 < s.self.pageSize) :
    ZoneAllocator.allocate 2049 s = .error .outOfRange := by
  have hchunk : Liballocator.chunkSize 2049 = 4096 :=
    (roundPowerOf2_eq (v := 2049) (by decide) (by decide)).trans (by decide)
  have hsmall : ¬(2049 ≥ s.self.pageSize ∨ 4096 ≥ s.self.pageSize) := by omega
  have hidx : zoneIdx 4096 = 8 := zoneIdx_classSize maxZoneIdx_lt
  simp only [ZoneAllocator.allocate, hchunk, hidx]
  change (if 2049 ≥ s.self.pageSize ∨ 4096 ≥ s.self.pageSize then _ else _ : ZoneM ℕ) s = _
  rw [if_neg hsmall]
  rfl

end ZoneAllocator

/-! ### Runs -/

/-- In no run from the state is an access to the array of classes out of range. -/
def RunsInRange (s₁ : State) : Prop :=
  ∀ s blocks, Run s₁ s blocks → (∀ size, Liballocator.allocate size s ≠ .error .outOfRange) ∧
    ∀ b ∈ blocks, Liballocator.release b.ptr s ≠ .error .outOfRange

/-- After a successful `init` on good arguments with pages of at most 4096 bytes no access to the
array of classes is ever out of range.  With larger pages some access is, whatever the regions. -/
theorem Run.inRange_of_good (hinit : init regions ps s₀ = .ok (true, s₁)) :
    (GoodArguments regions ps ∧ ps ≤ 4096 → RunsInRange s₁) ∧ (4096 < ps → ¬RunsInRange s₁) := by
  constructor
  · rintro ⟨hg, hle⟩ s blocks hrun
    have S := (hg.usable_of_init hinit).site hg.few hle
    have h₀ := hg.running hle hinit .start
    refine ⟨fun size he => ?_, fun b hb he => ?_⟩
    · obtain ⟨ptr, s', hcall⟩ := hrun.allocate_returns S h₀ size
      rw [hcall] at he
      cases he
    · obtain ⟨s', hcall⟩ := hrun.release_returns S h₀ hb
      rw [hcall] at he
      cases he
  · intro hlt h
    obtain ⟨p, s', -, hzones⟩ := init_true hinit
    have hps := ZoneAllocator.init_pageSize _ _ hzones
    exact (h s₁ [] .start).1 2049 (ZoneAllocator.allocate_outOfRange (hlt.trans_eq hps.symm))

end Bounds

section Separate

attribute [local instance] lp64

/-- On two regions with pages of 256 bytes no access is out of range. -/
theorem Run.inRange_separate : ∃ s₁, init separateRegions 256 blankState = .ok (true, s₁) ∧
    RunsInRange s₁ := by
  obtain ⟨s₁, hinit⟩ := exists_run (x := init separateRegions 256) (s := blankState) (a := true)
    (by decide +kernel)
  exact ⟨s₁, hinit, (Run.inRange_of_good hinit).1 ⟨separateRegions_good, by decide⟩⟩

/-- Two pages of 8192 bytes: the request for 2049 bytes is out of range. -/
theorem exists_outOfRange : ∃ s₁, isValidPageSize 8192 = true ∧
    init [⟨8192, 16384⟩] 8192 blankState = .ok (true, s₁) ∧
    Liballocator.allocate 2049 s₁ = .error .outOfRange := by
  obtain ⟨s₁, hinit⟩ := exists_run (x := init [⟨8192, 16384⟩] 8192) (s := blankState) (a := true)
    (by decide +kernel)
  obtain ⟨p, s', -, hzones⟩ := init_true hinit
  have hps := ZoneAllocator.init_pageSize _ _ hzones
  exact ⟨s₁, by decide, hinit, ZoneAllocator.allocate_outOfRange (by omega)⟩

/-- A region of one page in front of one with sixteen. -/
def tightRegions : List Region := [⟨4096, 128⟩, ⟨4352, 2048⟩]

/-- Small pages are not enough.  A table that reaches over the end of its region shares memory with
the zones, and after two blocks the size that is read as the chunk size of a zone has no class. -/
theorem exists_outOfRange_tight : ∃ s₁ s blocks, ValidRegions tightRegions ∧
    init tightRegions 128 blankState = .ok (true, s₁) ∧ Run s₁ s blocks ∧
    Liballocator.allocate 8 s = .error .outOfRange := by
  let calls : ZoneM (Bool × ℕ × ℕ) := do
    let ok ← init tightRegions 128
    let ptr ← Liballocator.allocate 8
    let ptr' ← Liballocator.allocate 1792
    return (ok, ptr, ptr')
  obtain ⟨s, hcalls⟩ := exists_run (x := calls) (s := blankState) (a := (true, 4592, 4608))
    (by decide +kernel)
  have hend : (calls >>= fun _ => Liballocator.allocate 8) blankState = .error .outOfRange :=
    run_eq_error (by decide +kernel)
  rw [bind_of_run_eq hcalls] at hend
  have hwp := wp_of_run_eq (Q := fun a s' => a = (true, 4592, 4608) ∧ s' = s) hcalls ⟨rfl, rfl⟩
  simp only [calls, wp_bind, wp_pure, Prod.mk.injEq] at hwp
  obtain ⟨_, s₁, hinit, _, s₂, hcall, _, _, hcall', ⟨rfl, rfl, rfl⟩, rfl⟩ := hwp
  exact ⟨s₁, _, _, ⟨by decide, by decide, by decide⟩, hinit,
    (Run.start.allocate hcall).allocate hcall', hend⟩

end Separate

end Liballocator
