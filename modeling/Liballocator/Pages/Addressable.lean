import Liballocator.Pages.DescRegion
import Liballocator.Pages.Ready

/-!
# Tables that do not fit

`init` does not check that the table fits in the region it is put in.  It only returns when the
table ends inside of the address space (`PageAllocator.addressable_of_init`): otherwise the
descriptors reach the null address, or no page seems to lie in front of the end of the table, and an
assertion fails.  For such arguments the table is `Addressable.layout`; if it does not fit, all
pages of its region are reserved for it.
-/

namespace Liballocator

open Program

variable [Platform]

/-! ### The end of the address space -/

section Returns

variable {regions : List Region} {ps k page : ℕ} {s s₀ s₁ : PageState}

/-- A pointer that is moved by nothing stays. -/
theorem Page.plus_zero (hpage : page < 2 ^ width) : Page.plus page 0 = page := by
  rw [Page.plus, Word.mul_eq (by rw [Nat.zero_mul]; exact two_pow_width_pos), Nat.zero_mul,
    Word.add_eq (by omega), Nat.add_zero]

/-- A moved pointer is a word. -/
theorem Page.plus_lt (page k : ℕ) : Page.plus page k < 2 ^ width := Word.add_lt _ _

/-- A pointer is moved twice. -/
theorem Page.plus_add {j : ℕ} : Page.plus (Page.plus page j) k = Page.plus page (j + k) := by
  rw [Page.plus, Page.plus, Page.plus, Word.add, Word.add, Word.add, Word.mul,
    Word.mul, Word.mul, Nat.add_mod_mod, Nat.add_mod_mod, Nat.add_mod_mod,
    Nat.mod_add_mod, Nat.add_mul, Nat.add_assoc]

/-- A pointer is moved by one, and then on. -/
theorem Page.plus_nextSibling : Page.plus (Page.nextSibling page) k = Page.plus page (k + 1) := by
  rw [Page.nextSibling, Page.plus_add, Nat.add_comm]

omit [Platform] in
/-- The part of a record that does not depend on the table. -/
def RegionInfo.extent (region : RegionInfo) : ℕ × ℕ × ℕ :=
  (region.alignedStart, region.alignedEnd, region.pageCount)

/-- The descriptor behind the one in front of `page`. -/
theorem Page.nextSibling_minus (hpage : page < 2 ^ width) :
    Page.nextSibling (Page.minus page 1) = page := by
  have hlt := Nat.mod_lt (1 * sizeofPage) two_pow_width_pos
  rw [Page.nextSibling, Page.minus, Page.plus, Word.mul, Word.sub, Word.add, Nat.mod_mod,
    Nat.mod_add_mod, Nat.add_assoc, Nat.sub_add_cancel hlt.le, Nat.add_mod_right,
    Nat.mod_eq_of_lt hpage]

namespace PageAllocator

/-- `initPages` returns only if none of the descriptors is at the null address. -/
private theorem wlp_initPages {stop fuel a : ℕ} {m : Mem} (hps : 0 < ps) (hpage : page < 2 ^ width)
    (ha : a + k * ps = stop) (hstop : stop < 2 ^ width) :
    wlp (initPages ps stop fuel page a)
      (fun r _ => r = Page.plus page k ∧ ∀ j < k, Page.plus page j ≠ 0) m := by
  induction fuel generalizing page a k m with
  | zero => exact wlp_throw.mpr trivial
  | succ fuel ih =>
    simp only [initPages, wlp_bind, wlp_ite, wlp_pure, wlp_assert]
    refine ⟨fun he => ?_, fun hne hnull => wlp_of_forall fun _ _ => wlp_of_forall fun _ _ => ?_⟩
    · have hk : k = 0 := (Nat.mul_eq_zero.mp (by omega : k * ps = 0)).resolve_right hps.ne'
      subst hk
      exact ⟨(Page.plus_zero hpage).symm, fun j hj => absurd hj (Nat.not_lt_zero j)⟩
    · obtain ⟨k, rfl⟩ : ∃ k', k = k' + 1 := Nat.exists_eq_succ_of_ne_zero (by
        rintro rfl
        omega)
      rw [Nat.succ_mul] at ha
      rw [Word.add_eq (by omega)]
      refine (ih (Page.plus_lt page 1) (k := k) (by omega)).mono ?_
      rintro _ _ ⟨rfl, hall⟩
      refine ⟨Page.plus_nextSibling, fun j hj => ?_⟩
      cases j with
      | zero => rwa [Page.plus_zero hpage]
      | succ j => exact Page.plus_nextSibling ▸ hall j (by omega)

/-- What the loop of `init` over the regions does not change. -/
structure Unmoved (object object' : PageAllocator) : Prop where
  pageSize : object'.pageSize = object.pageSize
  descRegionIdx : object'.descRegionIdx = object.descRegionIdx
  pagesTail : object'.pagesTail = object.pagesTail
  regions : object'.regionsInfo.map RegionInfo.extent =
    object.regionsInfo.map RegionInfo.extent

omit [Platform] in
/-- The relation is transitive. -/
theorem Unmoved.trans {p q r : PageAllocator} (h₁ : Unmoved p q) (h₂ : Unmoved q r) : Unmoved p r :=
  ⟨h₂.pageSize.trans h₁.pageSize, h₂.descRegionIdx.trans h₁.descRegionIdx,
    h₂.pagesTail.trans h₁.pagesTail, h₂.regions.trans h₁.regions⟩

omit [Platform] in
/-- The pointers of a region may change. -/
theorem Unmoved.set {object : PageAllocator} {i : ℕ} {r : RegionInfo}
    (h : ∀ q, object.regionsInfo[i]? = some q → r.extent = q.extent) :
    Unmoved object { object with regionsInfo := object.regionsInfo.set i r } := by
  refine ⟨rfl, rfl, rfl, List.ext_getElem? fun j => ?_⟩
  rw [List.getElem?_map, List.getElem?_map]
  by_cases hij : i = j
  · subst hij
    by_cases hi : i < object.regionsInfo.length
    · have hq := List.getElem?_eq_getElem hi
      rw [List.getElem?_set_self hi, hq, Option.map_some, Option.map_some, h _ hq]
    · rw [List.set_eq_of_length_le (Nat.le_of_not_lt hi)]
  · rw [List.getElem?_set_ne hij]

/-- `splitGroup` returns its argument and does not split off nothing. -/
theorem wlp_splitGroup {group size : ℕ} {m : Mem} :
    wlp (splitGroup group size) (fun r _ => r.1 = group ∧ size ≠ 0) m := by
  simp only [splitGroup, wlp_bind, wlp_assert, wlp_ite, wlp_pure]
  refine fun _ hsize => wlp_of_forall fun _ _ _ => ⟨fun _ => ⟨trivial, hsize⟩, fun _ => ?_⟩
  exact wlp_of_forall fun _ _ => wlp_of_forall fun _ _ => wlp_of_forall fun _ _ => ⟨trivial, hsize⟩

/-- `addGroup` does not move the table. -/
private theorem wlp_addGroup_unmoved {group : ℕ} :
    wlp (addGroup group) (fun _ s' => Unmoved s.self s'.self) s := by
  simp only [addGroup, freeGroupListAt, setFreeGroupListAt, wlp_bind, wlp_assert, wlp_ite, wlp_throw,
    wlp_modify, wlp_get, wlp_pure, wlp_liftMem]
  refine fun _ => wlp_of_forall fun _ _ => ⟨fun _ => trivial, fun _ => wlp_of_forall fun _ _ => ?_⟩
  refine ⟨fun _ => trivial, fun _ => wlp_of_forall fun _ _ => wlp_of_forall fun _ _ => ?_⟩
  exact ⟨rfl, rfl, rfl, rfl⟩

/-- No page is reserved for a table that seems to end at the null address. -/
private theorem wlp_reserveDescPages : wlp reserveDescPages (fun n s' =>
    s'.self = s.self ∧ (Page.nextSibling s.self.pagesTail = 0 → n = 0)) s := by
  have hloop : ∀ (r : RegionInfo) (fuel page n : ℕ) (s : PageState),
      wlp (reserveDescPagesFrom r fuel page n) (fun n' s' =>
        s'.self = s.self ∧ (Page.nextSibling s.self.pagesTail = 0 → n' = n)) s := by
    intro r fuel
    induction fuel with
    | zero => exact fun _ _ _ => wlp_throw.mpr trivial
    | succ fuel ih =>
      intro page n s
      simp only [reserveDescPagesFrom, wlp_bind, wlp_get, wlp_ite, wlp_pure, wlp_liftMem]
      refine ⟨fun _ => ⟨trivial, fun _ => trivial⟩, fun _ => wlp_of_forall fun a m => ?_⟩
      refine ⟨fun _ => ⟨trivial, fun _ => trivial⟩, fun hlt => wlp_of_forall fun _ m' => ?_⟩
      refine ⟨fun _ => ⟨trivial, fun h0 => absurd (h0 ▸ Nat.zero_le a) hlt⟩, fun _ => ?_⟩
      refine (ih _ _ _).mono ?_
      rintro _ s' ⟨hs, -⟩
      exact ⟨hs, fun h0 => absurd (h0 ▸ Nat.zero_le a) hlt⟩
  simp only [reserveDescPages, regionAt, wlp_bind, wlp_get, wlp_ite, wlp_throw, wlp_pure]
  exact ⟨fun _ => trivial, fun _ => hloop _ _ _ _ _⟩

/-- A round of the loop over the regions returns only if none of the descriptors is at the null
address, and, in the region with the table, only if the table does not seem to end there. -/
private theorem wlp_initRegion {i : ℕ} {r : RegionInfo}
    (hget : s.self.regionsInfo.getD i clearRegionInfo = r) (hpage : page < 2 ^ width)
    (hps : 0 < s.self.pageSize) (hend : r.alignedStart + r.pageCount * s.self.pageSize = r.alignedEnd)
    (hlt : r.alignedEnd < 2 ^ width) :
    wlp (initRegion i page) (fun page' s' => page' = Page.plus page r.pageCount ∧
      (∀ j < r.pageCount, Page.plus page j ≠ 0) ∧
      (i = s.self.descRegionIdx → Page.nextSibling s.self.pagesTail ≠ 0) ∧
      Unmoved s.self s'.self) s := by
  simp only [initRegion, regionAt, wlp_bind, wlp_ite, wlp_throw, wlp_get, wlp_pure, wlp_modify,
    wlp_liftMem, hget]
  have hset : Unmoved s.self { s.self with regionsInfo := s.self.regionsInfo.set i { r with
      firstPage := page, lastPage := Page.minus (Page.plus page r.pageCount) 1 } } := by
    apply Unmoved.set
    intro q hq
    rw [List.getD_eq_getElem?_getD, hq, Option.getD_some] at hget
    subst hget
    rfl
  refine ⟨fun _ => trivial, fun _ => (wlp_initPages hps hpage hend hlt).mono ?_⟩
  rintro _ m ⟨rfl, hnull⟩
  refine wlp_of_forall fun _ m' => ⟨fun hi => ?_, fun hi => ⟨fun _ => ?_, fun _ => ?_⟩⟩
  · refine wlp_reserveDescPages.mono ?_
    rintro n s₂ ⟨hs₂, hn⟩
    refine wlp_splitGroup.mono fun x m₂ hx => ?_
    have htail : i = s.self.descRegionIdx → Page.nextSibling s.self.pagesTail ≠ 0 :=
      fun _ h0 => hx.2 (hn h0)
    have hmoved : Unmoved s.self { s₂.self with descPagesCount := n } := by
      rw [hs₂]
      exact hset.trans ⟨rfl, rfl, rfl, rfl⟩
    refine ⟨fun _ => wlp_addGroup_unmoved.mono fun _ s₃ h₃ => ?_, fun _ => ?_⟩
    · exact ⟨rfl, hnull, htail, hmoved.trans h₃⟩
    · exact ⟨rfl, hnull, htail, hmoved⟩
  · refine wlp_addGroup_unmoved.mono fun _ s₃ h₃ => ?_
    exact ⟨rfl, hnull, fun he => absurd he hi, hset.trans h₃⟩
  · exact ⟨rfl, hnull, fun he => absurd he hi, hset⟩

/-- The loop over the regions from number `i` on. -/
private theorem wlp_initRegions (done : List RegionInfo) {rest : List RegionInfo}
    (hobj : s.self.regionsInfo.map RegionInfo.extent =
      (done ++ rest).map RegionInfo.extent)
    (hpage : page < 2 ^ width) (hps : 0 < s.self.pageSize)
    (hend : ∀ r ∈ rest, r.alignedStart + r.pageCount * s.self.pageSize = r.alignedEnd)
    (hlt : ∀ r ∈ rest, r.alignedEnd < 2 ^ width) :
    wlp (initRegions rest.length done.length page) (fun _ _ =>
      (∀ j < pageSum rest, Page.plus page j ≠ 0) ∧
      (done.length ≤ s.self.descRegionIdx →
        s.self.descRegionIdx < done.length + rest.length →
        Page.nextSibling s.self.pagesTail ≠ 0)) s := by
  induction rest generalizing done page s with
  | nil =>
    refine wlp_pure.mpr ⟨fun j hj => absurd hj (Nat.not_lt_zero j), fun h₁ h₂ => ?_⟩
    rw [List.length_nil] at h₂
    omega
  | cons r rs ih =>
    have hmap : (s.self.regionsInfo.map RegionInfo.extent)[done.length]? = some r.extent := by
      rw [hobj, List.getElem?_map, List.getElem?_append_right le_rfl, Nat.sub_self]
      rfl
    rw [List.getElem?_map, Option.map_eq_some_iff] at hmap
    obtain ⟨q, hq, hqr⟩ := hmap
    simp only [RegionInfo.extent, Prod.mk.injEq] at hqr
    obtain ⟨h₁, h₂, h₃⟩ := hqr
    have hget : s.self.regionsInfo.getD done.length clearRegionInfo = q := by
      rw [List.getD_eq_getElem?_getD, hq, Option.getD_some]
    rw [List.length_cons, initRegions, wlp_bind]
    refine (wlp_initRegion hget hpage hps ?_ ?_).mono ?_
    · rw [h₁, h₂, h₃]
      exact hend r List.mem_cons_self
    · rw [h₂]
      exact hlt r List.mem_cons_self
    · rintro _ s' ⟨rfl, hnull, htail, hmoved⟩
      have hlen : (done ++ [r]).length = done.length + 1 := by simp
      rw [← hlen]
      refine (ih (done ++ [r]) ?_ (Page.plus_lt _ _) (hmoved.pageSize ▸ hps) (fun r' hr' => ?_)
        fun r' hr' => hlt r' (List.mem_cons_of_mem _ hr')).mono ?_
      · rw [hmoved.regions, hobj, List.append_assoc, List.singleton_append]
      · rw [hmoved.pageSize]
        exact hend r' (List.mem_cons_of_mem _ hr')
      rintro _ _ ⟨hnull', htail'⟩
      rw [hmoved.descRegionIdx, hmoved.pagesTail, hlen] at htail'
      refine ⟨fun j hj => ?_, fun hle hlt => ?_⟩
      · rw [pageSum_cons, ← h₃] at hj
        by_cases hjr : j < q.pageCount
        · exact hnull j hjr
        · have hne := hnull' (j - q.pageCount) (by omega)
          rwa [Page.plus_add, Nat.add_sub_cancel' (Nat.le_of_not_lt hjr)] at hne
      · rcases Nat.eq_or_lt_of_le hle with he | hlt'
        · exact htail he
        · exact htail' hlt' (by omega)

/-- `init` returns true only for a table inside of the address space. -/
theorem addressable_of_init (hlt : ps < 2 ^ width) (hv : ValidRegions regions)
    (hinit : init regions ps s₀ = .ok (true, s₁)) : Addressable regions ps := by
  obtain ⟨hps, hlen, hne⟩ := init_true hlt hv hinit
  obtain ⟨r, hr, hd⟩ := hv.describes hps (descRegionOf_mem ps hne)
  have hsum := hv.countPages hps
  have hpos := hv.pageSum_pos hps hne
  have hhead : (descRegionOf (accepted ps regions) ps).alignedStart < 2 ^ width := by
    have := hd.alignedEnd_eq
    have := hd.alignedEnd_le
    have := hv.add_lt r hr
    omega
  rw [init_enter hps hv.add_lt hv.size_pos hlen (hsum ▸ hpos.ne')] at hinit
  have hrun := wlp_initRegions (s := { s₀ with self := configured (accepted ps regions) ps }) []
    rfl hhead hps.pos (fun _ hi => (hv.alignedEnd_eq hps hi).symm)
    fun _ hi => hv.alignedEnd_lt hps hi
  have hall : wlp (do
      initRegions (accepted ps regions).length 0 (configured (accepted ps regions) ps).pagesHead
      return true : PageM Bool) (fun _ _ => _) _ :=
    wlp_bind.mpr (hrun.mono fun _ _ h => wlp_pure.mpr h)
  obtain ⟨hnull, htail⟩ := hall _ _ hinit
  have htail := htail (Nat.zero_le _) (by
    rw [List.length_nil, Nat.zero_add]
    exact descRegionIdx_lt ps hne)
  have hend : (configured (accepted ps regions) ps).pagesTail = Page.minus
      (Page.plus (descRegionOf (accepted ps regions) ps).alignedStart
        (pageSum (accepted ps regions))) 1 :=
    congrArg (fun n => Page.minus (Page.plus _ n) 1) hsum
  have htail : Page.plus (descRegionOf (accepted ps regions) ps).alignedStart
      (pageSum (accepted ps regions)) ≠ 0 := fun h0 => htail (by
    rw [hend, Page.nextSibling_minus (Page.plus_lt _ _), h0])
  refine ⟨hps, hv, hlen, hne, Nat.pos_of_ne_zero fun h0 => ?_, Nat.lt_of_not_le fun hge => ?_⟩
  · exact hnull 0 hpos (by
      rw [Page.plus_zero hhead]
      exact h0)
  · -- the descriptor at the null address
    obtain ⟨k, hk⟩ : sizeofPage ∣ 2 ^ width - (descRegionOf (accepted ps regions) ps).alignedStart :=
      Nat.dvd_sub (hps.sizeofPage_dvd.trans hps.dvd) (hps.sizeofPage_dvd.trans hd.dvd)
    have hsize := Layout.sizeofPage_pos
    have hkle : k ≤ pageSum (accepted ps regions) := by
      refine Nat.le_of_mul_le_mul_right (c := sizeofPage) ?_ hsize
      rw [Nat.mul_comm k]
      omega
    have hzero : Page.plus (descRegionOf (accepted ps regions) ps).alignedStart k = 0 := by
      rw [Page.plus, Word.mul, Word.add, Nat.add_mod_mod, Nat.mul_comm, ← hk,
        Nat.add_sub_cancel' hhead.le, Nat.mod_self]
    rcases Nat.eq_or_lt_of_le hkle with rfl | hlt
    · exact htail hzero
    · exact hnull k hlt hzero

end PageAllocator

end Returns

end Liballocator
