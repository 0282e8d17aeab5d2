import Liballocator.PageAllocator
import Liballocator.Library.Align

/-!
# The regions of an initialised page allocator

`initRegionInfo` finds the whole pages of a region (`initRegionInfo_spec`).  `accepted` is the list
of records that `init` collects; for regions that do not wrap around the address space and do not
overlap, the aligned parts of these records do not overlap either.
-/

namespace Liballocator

open Program Align

variable [Platform]

/-! ### Page sizes and alignment -/

/-- A power of two that is a valid page size. -/
def ValidPageSize (pageSize : ℕ) : Prop := ∃ k, 7 ≤ k ∧ k < width ∧ pageSize = 2 ^ k

variable {ps : ℕ}

/-- A page is not empty. -/
theorem ValidPageSize.pos (h : ValidPageSize ps) : 0 < ps := by
  obtain ⟨k, -, -, rfl⟩ := h
  exact Nat.two_pow_pos k

/-- A page has at least 128 bytes. -/
theorem ValidPageSize.le (h : ValidPageSize ps) : 128 ≤ ps := by
  obtain ⟨k, hk, -, rfl⟩ := h
  exact Nat.pow_le_pow_right (show 0 < 2 by omega) hk

/-- A page size fits in one word. -/
theorem ValidPageSize.lt (h : ValidPageSize ps) : ps < 2 ^ width := by
  obtain ⟨k, -, hk, rfl⟩ := h
  exact Nat.pow_lt_pow_right (by omega) hk

/-- The address space consists of whole pages. -/
theorem ValidPageSize.dvd (h : ValidPageSize ps) : ps ∣ 2 ^ width := by
  obtain ⟨k, -, hk, rfl⟩ := h
  exact Nat.pow_dvd_pow 2 hk.le

/-- A page holds at least one descriptor. -/
theorem ValidPageSize.sizeofPage_dvd (h : ValidPageSize ps) : sizeofPage ∣ ps := by
  obtain ⟨k, hk, -, rfl⟩ := h
  rcases width_cases with ⟨hw, -⟩ | ⟨hw, -⟩ <;> rw [sizeofPage, hw]
  · exact Nat.pow_dvd_pow 2 (show 4 ≤ k by omega)
  · exact Nat.pow_dvd_pow 2 (show 5 ≤ k by omega)

/-- A page holds more than one descriptor. -/
theorem ValidPageSize.sizeofPage_lt (h : ValidPageSize ps) : sizeofPage < ps := by
  obtain ⟨k, hk, -, rfl⟩ := h
  have hle : 2 ^ 7 ≤ 2 ^ k := Nat.pow_le_pow_right (by omega) hk
  rcases width_cases with ⟨hw, -⟩ | ⟨hw, -⟩ <;> rw [sizeofPage, hw] <;> omega

/-- A page holds two descriptors. -/
theorem ValidPageSize.two_sizeofPage_le (h : ValidPageSize ps) : 2 * sizeofPage ≤ ps := by
  have hge := h.le
  rcases width_cases with ⟨hw, -⟩ | ⟨hw, -⟩ <;> rw [sizeofPage, hw] <;> omega

/-- The page sizes that `isValidPageSize` accepts. -/
theorem isValidPageSize_iff (hlt : ps < 2 ^ width) :
    isValidPageSize ps = true ↔ ValidPageSize ps := by
  have hsub : 0 < ps → Word.sub ps 1 = ps - 1 := fun hpos => Word.sub_eq hpos hlt
  rw [isValidPageSize, isPowerOf2, Bool.and_eq_true, Bool.and_eq_true, decide_eq_true_iff,
    decide_eq_true_iff, decide_eq_true_iff]
  constructor
  · rintro ⟨hge, hpos, hand⟩
    rw [hsub hpos] at hand
    obtain ⟨k, rfl⟩ := (Nat.and_sub_one_eq_zero_iff_isPowerOfTwo hpos.ne').mp hand
    refine ⟨k, ?_, ?_, rfl⟩
    · exact (Nat.pow_le_pow_iff_right (by omega)).mp (show 2 ^ 7 ≤ 2 ^ k from hge)
    · exact (Nat.pow_lt_pow_iff_right (by omega)).mp hlt
  · intro h
    refine ⟨h.le, h.pos, ?_⟩
    obtain ⟨k, -, -, rfl⟩ := h
    rw [hsub (Nat.two_pow_pos k)]
    exact (Nat.and_sub_one_eq_zero_iff_isPowerOfTwo (Nat.two_pow_pos k).ne').mpr ⟨k, rfl⟩

/-- `addr & ~(pageSize - 1)` rounds down to a multiple of the page size. -/
theorem alignDown_two_pow {k : ℕ} (hk : k < width) {x : ℕ} (hx : x < 2 ^ width) :
    alignDown x (2 ^ k) = x / 2 ^ k * 2 ^ k := by
  have hpos := Nat.two_pow_pos k
  have hlt : 2 ^ k < 2 ^ width := Nat.pow_lt_pow_right (by omega) hk
  rw [alignDown, Word.sub_eq hpos hlt, Word.not]
  exact land_mask hx hk.le

/-- Addresses are rounded down to the beginning of their page. -/
theorem alignDown_eq (h : ValidPageSize ps) {x : ℕ} (hx : x < 2 ^ width) :
    alignDown x ps = x / ps * ps := by
  obtain ⟨k, -, hk, rfl⟩ := h
  exact alignDown_two_pow hk hx

/-- The beginning of a page is rounded down to itself. -/
theorem alignDown_of_dvd (h : ValidPageSize ps) {x : ℕ} (hx : x < 2 ^ width) (hdvd : ps ∣ x) :
    alignDown x ps = x := by
  rw [alignDown_eq h hx, Nat.div_mul_cancel hdvd]

/-! ### One region -/

/-- The record `info` describes the whole pages of the region `r`. -/
structure RegionInfo.Describes (info : RegionInfo) (ps : ℕ) (r : Region) : Prop where
  start_eq : info.start = r.address
  stop_eq : info.stop = r.address + r.size
  size_eq : info.size = r.size
  pageCount_pos : 0 < info.pageCount
  le_alignedStart : r.address ≤ info.alignedStart
  dvd : ps ∣ info.alignedStart
  alignedEnd_eq : info.alignedEnd = info.alignedStart + info.pageCount * ps
  alignedEnd_le : info.alignedEnd ≤ r.address + r.size
  alignedSize_eq : info.alignedSize = info.pageCount * ps

section OneRegion

variable {k : ℕ} {r : Region}

/-- The first page of a region begins at the next multiple of the page size. -/
private theorem alignedStart_spec (hk : k < width) (hr : r.address + r.size < 2 ^ width)
    (hsize : 2 ^ k ≤ r.size) :
    ∃ start, alignedStart r (2 ^ k) = some start ∧ r.address ≤ start ∧
      start < r.address + 2 ^ k ∧ 2 ^ k ∣ start := by
  have hdiv := Nat.div_add_mod' r.address (2 ^ k)
  have hmod := Nat.mod_lt r.address (Nat.two_pow_pos k)
  have hdvd : 2 ^ k ∣ r.address / 2 ^ k * 2 ^ k := Dvd.intro_left _ rfl
  simp only [alignedStart, alignDown_two_pow hk (show r.address < 2 ^ width by omega),
    Word.add_eq hr, Word.add_eq (show r.address / 2 ^ k * 2 ^ k + 2 ^ k < 2 ^ width by omega)]
  by_cases hlt : r.address / 2 ^ k * 2 ^ k < r.address
  · rw [if_pos hlt, if_neg (by omega)]
    exact ⟨_, rfl, by omega, by omega, Nat.dvd_add hdvd (Nat.dvd_refl _)⟩
  · rw [if_neg hlt, if_neg (by omega)]
    exact ⟨_, rfl, by omega, by omega, hdvd⟩

/-- The last page of a region ends at the last multiple of the page size. -/
private theorem alignedEnd_spec (hk : k < width) (hr : r.address + r.size < 2 ^ width)
    (hsize : 2 ^ k ≤ r.size) :
    ∃ stop, alignedEnd r (2 ^ k) = some stop ∧ stop ≤ r.address + r.size ∧
      r.address + r.size < stop + 2 ^ k ∧ 2 ^ k ∣ stop := by
  have hdiv := Nat.div_add_mod' (r.address + r.size) (2 ^ k)
  have hmod := Nat.mod_lt (r.address + r.size) (Nat.two_pow_pos k)
  simp only [alignedEnd, Word.add_eq hr, alignDown_two_pow hk hr]
  rw [if_neg (by omega)]
  exact ⟨_, rfl, by omega, by omega, Dvd.intro_left _ rfl⟩

/-- `initRegionInfo` finds the whole pages of a region that does not wrap around, and it rejects the
region only if there are none. -/
theorem initRegionInfo_two_pow (hk : k < width) (hr : r.address + r.size < 2 ^ width) :
    ∃ valid info, initRegionInfo r (2 ^ k) = .ok (valid, info) ∧
      (valid = true → info.Describes (2 ^ k) r ∧ info.alignedStart < r.address + 2 ^ k ∧
        r.address + r.size < info.alignedEnd + 2 ^ k) ∧
      (valid = false → ∀ m, 2 ^ k ∣ m → r.address ≤ m → r.address + r.size < m + 2 ^ k) := by
  have hpos := Nat.two_pow_pos k
  rw [initRegionInfo]
  by_cases hsize : r.size < 2 ^ k
  · rw [if_pos hsize]
    exact ⟨_, _, rfl, fun hc => absurd hc (by simp), fun _ m _ _ => by omega⟩
  have hle := Nat.le_of_not_lt hsize
  obtain ⟨start, hstart, hge, hlt, hdvd⟩ := alignedStart_spec hk hr hle
  obtain ⟨stop, hstop, hle', hgt, hdvd'⟩ := alignedEnd_spec hk hr hle
  have horder : start ≤ stop := le_of_dvd_of_lt_add hdvd hdvd' (by omega)
  rw [if_neg hsize]
  simp only [hstart, hstop, Word.add_eq hr, Word.sub_eq horder (show stop < 2 ^ width by omega)]
  have hcount : (stop - start) / 2 ^ k * 2 ^ k = stop - start :=
    Nat.div_mul_cancel (Nat.dvd_sub hdvd' hdvd)
  by_cases h0 : (stop - start) / 2 ^ k = 0
  · rw [if_pos h0]
    refine ⟨_, _, rfl, fun hc => absurd hc (by simp), fun _ m hm hmge => ?_⟩
    -- the first multiple behind the start of the region is not below its end
    rw [h0, Nat.zero_mul] at hcount
    have hm' : start ≤ m := le_of_dvd_of_lt_add hdvd hm (by omega)
    omega
  · rw [if_neg h0]
    refine ⟨_, _, rfl, fun _ => ⟨⟨rfl, rfl, rfl, Nat.pos_of_ne_zero h0, hge, hdvd, ?_, hle', ?_⟩,
      hlt, hgt⟩, fun hc => absurd hc (by simp)⟩
    · simp only [hcount]
      omega
    · exact Word.mul_eq (by rw [hcount]; omega)

end OneRegion

/-- An accepted record describes its region. -/
theorem initRegionInfo_spec (h : ValidPageSize ps) {r : Region}
    (hr : r.address + r.size < 2 ^ width) :
    ∃ valid info, initRegionInfo r ps = .ok (valid, info) ∧
      (valid = true → info.Describes ps r) := by
  obtain ⟨k, -, hk, rfl⟩ := h
  obtain ⟨valid, info, he, hd, -⟩ := initRegionInfo_two_pow hk hr
  exact ⟨valid, info, he, fun hv => (hd hv).1⟩

/-! ### All regions -/

/-- The record of a region, if the region contains a page. -/
def usableRegion (pageSize : ℕ) (region : Region) : Option RegionInfo :=
  match initRegionInfo region pageSize with
  | .ok (true, info) => some info
  | _ => none

/-- The records of the regions that contain a page. -/
def accepted (pageSize : ℕ) (regions : List Region) : List RegionInfo :=
  regions.filterMap (usableRegion pageSize)

/-- The entries of an array of regions before its terminator: none of them wraps around the address
space and no two of them overlap. -/
structure ValidRegions (regions : List Region) : Prop where
  size_pos : ∀ r ∈ regions, 0 < r.size
  add_lt : ∀ r ∈ regions, r.address + r.size < 2 ^ width
  disjoint : regions.Pairwise fun r r' =>
    r.address + r.size ≤ r'.address ∨ r'.address + r'.size ≤ r.address

/-- No region begins at the null address. -/
def NonZero (regions : List Region) : Prop := ∀ r ∈ regions, 0 < r.address

/-- No region ends where another one begins. -/
def Untouching (regions : List Region) : Prop :=
  regions.Pairwise fun r r' =>
    r.address + r.size ≠ r'.address ∧ r'.address + r'.size ≠ r.address

variable {regions : List Region}

/-- A region that contains a page is described by its record. -/
theorem usableRegion_eq_some (h : ValidPageSize ps) {r : Region} {info : RegionInfo}
    (hr : r.address + r.size < 2 ^ width) (hs : usableRegion ps r = some info) :
    info.Describes ps r := by
  obtain ⟨valid, info', he, hd⟩ := initRegionInfo_spec h hr
  rw [usableRegion, he] at hs
  cases valid with
  | false => exact absurd hs (by simp)
  | true =>
    cases hs
    exact hd rfl

/-- Every accepted record describes one of the regions. -/
theorem ValidRegions.describes (hv : ValidRegions regions) (h : ValidPageSize ps)
    {info : RegionInfo} (hi : info ∈ accepted ps regions) :
    ∃ r ∈ regions, info.Describes ps r := by
  obtain ⟨r, hr, hs⟩ := List.mem_filterMap.mp hi
  exact ⟨r, hr, usableRegion_eq_some h (hv.add_lt r hr) hs⟩

/-- A region ends behind its last page. -/
theorem ValidRegions.alignedEnd_eq (hv : ValidRegions regions) (h : ValidPageSize ps)
    {info : RegionInfo} (hi : info ∈ accepted ps regions) :
    info.alignedEnd = info.alignedStart + info.pageCount * ps := by
  obtain ⟨r, -, hd⟩ := hv.describes h hi
  exact hd.alignedEnd_eq

/-- Regions end inside of the address space. -/
theorem ValidRegions.alignedEnd_lt (hv : ValidRegions regions) (h : ValidPageSize ps)
    {info : RegionInfo} (hi : info ∈ accepted ps regions) : info.alignedEnd < 2 ^ width := by
  obtain ⟨r, hr, hd⟩ := hv.describes h hi
  exact hd.alignedEnd_le.trans_lt (hv.add_lt r hr)

/-- Every accepted region has a page. -/
theorem ValidRegions.pageCount_pos (hv : ValidRegions regions) (h : ValidPageSize ps)
    {info : RegionInfo} (hi : info ∈ accepted ps regions) : 0 < info.pageCount := by
  obtain ⟨r, -, hd⟩ := hv.describes h hi
  exact hd.pageCount_pos

/-- Pages are aligned. -/
theorem ValidRegions.dvd (hv : ValidRegions regions) (h : ValidPageSize ps)
    {info : RegionInfo} (hi : info ∈ accepted ps regions) : ps ∣ info.alignedStart := by
  obtain ⟨r, -, hd⟩ := hv.describes h hi
  exact hd.dvd

/-- The aligned part of one accepted record ends before that of another one begins. -/
theorem ValidRegions.pairwise (hv : ValidRegions regions) (h : ValidPageSize ps) :
    (accepted ps regions).Pairwise fun i j =>
      i.alignedEnd ≤ j.alignedStart ∨ j.alignedEnd ≤ i.alignedStart := by
  refine (List.pairwise_filterMap).mpr (hv.disjoint.imp_of_mem ?_)
  intro r r' hr hr' hd i hi j hj
  have di := usableRegion_eq_some h (hv.add_lt r hr) hi
  have dj := usableRegion_eq_some h (hv.add_lt r' hr') hj
  have h₁ := di.le_alignedStart
  have h₂ := di.alignedEnd_le
  have h₃ := dj.le_alignedStart
  have h₄ := dj.alignedEnd_le
  omega

/-- The aligned parts of the records of regions that do not touch do not touch. -/
theorem ValidRegions.pairwise_untouching (hv : ValidRegions regions) (h : ValidPageSize ps)
    (hu : Untouching regions) :
    (accepted ps regions).Pairwise fun i j =>
      i.alignedEnd ≠ j.alignedStart ∧ j.alignedEnd ≠ i.alignedStart := by
  refine (List.pairwise_filterMap).mpr ((hv.disjoint.and hu).imp_of_mem ?_)
  rintro r r' hr hr' ⟨hd, hu⟩ i hi j hj
  have di := usableRegion_eq_some h (hv.add_lt r hr) hi
  have dj := usableRegion_eq_some h (hv.add_lt r' hr') hj
  have h₁ := di.le_alignedStart
  have h₂ := di.alignedEnd_le
  have h₃ := dj.le_alignedStart
  have h₄ := dj.alignedEnd_le
  have h₅ := hv.size_pos r hr
  have h₆ := hv.size_pos r' hr'
  have h₇ := di.alignedEnd_eq
  have h₈ := dj.alignedEnd_eq
  have h₉ := Nat.mul_pos di.pageCount_pos h.pos
  have h₁₀ := Nat.mul_pos dj.pageCount_pos h.pos
  omega

/-! ### The loop of `init` over the array -/

/-- The loop collects the usable ones of the first eight entries and fails if there are more. -/
theorem addRegions_spec (h : ValidPageSize ps)
    (hadd : ∀ r ∈ regions, r.address + r.size < 2 ^ width) (hpos : ∀ r ∈ regions, 0 < r.size)
    {i : ℕ} (hi : i ≤ maxRegionsCount) {s : PageState} :
    wp (PageAllocator.addRegions ps i regions) (fun r s' =>
      r = decide (i + regions.length ≤ maxRegionsCount) ∧
      s' = { s with self := { s.self with
        regionsInfo :=
          s.self.regionsInfo ++ accepted ps (regions.take (maxRegionsCount - i)) } }) s := by
  induction regions generalizing i s with
  | nil => simp [PageAllocator.addRegions, accepted, hi]
  | cons r rs ih =>
    obtain ⟨valid, info, he, -⟩ := initRegionInfo_spec h (hadd r List.mem_cons_self)
    have hsize := hpos r List.mem_cons_self
    rw [PageAllocator.addRegions, if_neg hsize.ne']
    by_cases hlast : i = maxRegionsCount
    · rw [if_pos hlast, wp_pure, hlast]
      simp [accepted]
    have ih' := @ih (fun r hr => hadd r (List.mem_cons_of_mem _ hr))
      (fun r hr => hpos r (List.mem_cons_of_mem _ hr)) (i + 1) (by omega)
    have htake : (r :: rs).take (maxRegionsCount - i) =
        r :: rs.take (maxRegionsCount - (i + 1)) := by
      rw [show maxRegionsCount - i = maxRegionsCount - (i + 1) + 1 by omega, List.take_succ_cons]
    rw [if_neg hlast, wp_bind]
    apply wp_liftOk he
    rw [htake, List.length_cons, ← Nat.add_assoc, Nat.add_right_comm]
    cases valid with
    | false =>
      have hnone : usableRegion ps r = none := by rw [usableRegion, he]
      simp only [Bool.false_eq_true, if_false, accepted, List.filterMap_cons_none hnone]
      exact ih'
    | true =>
      have hsome : usableRegion ps r = some info := by rw [usableRegion, he]
      simp only [if_true, wp_bind, wp_modify, accepted, List.filterMap_cons_some hsome]
      apply ih'.mono
      rintro _ _ ⟨rfl, rfl⟩
      simp [accepted]

end Liballocator
