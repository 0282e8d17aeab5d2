import Liballocator.Zones.Deallocate
import Liballocator.Zones.Within
import Liballocator.Pages.Exact

/-!
# Allocating a chunk

`newZone` makes a zone out of a chunk for its descriptor and a free page, `allocateZone` makes sure
before that that a further chunk for descriptors stays in reserve, and `allocateChunk` takes a chunk
from a new zone or from one with a free chunk.  If no page is left, every zone is as before.
-/

namespace Liballocator

open Tiling Families Ownership

variable [Platform]

namespace Heap

section Definitions

variable (L : Layout) (H : Heap)

/-- The first zone of a class that has a free chunk. -/
def getFreeZone (i : ℕ) : Option ℕ := (H.lists i).find? fun d => (H.zone d).free ≠ []

/-- A new zone is needed before a chunk of the class may be taken; one chunk for descriptors stays
in reserve. -/
def shouldAllocateZone (i : ℕ) : Prop := H.freeCount i = if i = descIdx then 1 else 0

instance (i : ℕ) : Decidable (H.shouldAllocateZone i) :=
  inferInstanceAs (Decidable (H.freeCount i = if i = descIdx then 1 else 0))

/-- A new zone of the class `i`, its descriptor in the first free chunk for descriptors. -/
def newZone (i : ℕ) : Option ℕ × Heap :=
  match H.getFreeZone descIdx with
  | none => (none, H)
  | some z =>
    let d := (H.zone z).free.headD 0
    match H.pages.allocate 1 with
    | (some g, a) => (some d, ((H.takeChunk z).withPages a).addZone L d i g.first)
    | (none, _) => (none, ((H.takeChunk z).deallocate L d).2)

/-- A new zone of the class `i`; a zone for descriptors comes first if it is needed. -/
def allocateZone (i : ℕ) : Option ℕ × Heap :=
  if i ≠ descIdx ∧ H.shouldAllocateZone descIdx then
    match H.newZone L descIdx with
    | (none, H) => (none, H)
    | (some _, H) => H.newZone L i
  else H.newZone L i

/-- A chunk of the class `i`. -/
def allocateChunk (i : ℕ) : Option ℕ × Heap :=
  match if H.shouldAllocateZone i then H.allocateZone L i else (H.getFreeZone i, H) with
  | (none, H) => (none, H)
  | (some d, H) => ((H.zone d).free.head?, H.takeChunk d)

/-- The zones are as before. -/
structure Unchanged (H' : Heap) : Prop where
  lists : H'.lists = H.lists
  zone : ∀ d ∈ H.descs, H'.zone d = H.zone d

end Definitions

variable {L : Layout} {r : Group} {H H' H'' : Heap} {live : List ℕ} {held : List Group}
  {d c i z : ℕ} {cs : List ℕ}

/-! ### Unchanged zones -/

omit [Platform] in
/-- The zones are the same. -/
theorem Unchanged.descs (h : H.Unchanged H') : H'.descs = H.descs := by
  rw [Heap.descs, h.lists, Heap.descs]

omit [Platform] in
/-- Nothing has changed. -/
theorem Unchanged.refl : H.Unchanged H := ⟨rfl, fun _ _ => rfl⟩

/-- A tight heap stays tight. -/
theorem Unchanged.tight (h : H.Unchanged H') (ht : H.Tight L) : H'.Tight L := by
  intro y hy hne
  rw [h.descs] at hy
  rw [h.zone y hy]
  exact ht y hy hne

omit [Platform] in
/-- Every class has as many free chunks as before. -/
theorem Unchanged.freeCount (h : H.Unchanged H') (hi : i < maxZoneIdx) :
    H'.freeCount i = H.freeCount i := by
  rw [Heap.freeCount, Heap.freeCount, freeChunks, freeChunks, h.lists]
  refine congrArg _ (List.flatMap_congr fun y hy => ?_)
  rw [h.zone y (mem_descs.mpr ⟨i, hi, hy⟩)]

/-- A chunk keeps its class. -/
theorem Unchanged.hasClass (h : H.Unchanged H') (hc : H.HasClass L c i) : H'.HasClass L c i := by
  obtain ⟨y, hy, hown, hidx⟩ := hc
  have hz := h.zone y hy
  exact ⟨y, h.descs ▸ hy, by rwa [Owns, hz], by rw [hz]; exact hidx⟩

/-! ### Free zones -/

omit [Platform] in
/-- The zone that is found is in the list of its class and has a free chunk. -/
theorem getFreeZone_eq_some (h : H.getFreeZone i = some d) :
    d ∈ H.lists i ∧ ∃ c cs, (H.zone d).free = c :: cs := by
  have hfree : (H.zone d).free ≠ [] := by simpa using List.find?_some h
  exact ⟨List.mem_of_find?_eq_some h, List.exists_cons_of_ne_nil hfree⟩

omit [Platform] in
/-- There is a zone with a free chunk when the class has one. -/
theorem exists_getFreeZone (h : 0 < H.freeCount i) : ∃ d, H.getFreeZone i = some d := by
  obtain ⟨c, hc⟩ := List.exists_mem_of_length_pos h
  obtain ⟨d, hd, hcd⟩ := mem_freeChunks.mp hc
  cases hf : H.getFreeZone i with
  | some y => exact ⟨y, rfl⟩
  | none =>
    have := List.find?_eq_none.mp hf d hd
    exact absurd (by simpa using List.ne_nil_of_mem hcd) this

omit [Platform] in
/-- A zone in front of its list is the first one with a free chunk. -/
theorem getFreeZone_head {l : List ℕ} (hl : H.lists i = d :: l) (hfree : (H.zone d).free ≠ []) :
    H.getFreeZone i = some d := by
  rw [getFreeZone, hl, List.find?_cons_of_pos (by simpa using hfree)]

/-! ### Taking back a chunk -/

omit [Platform] in
/-- A chunk that is taken and given back. -/
theorem giveChunk_takeChunk (hfree : (H.zone z).free = c :: cs) :
    (H.takeChunk z).giveChunk z c = H := by
  have hzone : Function.update (H.takeChunk z).zone z
      { (H.takeChunk z).zone z with free := c :: ((H.takeChunk z).zone z).free } = H.zone := by
    funext y
    by_cases hy : y = z
    · subst hy
      rw [Function.update_self, takeChunk, zone_setFree_self, hfree, List.tail_cons, ← hfree]
    · rw [Function.update_of_ne hy, takeChunk, zone_setFree_of_ne hy]
  rw [giveChunk, setFree, hzone]
  rfl

/-- A chunk that is given back at once leaves no trace, unless its zone is given up. -/
theorem Wf.deallocateWithin_takeChunk (h : H.Wf L r live held) (hL : L.Sound) (hz : z ∈ H.descs)
    (hfree : (H.zone z).free = c :: cs) (n : ℕ) :
    (H.takeChunk z).deallocateWithin L (n + 1) c =
      if (H.zone z).taken L = [] ∧ z ≠ initialZone then
        (H.clearZone L z).deallocateWithin L n z
      else (true, H) := by
  have hown : (H.takeChunk z).Owns L z c := by
    rw [Owns, Heap.takeChunk, chunks_setFree]
    exact h.free_sub z hz c (hfree ▸ List.mem_cons_self)
  have hfind := (h.takeChunk hz hfree).findZone_eq hL hz hown
  simp only [Heap.deallocateWithin, hfind, giveChunk_takeChunk hfree, h.free_length_eq_iff hz]

/-! ### A new zone -/

/-- What the new zone `d` of the class `i` leads to, with at least `k` free chunks for
descriptors. -/
structure ZoneMade (L : Layout) (r : Group) (H H' : Heap) (i : ℕ) (live : List ℕ)
    (held : List Group) (d k : ℕ) : Prop where
  wf : H'.Wf L r live held
  tight : H'.TightBut L d
  mem : d ∈ H'.descs
  idx : (H'.zone d).idx = i
  free : (H'.zone d).free ≠ []
  reserve : k ≤ H'.freeCount descIdx
  hasClass : ∀ c i, H.HasClass L c i → H'.HasClass L c i
  within : H.Within H'
  moves : Moves L r H H'
  /-- One page has been taken, or two. -/
  cost : ∃ n, n ≤ 2 ∧ H'.pages.freeCount + n = H.pages.freeCount

/-- The heap is tight when the one zone in question has had a chunk taken. -/
theorem tightBut_takeChunk (h : H.Wf L r live held) (hz : z ∈ H.descs) (ht : H.TightBut L z)
    (hfree : (H.zone z).free = c :: cs) : (H.takeChunk z).Tight L := by
  apply tight_setFree_of ht
  intro _ hnil
  have hperm := ZoneData.taken_tail (h.free_sub z hz) (h.free_nodup z hz) hfree
  rw [hfree, List.tail_cons] at hnil
  rw [hnil] at hperm
  exact absurd hperm.length_eq (by simp)

/-- The two steps to a new zone: its chunk and its page are taken, then it is added. -/
theorem Wf.newZone_steps (h : H.Wf L r live held) (hL : L.Sound) (hi : i < maxZoneIdx)
    (hsize : classSize i < L.pageSize) (hzl : z ∈ H.lists descIdx)
    (hfree : (H.zone z).free = d :: cs) {g : Group} {a : Pages}
    (hal : H.pages.allocate 1 = (some g, a)) :
    g.size = 1 ∧ ((H.takeChunk z).withPages a).Wf L r (d :: live) (g :: held) ∧
      (((H.takeChunk z).withPages a).addZone L d i g.first).Wf L r live held := by
  have hz := Wf.mem_descs_of_list hzl
  have hsz : g.size = 1 := size_of_allocate (a := H.pages) (n := 1) h.inv
    h.pages_count_lt (by rw [hal])
  have hg : g = ⟨g.first, 1⟩ := by rw [← hsz]
  have h₂ : ((H.takeChunk z).withPages a).Wf L r (d :: live) (g :: held) := by
    have := (h.takeChunk hz hfree).allocatePages 1
    rwa [show (H.takeChunk z).pages = H.pages from rfl, hal] at this
  have hown : ∃ y ∈ H.lists descIdx, ((H.takeChunk z).withPages a).Owns L y d := by
    refine ⟨z, hzl, ?_⟩
    have : d ∈ ((H.takeChunk z).zone z).chunks L := by
      rw [Heap.takeChunk, chunks_setFree]
      exact h.free_sub z hz d (hfree ▸ List.mem_cons_self)
    exact this
  have h₃ := h₂.addZone hL List.mem_cons_self (p := g.first) (hg ▸ List.mem_cons_self) hi hsize
    hown
  rw [← hg, List.erase_cons_head, List.erase_cons_head] at h₃
  exact ⟨hsz, h₂, h₃⟩

/-- The heap with a new zone, when there is a page for it. -/
theorem Wf.newZone_some (h : H.Wf L r live held) (hL : L.Sound) (hi : i < maxZoneIdx)
    (hsize : classSize i < L.pageSize) (hget : H.getFreeZone descIdx = some z)
    (ht : H.TightBut L z) (hfree : (H.zone z).free = d :: cs) {g : Group} {a : Pages}
    (hal : H.pages.allocate 1 = (some g, a)) :
    H.newZone L i = (some d, ((H.takeChunk z).withPages a).addZone L d i g.first) ∧
      ZoneMade L r H (((H.takeChunk z).withPages a).addZone L d i g.first) i live held d
        (if i = descIdx then 2 else H.freeCount descIdx - 1) := by
  obtain ⟨hzl, -⟩ := getFreeZone_eq_some hget
  have hz := Wf.mem_descs_of_list hzl
  have hidx : (H.zone z).idx = descIdx := h.idx descIdx descIdx_lt z hzl
  obtain ⟨-, h₂, h₃⟩ := h.newZone_steps hL hi hsize hzl hfree hal
  have hcost := h.inv.freeCount_allocate (n := 1) (g := g) (by rw [hal])
  have hnot : d ∉ ((H.takeChunk z).withPages a).descs := h₂.not_desc hL List.mem_cons_self
  have hperm := descs_addZone (L := L) (H := (H.takeChunk z).withPages a) (d := d)
    (p := g.first) hi
  have hmem : d ∈ (((H.takeChunk z).withPages a).addZone L d i g.first).descs :=
    hperm.mem_iff.mpr List.mem_cons_self
  have hnew := zone_addZone_self (L := L) (H := (H.takeChunk z).withPages a) (d := d)
    (i := i) (p := g.first)
  have hfits := (h₃.fits d hmem).two_le hL
  rw [hnew] at hfits
  have hcount := (h.freeChunks_takeChunk hz hfree).length_eq
  rw [hidx, List.length_cons] at hcount
  refine ⟨by simp only [Heap.newZone, hget, hfree, hal, List.headD_cons], h₃, ?_, hmem, ?_, ?_,
    ?_, fun c j hc => ?_,
    (within_takeChunk.trans within_withPages).trans (within_addZone hnot hi), ?_, 1, by omega,
    by rwa [hal] at hcost⟩
  · intro y hy hne hyd
    have hyH : y ∈ H.descs := (List.mem_cons.mp (hperm.mem_iff.mp hy)).resolve_left hyd
    rw [zone_addZone_of_ne hyd]
    exact tightBut_takeChunk h hz ht hfree y hyH hne
  · rw [hnew]
  · rw [hnew]
    intro hnil
    have hlen := congrArg List.length hnil
    rw [List.length_reverse, ZoneData.length_chunks, List.length_nil] at hlen
    exact absurd hlen (by
      have : ZoneData.chunksCount L ⟨g.first, i, []⟩ = ZoneData.chunksCount L
        ⟨g.first, i, (ZoneData.chunks L ⟨g.first, i, []⟩).reverse⟩ := rfl
      omega)
  · split_ifs with hid
    · subst hid
      rw [Heap.freeCount, freeChunks_addZone_self hnot hi, List.length_append,
        List.length_reverse, ZoneData.length_chunks]
      exact hfits.trans (Nat.le_add_right _ _)
    · rw [Heap.freeCount, Heap.freeCount, freeChunks_addZone_of_ne hnot descIdx_lt (Ne.symm hid),
        ← hcount]
      exact Nat.le_refl _
  · have hc' : ((H.takeChunk z).withPages a).HasClass L c j := hasClass_setFree.mpr hc
    exact hc'.addZone hnot hi
  · have hst := (Pages.Steps.refl (L := L) (r := r) (a := H.pages)).allocate 1
    rw [hal] at hst
    have hne : initialZone ≠ d :=
      (h.chunk_ne_initial hL hz (h.free_sub z hz d (by simp [hfree]))).symm
    exact ⟨hst, by rw [zone_addZone_of_ne hne]; exact page_setFree _⟩

/-- Without a free page the chunk for the descriptor is given back. -/
theorem Wf.newZone_none (h : H.Wf L r live held) (hL : L.Sound)
    (hget : H.getFreeZone descIdx = some z) (hfree : (H.zone z).free = d :: cs) {a : Pages}
    (hal : H.pages.allocate 1 = (none, a)) : ∃ n, H.descs.length = n + 1 ∧
      H.newZone L i = (none, (if (H.zone z).taken L = [] ∧ z ≠ initialZone then
        (H.clearZone L z).deallocateWithin L n z else (true, H)).2) := by
  obtain ⟨hzl, -⟩ := getFreeZone_eq_some hget
  have hz := Wf.mem_descs_of_list hzl
  obtain ⟨n, hn⟩ := Nat.exists_eq_add_of_le' (Nat.one_le_of_lt (List.length_pos_of_mem hz))
  refine ⟨n, hn, ?_⟩
  have hdescs : (H.takeChunk z).descs.length = n + 1 := hn
  simp only [Heap.newZone, hget, hfree, hal, List.headD_cons, Heap.deallocate, hdescs,
    h.deallocateWithin_takeChunk hL hz hfree n]

/-- The undoing of a new zone whose descriptor came from the zone `z`. -/
theorem Wf.undo_newZone (h : H.Wf L r live held) (hL : L.Sound) (ht : H.Tight L)
    (hget : H.getFreeZone descIdx = some z) (hfree : (H.zone z).free = d :: cs) {g : Group}
    {a : Pages} (hal : H.pages.allocate 1 = (some g, a)) {n : ℕ}
    (hsize : classSize descIdx < L.pageSize) :
    ∃ H', ((((H.takeChunk z).withPages a).addZone L d descIdx g.first).clearZone L
        d).deallocateWithin L (n + 1) d = (true, H') ∧ H.Unchanged H' ∧
      H'.Wf L r live held ∧ Pages.Steps L r H.pages H'.pages := by
  obtain ⟨hzl, -⟩ := getFreeZone_eq_some hget
  have hz := Wf.mem_descs_of_list hzl
  obtain ⟨-, hm⟩ := h.newZone_some hL descIdx_lt hsize hget (fun y hy hne _ => ht y hy hne)
    hfree hal
  have hnot : d ∉ H.descs := (h.takeChunk hz hfree).not_desc hL List.mem_cons_self
  have hdinit : d ≠ initialZone :=
    h.chunk_ne_initial hL hz (h.free_sub z hz d (hfree ▸ List.mem_cons_self))
  set H₁ := ((H.takeChunk z).withPages a).addZone L d descIdx g.first with hH₁
  have hnew : H₁.zone d = ⟨g.first, descIdx,
    (ZoneData.chunks L ⟨g.first, descIdx, []⟩).reverse⟩ := zone_addZone_self
  have hnil : (H₁.zone d).taken L = [] := by rw [hnew, taken_fresh]
  have hw := hm.wf.clearZone hL hm.mem hdinit hnil
  -- the lists are those from before
  have hlists : (H₁.clearZone L d).lists = H.lists := by
    funext j
    have hremove : (H₁.clearZone L d).lists =
        Function.update H₁.lists descIdx ((H₁.lists descIdx).erase d) := by
      rw [← hm.idx]
      rfl
    have hadd : H₁.lists = Function.update H.lists descIdx (d :: H.lists descIdx) := rfl
    rw [hremove, hadd, Function.update_self, List.erase_cons_head, Function.update_idem,
      Function.update_eq_self]
  have hzone : ∀ y ∈ H.descs, (H₁.clearZone L d).zone y = (H.takeChunk z).zone y :=
    fun y hy => zone_addZone_of_ne fun e => hnot (e ▸ hy)
  have hzK : z ∈ (H₁.clearZone L d).descs := by
    rw [Heap.descs, hlists]
    exact hz
  have hown : (H₁.clearZone L d).Owns L z d := by
    rw [Owns, hzone z hz, Heap.takeChunk, chunks_setFree]
    exact h.free_sub z hz d (hfree ▸ List.mem_cons_self)
  have hw' := hw.giveChunk hL hzK hown List.mem_cons_self
  rw [List.erase_cons_head] at hw'
  have hsame : H.Unchanged ((H₁.clearZone L d).giveChunk z d) := by
    refine ⟨hlists, fun y hy => ?_⟩
    by_cases hyz : y = z
    · subst hyz
      rw [Heap.giveChunk, zone_setFree_self, hzone y hy, Heap.takeChunk, zone_setFree_self, hfree,
        List.tail_cons, ← hfree]
    · rw [Heap.giveChunk, zone_setFree_of_ne hyz, hzone y hy, Heap.takeChunk,
        zone_setFree_of_ne hyz]
  refine ⟨_, ?_, hsame, hw', ?_⟩
  · have hcond : ¬((((H₁.clearZone L d).giveChunk z d).zone z).free.length =
        (((H₁.clearZone L d).giveChunk z d).zone z).chunksCount L ∧ z ≠ initialZone) := by
      rintro ⟨hlen, hne⟩
      rw [hw'.free_length_eq_iff hzK, hsame.zone z hz] at hlen
      exact ht z hz hne hlen
    simp only [Heap.deallocateWithin, hw.findZone_eq hL hzK hown, if_neg hcond]
  · exact hm.moves.steps.release (hm.wf.pageGroup_mem hm.mem) (hm.wf.pageGroup_ne_reserved hm.mem)

/-- What a failed allocation leads to. -/
structure Undone (L : Layout) (r : Group) (H H' : Heap) (live : List ℕ) (held : List Group) :
    Prop where
  unchanged : H.Unchanged H'
  wf : H'.Wf L r live held
  moves : Moves L r H H'

/-- What is undone has at most rearranged the groups. -/
theorem Undone.of_unchanged (h : H.Wf L r live held) (hu : H.Unchanged H')
    (hw : H'.Wf L r live held) (hst : Pages.Steps L r H.pages H'.pages) :
    Undone L r H H' live held :=
  ⟨hu, hw, hst, congrArg ZoneData.page (hu.zone _ h.initial_mem)⟩

/-- Without a page for a new zone nothing changes. -/
theorem Wf.newZone_undone (h : H.Wf L r live held) (hL : L.Sound) (ht : H.Tight L)
    (hget : H.getFreeZone descIdx = some z) {a : Pages} (hal : H.pages.allocate 1 = (none, a)) :
    H.newZone L i = (none, H) ∧ Undone L r H H live held := by
  obtain ⟨hzl, d, cs, hfree⟩ := getFreeZone_eq_some hget
  obtain ⟨n, -, he⟩ := h.newZone_none (i := i) hL hget hfree hal
  have hcond : ¬((H.zone z).taken L = [] ∧ z ≠ initialZone) := fun hc =>
    ht z (Wf.mem_descs_of_list hzl) hc.2 hc.1
  rw [if_neg hcond] at he
  exact ⟨he, .of_unchanged h .refl h .refl⟩

/-- A new zone of another class after a new zone for descriptors. -/
theorem Wf.newZone_twice (h : H.Wf L r live held) (hL : L.Sound) (ht : H.Tight L)
    (hi : i < maxZoneIdx) (hid : i ≠ descIdx) (hsize : classSize i < L.pageSize)
    (hdesc : classSize descIdx < L.pageSize) (hget : H.getFreeZone descIdx = some z)
    (hfree : (H.zone z).free = d :: cs) {g : Group} {a : Pages}
    (hal : H.pages.allocate 1 = (some g, a)) {H₁ : Heap}
    (hH₁ : H₁ = ((H.takeChunk z).withPages a).addZone L d descIdx g.first) :
    (∃ y H', H₁.newZone L i = (some y, H') ∧ ZoneMade L r H H' i live held y 1) ∨
      ∃ H', H₁.newZone L i = (none, H') ∧ Undone L r H H' live held := by
  obtain ⟨-, hm⟩ := h.newZone_some hL descIdx_lt hdesc hget (fun y hy hne _ => ht y hy hne)
    hfree hal
  rw [← hH₁, if_pos rfl] at hm
  -- the second zone gets its descriptor from the first one
  have hhead : H₁.lists descIdx = d :: H.lists descIdx := by
    rw [hH₁]
    exact Function.update_self _ _ _
  have hget₁ := getFreeZone_head hhead hm.free
  obtain ⟨d', cs', hfree'⟩ := List.exists_cons_of_ne_nil hm.free
  rcases hal₁ : H₁.pages.allocate 1 with ⟨_ | g', a'⟩
  · right
    obtain ⟨n, hn, he⟩ := hm.wf.newZone_none (i := i) hL hget₁ hfree' hal₁
    have hzl := (getFreeZone_eq_some hget).1
    have hz := Wf.mem_descs_of_list hzl
    have hdinit : d ≠ initialZone :=
      h.chunk_ne_initial hL hz (h.free_sub z hz d (hfree ▸ List.mem_cons_self))
    have hnil : (H₁.zone d).taken L = [] := by
      rw [hH₁, zone_addZone_self, taken_fresh]
    have hlen : H₁.descs.length = H.descs.length + 1 := by
      rw [hH₁]
      exact (descs_addZone descIdx_lt).length_eq
    obtain ⟨m, hm'⟩ := Nat.exists_eq_add_of_le' (Nat.one_le_of_lt (List.length_pos_of_mem hz))
    obtain rfl : n = m + 1 := by omega
    obtain ⟨H', hd, hsame, hw, hst⟩ := h.undo_newZone (n := m) hL ht hget hfree hal hdesc
    rw [if_pos ⟨hnil, hdinit⟩, hH₁, hd] at he
    exact ⟨H', hH₁ ▸ he, .of_unchanged h hsame hw hst⟩
  · left
    obtain ⟨he, hm'⟩ := hm.wf.newZone_some hL hi hsize hget₁ hm.tight hfree' hal₁
    rw [if_neg hid] at hm'
    have hres := hm.reserve
    have hcost := h.inv.freeCount_allocate (n := 1) (g := g) (by rw [hal])
    have hcost' := hm.wf.inv.freeCount_allocate (n := 1) (g := g') (by rw [hal₁])
    rw [hal] at hcost
    rw [hal₁, show H₁.pages = a by rw [hH₁]; rfl] at hcost'
    exact ⟨d', _, he, hm'.wf, hm'.tight, hm'.mem, hm'.idx, hm'.free,
      le_trans (by omega) hm'.reserve, fun c j hc => hm'.hasClass c j (hm.hasClass c j hc),
      hm.within.trans hm'.within, hm.moves.trans hm'.moves, 2, le_rfl, by
        rw [← hcost, ← hcost']
        rfl⟩

/-- A new zone of the class `i`, with enough chunks for descriptors left. -/
theorem Wf.allocateZone (h : H.Wf L r live held) (hL : L.Sound) (ht : H.Tight L)
    (hres : 1 ≤ H.freeCount descIdx) (hi : i < maxZoneIdx) (hsize : classSize i < L.pageSize)
    (hdesc : classSize descIdx < L.pageSize) :
    (∃ d H', H.allocateZone L i = (some d, H') ∧
      ZoneMade L r H H' i live held d (if i = descIdx then 2 else 1)) ∨
      ∃ H', H.allocateZone L i = (none, H') ∧ Undone L r H H' live held := by
  obtain ⟨z, hget⟩ := exists_getFreeZone hres
  obtain ⟨-, d, cs, hfree⟩ := getFreeZone_eq_some hget
  have ht' : H.TightBut L z := fun y hy hne _ => ht y hy hne
  unfold Heap.allocateZone
  rcases hal : H.pages.allocate 1 with ⟨_ | g, a⟩
  · right
    refine ⟨H, ?_, .of_unchanged h .refl h .refl⟩
    simp only [(h.newZone_undone hL ht hget hal).1]
    split_ifs <;> rfl
  · by_cases hfirst : i ≠ descIdx ∧ H.shouldAllocateZone descIdx
    · rw [if_pos hfirst]
      obtain ⟨he, -⟩ := h.newZone_some hL descIdx_lt hdesc hget ht' hfree hal
      simp only [he, if_neg hfirst.1]
      exact h.newZone_twice hL ht hi hfirst.1 hsize hdesc hget hfree hal rfl
    · rw [if_neg hfirst]
      left
      obtain ⟨he, hm⟩ := h.newZone_some hL hi hsize hget ht' hfree hal
      refine ⟨d, _, he, ⟨hm.wf, hm.tight, hm.mem, hm.idx, hm.free, ?_, hm.hasClass, hm.within,
        hm.moves, hm.cost⟩⟩
      have hr := hm.reserve
      split_ifs at hr ⊢ with hid
      · exact hr
      · have htwo : H.freeCount descIdx ≠ 1 := fun he => hfirst ⟨hid, by
          rw [shouldAllocateZone, if_pos rfl, he]⟩
        omega

/-! ### A chunk -/

/-- What the allocation of the chunk `c` of the class `i` leads to. -/
structure ChunkMade (L : Layout) (r : Group) (H H' : Heap) (i : ℕ) (live : List ℕ)
    (held : List Group) (c : ℕ) : Prop where
  wf : H'.Wf L r (c :: live) held
  tight : H'.Tight L
  reserve : 1 ≤ H'.freeCount descIdx
  hasClass : ∀ c i, H.HasClass L c i → H'.HasClass L c i
  isClass : H'.HasClass L c i
  within : H.Within H'
  moves : Moves L r H H'
  /-- Two pages have been taken at most. -/
  cost : ∃ n, n ≤ 2 ∧ H'.pages.freeCount + n = H.pages.freeCount

/-- A chunk is taken from a zone. -/
theorem Wf.chunkMade (h : H.Wf L r live held) (hd : d ∈ H.descs) (hidx : (H.zone d).idx = i)
    (ht : H.TightBut L d) (hfree : (H.zone d).free = c :: cs)
    (hres : (if i = descIdx then 2 else 1) ≤ H.freeCount descIdx) :
    ChunkMade L r H (H.takeChunk d) i live held c := by
  refine ⟨h.takeChunk hd hfree, tightBut_takeChunk h hd ht hfree, ?_,
    fun c i hc => hasClass_setFree.mpr hc, ?_, within_setFree, moves_setFree, 0, Nat.zero_le 2,
    rfl⟩
  · by_cases hid : i = descIdx
    · have hcount := (h.freeChunks_takeChunk hd hfree).length_eq
      rw [hidx, hid, List.length_cons] at hcount
      rw [if_pos hid] at hres
      unfold freeCount at hres ⊢
      omega
    · rw [if_neg hid] at hres
      rwa [Heap.takeChunk, freeCount,
        h.freeChunks_setFree_of_ne descIdx_lt (by rw [hidx]; exact Ne.symm hid)]
  · refine hasClass_setFree.mpr ⟨d, hd, h.free_sub d hd c ?_, hidx⟩
    rw [hfree]
    exact List.mem_cons_self

/-- The allocation of a chunk of the class `i`. -/
theorem Wf.allocateChunk (h : H.Wf L r live held) (hL : L.Sound) (ht : H.Tight L)
    (hres : 1 ≤ H.freeCount descIdx) (hi : i < maxZoneIdx) (hsize : classSize i < L.pageSize)
    (hdesc : classSize descIdx < L.pageSize) :
    (∃ c H', H.allocateChunk L i = (some c, H') ∧ ChunkMade L r H H' i live held c) ∨
      ∃ H', H.allocateChunk L i = (none, H') ∧ Undone L r H H' live held := by
  unfold Heap.allocateChunk
  by_cases hshould : H.shouldAllocateZone i
  · rw [if_pos hshould]
    rcases h.allocateZone hL ht hres hi hsize hdesc with ⟨d, H', he, hm⟩ | ⟨H', he, hu⟩
    · left
      obtain ⟨c, cs, hfree⟩ := List.exists_cons_of_ne_nil hm.free
      have hc := hm.wf.chunkMade hm.mem hm.idx hm.tight hfree hm.reserve
      simp only [he, hfree, List.head?_cons]
      exact ⟨c, _, rfl, hc.wf, hc.tight, hc.reserve,
        fun c i hci => hc.hasClass c i (hm.hasClass c i hci), hc.isClass,
        hm.within.trans hc.within, hm.moves.trans hc.moves, hm.cost⟩
    · right
      simp only [he]
      exact ⟨H', rfl, hu⟩
  · rw [if_neg hshould]
    left
    have hcount : 0 < H.freeCount i ∧ (if i = descIdx then 2 else 1) ≤ H.freeCount descIdx := by
      unfold shouldAllocateZone at hshould
      split_ifs at hshould ⊢ with hid
      · subst hid
        omega
      · omega
    obtain ⟨d, hget⟩ := exists_getFreeZone hcount.1
    obtain ⟨hdl, c, cs, hfree⟩ := getFreeZone_eq_some hget
    have hd : d ∈ H.descs := mem_descs.mpr ⟨i, hi, hdl⟩
    have hc := h.chunkMade hd (h.idx i hi d hdl) (fun y hy hne _ => ht y hy hne) hfree hcount.2
    simp only [hget, hfree, List.head?_cons]
    exact ⟨c, _, rfl, hc⟩

end Heap

end Liballocator
