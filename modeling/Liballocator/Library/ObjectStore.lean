import Mathlib.Data.List.Pairwise
import Mathlib.Logic.Function.Basic
import Liballocator.Library.Simulation

/-!
# Object stores

An object store is what a program sees of dynamic memory: objects with a name, a size and cells,
each of which keeps its contents whatever happens to the others.  `Step` says what the events of a
program do to it; a cell that has been written is read with the same value until it is written again
or its object is released (`eq_of_written`).

A flat memory with extents that do not overlap implements an object store (`flat_simulates`): the
name of an object is where its extent starts (`objects`), and it is enough that a new extent is apart
from the others and that no call changes the cells of the extents that stay (`FlatStep`).
-/

namespace ObjectStore

open Simulation

/-- An object with its cells. -/
structure Object (υ : Type*) where
  size : ℕ
  cells : Fin size → υ

/-- A cell of the object is written. -/
def Object.set {υ : Type*} (o : Object υ) (k : Fin o.size) (v : υ) : Object υ :=
  ⟨o.size, Function.update o.cells k v⟩

/-- What a program does with a store, and what it sees of it. -/
inductive Event (ι υ : Type*)
  | allocate (size : ℕ) (result : Option ι)
  | release (p : ι)
  | write (p : ι) (k : ℕ) (v : υ)
  | read (p : ι) (k : ℕ) (v : υ)

section Store

variable {ι υ : Type*} [DecidableEq ι]

/-- The effect of an event on the objects. -/
inductive Step : (ι → Option (Object υ)) → Event ι υ → (ι → Option (Object υ)) → Prop
  /-- A new object has a new name and any contents. -/
  | allocate {S : ι → Option (Object υ)} {p : ι} (o : Object υ) :
    S p = none → Step S (.allocate o.size (some p)) (Function.update S p (some o))
  | refuse {S : ι → Option (Object υ)} {n : ℕ} : Step S (.allocate n none) S
  | release {S : ι → Option (Object υ)} {p : ι} {o : Object υ} :
    S p = some o → Step S (.release p) (Function.update S p none)
  | write {S : ι → Option (Object υ)} {p : ι} {o : Object υ} (k : Fin o.size) (v : υ) :
    S p = some o → Step S (.write p k v) (Function.update S p (some (o.set k v)))
  | read {S : ι → Option (Object υ)} {p : ι} {o : Object υ} (k : Fin o.size) :
    S p = some o → Step S (.read p k (o.cells k)) S

/-- The event writes the cell `k` of the object `p`, or it releases the object. -/
def Event.Changes (p : ι) (k : ℕ) : Event ι υ → Prop
  | .release q => q = p
  | .write q j _ => q = p ∧ j = k
  | _ => False

/-- The cell `k` of the object `p` holds a value. -/
def Holds (S : ι → Option (Object υ)) (p : ι) (k : ℕ) (v : υ) : Prop :=
  ∃ o : Object υ, S p = some o ∧ ∃ hk : k < o.size, o.cells ⟨k, hk⟩ = v

variable {S S' : ι → Option (Object υ)} {e : Event ι υ} {p : ι} {k : ℕ} {v w : υ}

/-- What has been written is there. -/
theorem Step.holds_of_write (h : Step S (.write p k v) S') : Holds S' p k v := by
  cases h with
  | write k _ hp => exact ⟨_, Function.update_self _ _ _, k.isLt, Function.update_self _ _ _⟩

/-- What is there is read. -/
theorem Step.eq_of_read (h : Step S (.read p k w) S') (hv : Holds S p k v) : w = v := by
  cases h with
  | read k hp =>
    obtain ⟨o', ho', hk, rfl⟩ := hv
    cases hp.symm.trans ho'
    rfl

/-- An event that does not change a cell leaves its value. -/
theorem Step.holds (h : Step S e S') (hv : Holds S p k v) (hnot : ¬e.Changes p k) :
    Holds S' p k v := by
  obtain ⟨o, ho, hk, rfl⟩ := hv
  -- objects with other names are not concerned
  have hother : ∀ {q : ι} {x : Option (Object υ)}, p ≠ q →
      Holds (Function.update S q x) p k (o.cells ⟨k, hk⟩) := fun hne =>
    ⟨o, (Function.update_of_ne hne _ _).trans ho, hk, rfl⟩
  cases h with
  | allocate o' hq =>
    apply hother
    rintro rfl
    exact absurd (hq.symm.trans ho) (by simp)
  | refuse => exact ⟨o, ho, hk, rfl⟩
  | release hq => exact hother (Ne.symm hnot)
  | write j w hq =>
    rename_i q o'
    by_cases hpq : p = q
    · subst hpq
      cases hq.symm.trans ho
      refine ⟨o.set j w, Function.update_self _ _ _, hk, Function.update_of_ne ?_ _ _⟩
      exact fun he => hnot ⟨rfl, (congrArg Fin.val he).symm⟩
    · exact hother hpq
  | read k hq => exact ⟨o, ho, hk, rfl⟩

/-- A cell is read as it was written last. -/
theorem eq_of_written {S₀ : ι → Option (Object υ)} {l l₀ : List (Event ι υ)}
    (htrace : Trace Step S₀ (.read p k w :: (l ++ .write p k v :: l₀)) S)
    (hl : ∀ e ∈ l, ¬e.Changes p k) : w = v := by
  cases htrace with
  | snoc htrace hread =>
    obtain ⟨S₁, hwrite, hrest⟩ := htrace.split
    cases hwrite with
    | snoc _ hwrite =>
      refine hread.eq_of_read ?_
      -- the value survives the events since it was written
      clear hread htrace
      induction hrest with
      | nil => exact hwrite.holds_of_write
      | snoc _ hstep ih =>
        exact hstep.holds (ih fun e he => hl e (List.mem_cons_of_mem _ he))
          (hl _ List.mem_cons_self)

end Store

/-! ### Flat memories -/

section Flat

variable {β υ : Type*} (start size : β → ℕ)

/-- The extents are not empty, and they do not overlap. -/
structure Extents (bs : List β) : Prop where
  pos : ∀ b ∈ bs, 0 < size b
  apart : bs.Pairwise fun b c => start b + size b ≤ start c ∨ start c + size c ≤ start b

/-- The object in an extent of the memory. -/
def object (m : ℕ → υ) (b : β) : Object υ := ⟨size b, fun k => m (start b + k)⟩

/-- The objects in the extents of the memory. -/
def objects (m : ℕ → υ) (bs : List β) (p : ℕ) : Option (Object υ) :=
  (bs.find? fun b => start b = p).map (object start size m)

/-- The memory is the same in the extents. -/
def Keep (bs : List β) (m m' : ℕ → υ) : Prop :=
  ∀ b ∈ bs, ∀ k < size b, m' (start b + k) = m (start b + k)

variable [DecidableEq β]

/-- The effect of an event on the extents and on the memory. -/
inductive FlatStep : List β × (ℕ → υ) → Event ℕ υ → List β × (ℕ → υ) → Prop
  | allocate {bs : List β} {m m' : ℕ → υ} {b : β} :
    Extents start size (b :: bs) → Keep start size bs m m' →
    FlatStep (bs, m) (.allocate (size b) (some (start b))) (b :: bs, m')
  | refuse {bs : List β} {m m' : ℕ → υ} {n : ℕ} :
    Keep start size bs m m' → FlatStep (bs, m) (.allocate n none) (bs, m')
  | release {bs : List β} {m m' : ℕ → υ} {b : β} :
    b ∈ bs → Keep start size (bs.erase b) m m' →
    FlatStep (bs, m) (.release (start b)) (bs.erase b, m')
  | write {bs : List β} {m : ℕ → υ} {b : β} {k : ℕ} {v : υ} :
    b ∈ bs → k < size b →
    FlatStep (bs, m) (.write (start b) k v) (bs, Function.update m (start b + k) v)
  | read {bs : List β} {m : ℕ → υ} {b : β} {k : ℕ} :
    b ∈ bs → k < size b → FlatStep (bs, m) (.read (start b) k (m (start b + k))) (bs, m)

variable {start size} {bs : List β} {m m' : ℕ → υ} {b c : β} {k p : ℕ} {v : υ}

omit [DecidableEq β] in
/-- Different extents have no cell in common. -/
theorem Extents.ne (h : Extents start size bs) (hb : b ∈ bs) (hc : c ∈ bs) (hne : b ≠ c) {j : ℕ}
    (hk : k < size b) (hj : j < size c) : start b + k ≠ start c + j := by
  have hsymm : Std.Symm fun b c => start b + size b ≤ start c ∨ start c + size c ≤ start b :=
    ⟨fun _ _ => Or.symm⟩
  rcases h.apart.forall hb hc hne with hle | hle <;> omega

omit [DecidableEq β] in
/-- Extents are known by where they start. -/
theorem Extents.eq_of_start (h : Extents start size bs) (hb : b ∈ bs) (hc : c ∈ bs)
    (hstart : start b = start c) : b = c := by
  by_contra hne
  exact h.ne hb hc hne (h.pos b hb) (h.pos c hc) (by rw [hstart])

omit [DecidableEq β] in
/-- The object at the beginning of an extent. -/
theorem Extents.objects_start (h : Extents start size bs) (hb : b ∈ bs) :
    objects start size m bs (start b) = some (object start size m b) := by
  rw [objects]
  cases hf : bs.find? fun c => start c = start b with
  | none => exact absurd (decide_eq_true rfl) (List.find?_eq_none.mp hf b hb)
  | some c =>
    have hc := List.find?_some hf
    rw [decide_eq_true_iff] at hc
    rw [h.eq_of_start (List.mem_of_find?_eq_some hf) hb hc, Option.map_some]

omit [DecidableEq β] in
/-- There is no object where no extent begins. -/
theorem objects_eq_none (hp : ∀ b ∈ bs, start b ≠ p) : objects start size m bs p = none := by
  rw [objects, List.find?_eq_none.mpr fun b hb => by simpa using hp b hb, Option.map_none]

omit [DecidableEq β] in
/-- An object is given by the cells of its extent. -/
theorem object_congr (h : ∀ k < size b, m' (start b + k) = m (start b + k)) :
    object start size m' b = object start size m b :=
  congrArg (Object.mk (size b)) (funext fun k => h k k.isLt)

omit [DecidableEq β] in
/-- The objects depend on the cells of their extents only. -/
theorem Keep.objects (h : Keep start size bs m m') :
    ObjectStore.objects start size m' bs = ObjectStore.objects start size m bs := by
  funext p
  rw [ObjectStore.objects, ObjectStore.objects]
  cases hf : bs.find? fun b => start b = p with
  | none => rfl
  | some b =>
    rw [Option.map_some, Option.map_some, object_congr (h b (List.mem_of_find?_eq_some hf))]

omit [DecidableEq β] in
/-- A further extent is a further object. -/
theorem objects_cons : objects start size m (b :: bs) =
    Function.update (objects start size m bs) (start b) (some (object start size m b)) := by
  funext p
  by_cases hp : p = start b
  · subst hp
    rw [Function.update_self, objects, List.find?_cons_of_pos (by simp), Option.map_some]
  · rw [Function.update_of_ne hp, objects, objects,
      List.find?_cons_of_neg (by simpa using Ne.symm hp)]

/-- The extents that remain do not overlap. -/
theorem Extents.erase (h : Extents start size bs) (b : β) : Extents start size (bs.erase b) :=
  ⟨fun c hc => h.pos c (List.mem_of_mem_erase hc), h.apart.sublist List.erase_sublist⟩

omit [DecidableEq β] in
/-- No extent is there twice. -/
theorem Extents.nodup (h : Extents start size bs) : bs.Nodup := by
  refine h.apart.imp_of_mem fun {b c} hb _ hle => ?_
  rintro rfl
  have := h.pos b hb
  omega

/-- An extent less is an object less. -/
theorem Extents.objects_erase (h : Extents start size bs) (hb : b ∈ bs) :
    objects start size m (bs.erase b) =
      Function.update (objects start size m bs) (start b) none := by
  funext p
  by_cases hp : p = start b
  · subst hp
    rw [Function.update_self]
    refine objects_eq_none fun c hc hstart => ?_
    have hcb := (h.nodup.mem_erase_iff.mp hc).1
    exact hcb (h.eq_of_start (List.mem_of_mem_erase hc) hb hstart)
  · rw [Function.update_of_ne hp]
    by_cases hex : ∃ c ∈ bs, start c = p
    · obtain ⟨c, hc, rfl⟩ := hex
      have hcb : c ≠ b := by
        rintro rfl
        exact hp rfl
      rw [h.objects_start hc, (h.erase b).objects_start ((List.mem_erase_of_ne hcb).mpr hc)]
    · have hnone : ∀ c ∈ bs, start c ≠ p := fun c hc hcp => hex ⟨c, hc, hcp⟩
      rw [objects_eq_none hnone, objects_eq_none fun c hc => hnone c (List.mem_of_mem_erase hc)]

omit [DecidableEq β] in
/-- A write to a cell of an extent changes one word of the object. -/
theorem object_write (k : Fin (size b)) :
    object start size (Function.update m (start b + k) v) b =
      (object start size m b).set k v := by
  have hcells : (fun j : Fin (size b) => Function.update m (start b + k) v (start b + j)) =
      Function.update (fun j : Fin (size b) => m (start b + j)) k v := by
    funext j
    by_cases hjk : j = k
    · rw [hjk, Function.update_self, Function.update_self]
    · have hne : start b + (j : ℕ) ≠ start b + (k : ℕ) := fun he =>
        hjk (Fin.ext (Nat.add_left_cancel he))
      rw [Function.update_of_ne hne, Function.update_of_ne hjk]
  rw [object, hcells]
  rfl

omit [DecidableEq β] in
/-- A write to a cell changes the object in whose extent it is. -/
theorem Extents.objects_write (h : Extents start size bs) (hb : b ∈ bs) (k : Fin (size b)) :
    objects start size (Function.update m (start b + k) v) bs =
      Function.update (objects start size m bs) (start b)
        (some ((object start size m b).set k v)) := by
  funext p
  by_cases hex : ∃ c ∈ bs, start c = p
  · obtain ⟨c, hc, rfl⟩ := hex
    rw [h.objects_start hc]
    by_cases hcb : c = b
    · subst hcb
      rw [Function.update_self, object_write]
    · have hstart : start c ≠ start b := fun he => hcb (h.eq_of_start hc hb he)
      rw [Function.update_of_ne hstart, h.objects_start hc]
      exact congrArg some (object_congr fun j hj =>
        Function.update_of_ne (h.ne hc hb hcb hj k.isLt) _ _)
  · have hnone : ∀ c ∈ bs, start c ≠ p := fun c hc hcp => hex ⟨c, hc, hcp⟩
    have hpb : p ≠ start b := fun he => hnone b hb he.symm
    rw [Function.update_of_ne hpb, objects_eq_none hnone, objects_eq_none hnone]

/-- A flat memory with extents implements an object store. -/
theorem flat_simulates : Simulates (FlatStep start size) (Step (υ := υ))
    fun flat S => Extents start size flat.1 ∧ S = objects start size flat.2 flat.1 := by
  rintro _ _ e S ⟨h, rfl⟩ hstep
  cases hstep with
  | @allocate bs m m' b hbs hkeep =>
    refine ⟨_, .allocate (object start size m' b) (objects_eq_none fun c hc hcb => ?_), hbs, ?_⟩
    · have hcb : c = b := hbs.eq_of_start (List.mem_cons_of_mem _ hc) List.mem_cons_self hcb
      exact (List.nodup_cons.mp hbs.nodup).1 (hcb ▸ hc)
    · rw [objects_cons, hkeep.objects]
  | refuse hkeep => exact ⟨_, .refuse, h, hkeep.objects.symm⟩
  | @release bs m m' b hb hkeep =>
    refine ⟨_, .release (h.objects_start hb), h.erase b, ?_⟩
    rw [hkeep.objects, h.objects_erase hb]
  | @write bs m b k v hb hk =>
    exact ⟨_, .write ⟨k, hk⟩ v (h.objects_start hb), h, (h.objects_write hb ⟨k, hk⟩).symm⟩
  | @read bs m b k hb hk => exact ⟨_, .read ⟨k, hk⟩ (h.objects_start hb), h, rfl⟩

end Flat

end ObjectStore
