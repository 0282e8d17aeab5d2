import Mathlib.Tactic.Common
import Mathlib.Data.Nat.Notation

/-!
# Reasoning about stateful programs that may fail

A program is a computation `StateT σ (Except ε) α`: it reads and writes a state `σ` and either
returns a value or stops with a fault.  `wp x Q s` is its weakest precondition: started in `s` the
program `x` returns, without a fault, a value and a state that satisfy `Q`.  `wlp x Q s` is its
weakest liberal precondition: if the program returns, then the value and the state satisfy `Q`.

The file gives one rule for each construct (`wp_pure`, `wp_bind`, `wp_get`, ...), all tagged for
`simp`, the consequence rule `wp.mono`, the determinism rule `wp.of_run_eq`, and the rule
`wp_within` for a program that runs on one component of a larger state; then the same for `wlp`.
-/

namespace Program

variable {σ τ ε α β : Type}

/-- `wp x Q s`: run in the state `s` the program `x` ends without a fault, and the value and the
state it ends with satisfy `Q`. -/
def wp (x : StateT σ (Except ε) α) (Q : α → σ → Prop) (s : σ) : Prop :=
  ∃ a s', x s = Except.ok (a, s') ∧ Q a s'

/-! ### One rule for each construct -/

/-- A sequence of two programs goes on where the first one has ended. -/
theorem bind_of_run_eq {x : StateT σ (Except ε) α} {f : α → StateT σ (Except ε) β} {s s' : σ}
    {a : α} (hx : x s = Except.ok (a, s')) : (x >>= f) s = f a s' := by
  change (do let p ← x s; f p.1 p.2) = _
  rw [hx]
  rfl

/-- The beginning of a sequence may be replaced by one that runs alike. -/
theorem bind_congr_run {x y : StateT σ (Except ε) α} {f : α → StateT σ (Except ε) β} {s : σ}
    (hxy : x s = y s) : (x >>= f) s = (y >>= f) s := by
  change (do let p ← x s; f p.1 p.2) = _
  rw [hxy]
  rfl

/-- A program that begins by reading the state. -/
theorem get_bind_run {f : σ → StateT σ (Except ε) β} {s : σ} : (get >>= f) s = f s s := rfl

/-- A program that begins by changing the state. -/
theorem modify_bind_run {g : σ → σ} {f : PUnit → StateT σ (Except ε) β} {s : σ} :
    (modify g >>= f) s = f ⟨⟩ (g s) := rfl

/-- The rule for `pure`. -/
@[simp] theorem wp_pure {a : α} {Q : α → σ → Prop} {s : σ} :
    wp (pure a : StateT σ (Except ε) α) Q s ↔ Q a s := by
  constructor
  · rintro ⟨b, s', h, hQ⟩
    cases h
    exact hQ
  · exact fun h => ⟨a, s, rfl, h⟩

/-- Sequential composition: the first program must lead to a state from which the second one
reaches `Q`. -/
@[simp] theorem wp_bind {x : StateT σ (Except ε) α} {f : α → StateT σ (Except ε) β}
    {Q : β → σ → Prop} {s : σ} :
    wp (x >>= f) Q s ↔ wp x (fun a s' => wp (f a) Q s') s := by
  constructor
  · rintro ⟨b, s₂, h, hQ⟩
    cases hx : x s with
    | error e =>
      have h' : (x >>= f) s = Except.error e := by
        change (do let p ← x s; f p.1 p.2) = _
        rw [hx]; rfl
      rw [h'] at h
      cases h
    | ok p =>
      obtain ⟨a, s₁⟩ := p
      refine ⟨a, s₁, hx, b, s₂, ?_, hQ⟩
      rw [← h]
      change _ = (do let p ← x s; f p.1 p.2)
      rw [hx]; rfl
  · rintro ⟨a, s₁, hx, b, s₂, hf, hQ⟩
    exact ⟨b, s₂, (bind_of_run_eq hx).trans hf, hQ⟩

/-- The rule for `<$>`. -/
@[simp] theorem wp_map {x : StateT σ (Except ε) α} {f : α → β} {Q : β → σ → Prop} {s : σ} :
    wp (f <$> x) Q s ↔ wp x (fun a s' => Q (f a) s') s := by
  rw [map_eq_pure_bind, wp_bind]
  simp only [wp_pure]

/-- The rule for `get`. -/
@[simp] theorem wp_get {Q : σ → σ → Prop} {s : σ} :
    wp (get : StateT σ (Except ε) σ) Q s ↔ Q s s :=
  ⟨fun ⟨_, _, h, hQ⟩ => by cases h; exact hQ, fun h => ⟨s, s, rfl, h⟩⟩

/-- The rule for `set`. -/
@[simp] theorem wp_set {s' : σ} {Q : PUnit → σ → Prop} {s : σ} :
    wp (set s' : StateT σ (Except ε) PUnit) Q s ↔ Q ⟨⟩ s' :=
  ⟨fun ⟨_, _, h, hQ⟩ => by cases h; exact hQ, fun h => ⟨⟨⟩, s', rfl, h⟩⟩

/-- The rule for `modify`. -/
@[simp] theorem wp_modify {f : σ → σ} {Q : PUnit → σ → Prop} {s : σ} :
    wp (modify f : StateT σ (Except ε) PUnit) Q s ↔ Q ⟨⟩ (f s) :=
  ⟨fun ⟨_, _, h, hQ⟩ => by cases h; exact hQ, fun h => ⟨⟨⟩, f s, rfl, h⟩⟩

/-- A program that fails meets no postcondition. -/
@[simp] theorem wp_throw {e : ε} {Q : α → σ → Prop} {s : σ} :
    wp (throw e : StateT σ (Except ε) α) Q s ↔ False :=
  ⟨fun ⟨_, _, h, _⟩ => (by cases h), False.elim⟩

/-- A conditional is reasoned about branch by branch. -/
theorem wp_ite {c : Prop} [Decidable c] {x y : StateT σ (Except ε) α} {Q : α → σ → Prop} {s : σ} :
    wp (if c then x else y) Q s ↔ (c → wp x Q s) ∧ (¬c → wp y Q s) := by
  split_ifs with h <;> simp [h]

/-! ### Consequence and determinism -/

/-- The consequence rule. -/
theorem wp.mono {x : StateT σ (Except ε) α} {Q R : α → σ → Prop} {s : σ} (h : wp x Q s)
    (hQR : ∀ a s', Q a s' → R a s') : wp x R s := by
  obtain ⟨a, s', hx, hQ⟩ := h
  exact ⟨a, s', hx, hQR a s' hQ⟩

/-- A program has one outcome: what its weakest precondition promises holds of the outcome that
is observed. -/
theorem wp.of_run_eq {x : StateT σ (Except ε) α} {Q : α → σ → Prop} {s s' : σ} {a : α}
    (h : wp x Q s) (hx : x s = Except.ok (a, s')) : Q a s' := by
  obtain ⟨b, s₁, hx₁, hQ⟩ := h
  rw [hx] at hx₁
  cases hx₁
  exact hQ

/-- An observed outcome is what the weakest precondition is about. -/
theorem wp_of_run_eq {x : StateT σ (Except ε) α} {Q : α → σ → Prop} {s s' : σ} {a : α}
    (hx : x s = Except.ok (a, s')) (hQ : Q a s') : wp x Q s :=
  ⟨a, s', hx, hQ⟩

/-- Programs and states that give the same run. -/
theorem wp.of_run {x y : StateT σ (Except ε) α} {Q : α → σ → Prop} {s s' : σ} (hy : wp y Q s')
    (h : x s = y s') : wp x Q s := by
  obtain ⟨a, s₁, hrun, hQ⟩ := hy
  exact ⟨a, s₁, h.trans hrun, hQ⟩

/-- A run that has been evaluated to its value ends in some state. -/
theorem exists_run {x : StateT σ (Except ε) α} {s : σ} {a : α}
    (h : (x s).toOption.map Prod.fst = some a) : ∃ s', x s = Except.ok (a, s') := by
  cases hx : x s with
  | error e => simp [hx, Except.toOption] at h
  | ok p =>
    obtain ⟨b, s'⟩ := p
    simp only [hx, Except.toOption, Option.map_some, Option.some.injEq] at h
    exact ⟨s', by rw [h]⟩

/-- A run that has been evaluated to a fault. -/
theorem run_eq_error {x : StateT σ (Except ε) α} {s : σ} {e : ε}
    (h : (x s).map Prod.fst = Except.error e) : x s = Except.error e := by
  cases hx : x s with
  | error e' =>
    rw [hx] at h
    cases h
    rfl
  | ok p =>
    rw [hx] at h
    cases h

/-! ### Programs on a component of the state -/

/-- Run the program `x` on the component of the state that `get` reads and `put` replaces. -/
def within (get : σ → τ) (put : τ → σ → σ) (x : StateT τ (Except ε) α) : StateT σ (Except ε) α :=
  fun s =>
    match x (get s) with
    | Except.ok (a, t) => Except.ok (a, put t s)
    | Except.error e => Except.error e

/-- A program on a component reaches `Q` when it does so on the component alone, the rest of the
state being as before. -/
@[simp] theorem wp_within {get : σ → τ} {put : τ → σ → σ} {x : StateT τ (Except ε) α}
    {Q : α → σ → Prop} {s : σ} :
    wp (within get put x) Q s ↔ wp x (fun a t => Q a (put t s)) (get s) := by
  constructor
  · rintro ⟨a, s', h, hQ⟩
    unfold within at h
    cases hx : x (get s) with
    | error e => rw [hx] at h; cases h
    | ok p =>
      obtain ⟨b, t⟩ := p
      rw [hx] at h
      cases h
      exact ⟨a, t, hx, hQ⟩
  · rintro ⟨a, t, hx, hQ⟩
    exact ⟨a, put t s, by rw [within, hx], hQ⟩

/-! ### Partial correctness -/

/-- `wlp x Q s`: if run in the state `s` the program `x` ends without a fault, then the value and
the state it ends with satisfy `Q`. -/
def wlp (x : StateT σ (Except ε) α) (Q : α → σ → Prop) (s : σ) : Prop :=
  ∀ a s', x s = Except.ok (a, s') → Q a s'

/-- What holds after every run holds after the runs that return. -/
theorem wp.wlp {x : StateT σ (Except ε) α} {Q : α → σ → Prop} {s : σ} (h : wp x Q s) :
    wlp x Q s :=
  fun _ _ hx => h.of_run_eq hx

/-- What holds of all results and states holds after every run that returns. -/
theorem wlp_of_forall {x : StateT σ (Except ε) α} {Q : α → σ → Prop} {s : σ}
    (h : ∀ a s', Q a s') : wlp x Q s :=
  fun a s' _ => h a s'

/-- The rule of consequence. -/
theorem wlp.mono {x : StateT σ (Except ε) α} {Q R : α → σ → Prop} {s : σ} (h : wlp x Q s)
    (hQR : ∀ a s', Q a s' → R a s') : wlp x R s :=
  fun a s' hx => hQR a s' (h a s' hx)

/-- The rule for `pure`. -/
@[simp] theorem wlp_pure {a : α} {Q : α → σ → Prop} {s : σ} :
    wlp (pure a : StateT σ (Except ε) α) Q s ↔ Q a s :=
  ⟨fun h => h a s rfl, fun h _ _ hx => by cases hx; exact h⟩

/-- Sequential composition: every end of the first program must be a state from which the second
one can only end in `Q`. -/
@[simp] theorem wlp_bind {x : StateT σ (Except ε) α} {f : α → StateT σ (Except ε) β}
    {Q : β → σ → Prop} {s : σ} :
    wlp (x >>= f) Q s ↔ wlp x (fun a s' => wlp (f a) Q s') s := by
  constructor
  · intro h a s₁ hx b s₂ hf
    exact h b s₂ ((bind_of_run_eq hx).trans hf)
  · intro h b s₂ hb
    obtain ⟨a, s₁, hx, hf⟩ := wp_bind.mp (wp_of_run_eq (Q := fun b' s' => b' = b ∧ s' = s₂) hb
      ⟨rfl, rfl⟩)
    obtain ⟨_, _, hf, rfl, rfl⟩ := hf
    exact h a s₁ hx _ _ hf

/-- The rule for `get`. -/
@[simp] theorem wlp_get {Q : σ → σ → Prop} {s : σ} :
    wlp (get : StateT σ (Except ε) σ) Q s ↔ Q s s :=
  ⟨fun h => h s s rfl, fun h _ _ hx => by cases hx; exact h⟩

/-- The rule for `modify`. -/
@[simp] theorem wlp_modify {f : σ → σ} {Q : PUnit → σ → Prop} {s : σ} :
    wlp (modify f : StateT σ (Except ε) PUnit) Q s ↔ Q ⟨⟩ (f s) :=
  ⟨fun h => h ⟨⟩ (f s) rfl, fun h _ _ hx => by cases hx; exact h⟩

/-- A program that fails meets every postcondition. -/
@[simp] theorem wlp_throw {e : ε} {Q : α → σ → Prop} {s : σ} :
    wlp (throw e : StateT σ (Except ε) α) Q s ↔ True :=
  ⟨fun _ => trivial, fun _ _ _ hx => by cases hx⟩

/-- The rule for `if`. -/
theorem wlp_ite {c : Prop} [Decidable c] {x y : StateT σ (Except ε) α} {Q : α → σ → Prop} {s : σ} :
    wlp (if c then x else y) Q s ↔ (c → wlp x Q s) ∧ (¬c → wlp y Q s) := by
  split_ifs with h <;> simp [h]

/-- The rule for a program on a part of the state. -/
@[simp] theorem wlp_within {get : σ → τ} {put : τ → σ → σ} {x : StateT τ (Except ε) α}
    {Q : α → σ → Prop} {s : σ} :
    wlp (within get put x) Q s ↔ wlp x (fun a t => Q a (put t s)) (get s) := by
  constructor
  · intro h a t hx
    exact h a (put t s) (by rw [within, hx])
  · intro h a s' hx
    obtain ⟨_, _, hrun, rfl, rfl⟩ := wp_within.mp
      (wp_of_run_eq (Q := fun a' t => a' = a ∧ t = s') hx ⟨rfl, rfl⟩)
    exact h _ _ hrun

/-! ### What a program leaves alone -/

/-- No run of the program `x` changes the part `f` of the state. -/
def Preserves {γ : Type} (f : σ → γ) (x : StateT σ (Except ε) α) : Prop :=
  ∀ s, wlp x (fun _ s' => f s' = f s) s

variable {γ : Type} {f : σ → γ} {x y : StateT σ (Except ε) α}

/-- What both parts preserve is preserved. -/
theorem Preserves.bind {g : α → StateT σ (Except ε) β} (hx : Preserves f x)
    (hg : ∀ a, Preserves f (g a)) : Preserves f (x >>= g) :=
  fun s => wlp_bind.mpr ((hx s).mono fun a s₁ h₁ => (hg a s₁).mono fun _ _ h₂ => h₂.trans h₁)

/-- A program that runs on a component of the state leaves alone what does not depend on it. -/
theorem preserves_within {get : σ → τ} {put : τ → σ → σ} {z : StateT τ (Except ε) α}
    (h : ∀ s t, f (put t s) = f s) : Preserves f (within get put z) :=
  fun s => wlp_within.mpr (wlp_of_forall fun _ t => h s t)

end Program
