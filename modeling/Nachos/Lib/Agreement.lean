/-!
# Two runs of one program

A program here changes a state and either returns a value or stops with an
error (`EStateM`).  `Agree` compares two runs of the same program from states
that a relation connects: both return the same value and stay connected, or both
stop with the same error.  The rules follow the structure of the program, so
that a proof about a program is assembled from the ones about its parts.
-/

namespace Lib

universe u

variable {ε σ α β : Type u}

/-- Two runs of the program from states related by `P` end alike: with the same
value in states related by `Q`, or with the same error. -/
def Agree (P : σ → σ → Prop) (x : EStateM ε σ α) (Q : α → σ → σ → Prop) : Prop :=
  ∀ s t, P s t → match x s, x t with
    | .ok a s', .ok b t' => a = b ∧ Q a s' t'
    | .error e _, .error e' _ => e = e'
    | _, _ => False

variable {P : σ → σ → Prop} {Q Q' : α → σ → σ → Prop} {R : β → σ → σ → Prop}

theorem Agree.pure {a : α} (h : ∀ s t, P s t → Q a s t) : Agree P (pure a : EStateM ε σ α) Q :=
  fun s t hst => ⟨rfl, h s t hst⟩

theorem Agree.throw {e : ε} : Agree P (throw e : EStateM ε σ α) Q :=
  fun _ _ _ => rfl

theorem Agree.bind {x : EStateM ε σ α} {f : α → EStateM ε σ β} (hx : Agree P x Q)
    (hf : ∀ a, Agree (Q a) (f a) R) : Agree P (x >>= f) R := by
  intro s t hst
  show match EStateM.bind x f s, EStateM.bind x f t with
    | .ok a s', .ok b t' => a = b ∧ R a s' t'
    | .error e _, .error e' _ => e = e'
    | _, _ => False
  have h := hx s t hst
  unfold EStateM.bind
  cases hs : x s with
  | ok a s' =>
    cases ht : x t with
    | ok b t' =>
      rw [hs, ht] at h
      obtain ⟨rfl, hq⟩ := h
      exact hf a s' t' hq
    | error e t' => rw [hs, ht] at h; exact h.elim
  | error e s' =>
    cases ht : x t with
    | ok b t' => rw [hs, ht] at h; exact h.elim
    | error e' t' =>
      rw [hs, ht] at h
      exact h

theorem Agree.ite {c : Prop} [Decidable c] {x y : EStateM ε σ α}
    (hx : c → Agree P x Q) (hy : ¬ c → Agree P y Q) : Agree P (if c then x else y) Q := by
  by_cases h : c
  · rw [if_pos h]; exact hx h
  · rw [if_neg h]; exact hy h

theorem Agree.pre {P' : σ → σ → Prop} {x : EStateM ε σ α} (h : ∀ s t, P' s t → P s t)
    (hx : Agree P x Q) : Agree P' x Q :=
  fun s t hst => hx s t (h s t hst)

theorem Agree.post {x : EStateM ε σ α} (hx : Agree P x Q)
    (h : ∀ a s t, Q a s t → Q' a s t) : Agree P x Q' := by
  intro s t hst
  have hrun := hx s t hst
  cases hs : x s with
  | ok a s' =>
    cases ht : x t with
    | ok b t' =>
      rw [hs, ht] at hrun
      obtain ⟨hab, hq⟩ := hrun
      exact ⟨hab, h a s' t' hq⟩
    | error e t' => rw [hs, ht] at hrun; exact hrun.elim
  | error e s' =>
    cases ht : x t with
    | ok b t' => rw [hs, ht] at hrun; exact hrun.elim
    | error e' t' =>
      rw [hs, ht] at hrun
      exact hrun

/-- The run of a program whose first part returns. -/
theorem bind_run {x : EStateM ε σ α} {f : α → EStateM ε σ β} {s s₁ : σ} {a : α}
    (h : x s = .ok a s₁) : (x >>= f) s = f a s₁ := by
  show EStateM.bind x f s = f a s₁
  unfold EStateM.bind
  rw [h]

/-- The run of a program whose first part stops. -/
theorem bind_error {x : EStateM ε σ α} {f : α → EStateM ε σ β} {s s₁ : σ} {e : ε}
    (h : x s = .error e s₁) : (x >>= f) s = .error e s₁ := by
  show EStateM.bind x f s = .error e s₁
  unfold EStateM.bind
  rw [h]

/-- A program that returns went through its parts one after the other. -/
theorem bind_ok {x : EStateM ε σ α} {f : α → EStateM ε σ β} {s s' : σ} {b : β} :
    (x >>= f) s = .ok b s' ↔ ∃ a s₁, x s = .ok a s₁ ∧ f a s₁ = .ok b s' := by
  show EStateM.bind x f s = .ok b s' ↔ _
  unfold EStateM.bind
  constructor
  · intro h
    cases hs : x s with
    | ok a s₁ =>
      rw [hs] at h
      exact ⟨a, s₁, rfl, h⟩
    | error e s₁ =>
      rw [hs] at h
      cases h
  · rintro ⟨a, s₁, hs, h⟩
    rw [hs]
    exact h

/-- What a run that returns says about the other one. -/
theorem Agree.ok {x : EStateM ε σ α} (h : Agree P x Q) {s t s' : σ} {a : α} (hst : P s t)
    (hs : x s = .ok a s') : ∃ t', x t = .ok a t' ∧ Q a s' t' := by
  have hrun := h s t hst
  cases ht : x t with
  | ok b t' =>
    rw [hs, ht] at hrun
    obtain ⟨rfl, hq⟩ := hrun
    exact ⟨t', rfl, hq⟩
  | error e t' => rw [hs, ht] at hrun; exact hrun.elim

/-! ## Lockstep

A relation that two runs of the program keep, also when they stop. -/

/-- Two runs from states related by `R` end alike, in states related by `R`. -/
def Lockstep (R : σ → σ → Prop) (x : EStateM ε σ α) : Prop :=
  ∀ s t, R s t → match x s, x t with
    | .ok a s', .ok b t' => a = b ∧ R s' t'
    | .error e s', .error e' t' => e = e' ∧ R s' t'
    | _, _ => False

namespace Lockstep

variable {R : σ → σ → Prop}

theorem pure {a : α} : Lockstep R (pure a : EStateM ε σ α) := fun _ _ h => ⟨rfl, h⟩

theorem throw {e : ε} : Lockstep R (throw e : EStateM ε σ α) := fun _ _ h => ⟨rfl, h⟩

/-- The rest of a program may rely on what its first part returns. -/
theorem bindOf {x : EStateM ε σ α} {f : α → EStateM ε σ β} {φ : α → Prop} (hx : Lockstep R x)
    (hφ : ∀ s t a s', R s t → x s = .ok a s' → φ a) (hf : ∀ a, φ a → Lockstep R (f a)) :
    Lockstep R (x >>= f) := by
  intro s t hst
  show match EStateM.bind x f s, EStateM.bind x f t with
    | .ok a s', .ok b t' => a = b ∧ R s' t'
    | .error e s', .error e' t' => e = e' ∧ R s' t'
    | _, _ => False
  have h := hx s t hst
  unfold EStateM.bind
  cases hs : x s with
  | ok a s' =>
    cases ht : x t with
    | ok b t' =>
      rw [hs, ht] at h
      obtain ⟨rfl, hr⟩ := h
      exact hf a (hφ s t a s' hst hs) s' t' hr
    | error e t' => rw [hs, ht] at h; exact h.elim
  | error e s' =>
    cases ht : x t with
    | ok b t' => rw [hs, ht] at h; exact h.elim
    | error e' t' =>
      rw [hs, ht] at h
      exact h

/-- The relation may be read the other way round. -/
theorem flip {x : EStateM ε σ α} (h : Lockstep R x) : Lockstep (fun s t => R t s) x := by
  intro s t hst
  have hrun := h t s hst
  cases hs : x s with
  | ok a s' =>
    cases ht : x t with
    | ok b t' => rw [hs, ht] at hrun; exact ⟨hrun.1.symm, hrun.2⟩
    | error e t' => rw [hs, ht] at hrun; exact hrun.elim
  | error e s' =>
    cases ht : x t with
    | ok b t' => rw [hs, ht] at hrun; exact hrun.elim
    | error e' t' => rw [hs, ht] at hrun; exact ⟨hrun.1.symm, hrun.2⟩

theorem bind {x : EStateM ε σ α} {f : α → EStateM ε σ β} (hx : Lockstep R x)
    (hf : ∀ a, Lockstep R (f a)) : Lockstep R (x >>= f) :=
  hx.bindOf (φ := fun _ => True) (fun _ _ _ _ _ _ => trivial) fun a _ => hf a

theorem ite {c : Prop} [Decidable c] {x y : EStateM ε σ α} (hx : Lockstep R x)
    (hy : Lockstep R y) : Lockstep R (if c then x else y) := by
  by_cases h : c
  · rw [if_pos h]; exact hx
  · rw [if_neg h]; exact hy

theorem ok {x : EStateM ε σ α} (h : Lockstep R x) {s t s' : σ} {a : α} (hst : R s t)
    (hs : x s = .ok a s') : ∃ t', x t = .ok a t' ∧ R s' t' := by
  have hrun := h s t hst
  cases ht : x t with
  | ok b t' =>
    rw [hs, ht] at hrun
    obtain ⟨rfl, hr⟩ := hrun
    exact ⟨t', rfl, hr⟩
  | error e t' => rw [hs, ht] at hrun; exact hrun.elim

theorem error {x : EStateM ε σ α} (h : Lockstep R x) {s t s' : σ} {e : ε} (hst : R s t)
    (hs : x s = .error e s') : ∃ t', x t = .error e t' ∧ R s' t' := by
  have hrun := h s t hst
  cases ht : x t with
  | ok b t' => rw [hs, ht] at hrun; exact hrun.elim
  | error e' t' =>
    rw [hs, ht] at hrun
    obtain ⟨rfl, hr⟩ := hrun
    exact ⟨t', rfl, hr⟩

end Lockstep

end Lib
