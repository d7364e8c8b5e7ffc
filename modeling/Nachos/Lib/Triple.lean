/-!
# Programs with errors and their assertions

`Triple P x Q E` says what a program (`EStateM`) does from the states with `P`:
if it returns, the value and the state are in `Q`, and if it stops with an error,
the error and the state are in `E`.  The rules follow the structure of the
program.
-/

namespace Lib

universe u

variable {ε σ α β : Type u}

def Triple (P : σ → Prop) (x : EStateM ε σ α) (Q : α → σ → Prop) (E : ε → σ → Prop) : Prop :=
  ∀ s, P s → match x s with
    | .ok a s' => Q a s'
    | .error e s' => E e s'

namespace Triple

variable {P P' : σ → Prop} {Q Q' : α → σ → Prop} {R : β → σ → Prop} {E E' : ε → σ → Prop}

theorem pure {a : α} (h : ∀ s, P s → Q a s) : Triple P (pure a : EStateM ε σ α) Q E :=
  fun s hs => h s hs

theorem throw {e : ε} (h : ∀ s, P s → E e s) : Triple P (throw e : EStateM ε σ α) Q E :=
  fun s hs => h s hs

theorem bind {x : EStateM ε σ α} {f : α → EStateM ε σ β} (hx : Triple P x Q E)
    (hf : ∀ a, Triple (Q a) (f a) R E) : Triple P (x >>= f) R E := by
  intro s hs
  show match EStateM.bind x f s with
    | .ok b s' => R b s'
    | .error e s' => E e s'
  have h := hx s hs
  unfold EStateM.bind
  cases hxs : x s with
  | ok a s' =>
    rw [hxs] at h
    exact hf a s' h
  | error e s' =>
    rw [hxs] at h
    exact h

theorem ite {c : Prop} [Decidable c] {x y : EStateM ε σ α} (hx : c → Triple P x Q E)
    (hy : ¬ c → Triple P y Q E) : Triple P (if c then x else y) Q E := by
  by_cases h : c
  · rw [if_pos h]
    exact hx h
  · rw [if_neg h]
    exact hy h

theorem get {G : σ → σ → Prop} (h : ∀ s, P s → G s s) :
    Triple P (MonadStateOf.get : EStateM ε σ σ) G E :=
  fun s hs => h s hs

theorem set {s₁ : σ} {G : PUnit → σ → Prop} (h : ∀ s, P s → G ⟨⟩ s₁) :
    Triple P (MonadStateOf.set s₁ : EStateM ε σ PUnit) G E :=
  fun s hs => h s hs

/-- A program whose run is known. -/
theorem returns {x : EStateM ε σ α} (h : ∀ s, P s → ∃ a s', x s = .ok a s' ∧ Q a s') :
    Triple P x Q E := by
  intro s hs
  obtain ⟨a, s', hrun, hq⟩ := h s hs
  rw [hrun]
  exact hq

theorem pre {x : EStateM ε σ α} (hx : Triple P x Q E) (h : ∀ s, P' s → P s) :
    Triple P' x Q E :=
  fun s hs => hx s (h s hs)

/-- The states of the precondition one by one. -/
theorem each {x : EStateM ε σ α} (h : ∀ s₀, P s₀ → Triple (· = s₀) x Q E) : Triple P x Q E :=
  fun s hs => h s hs s rfl

/-- What the precondition says apart from the state may be assumed. -/
theorem given {x : EStateM ε σ α} {φ : Prop} (h : ∀ s, P s → φ) (hx : φ → Triple P x Q E) :
    Triple P x Q E :=
  fun s hs => hx (h s hs) s hs

theorem post {x : EStateM ε σ α} (hx : Triple P x Q E) (h : ∀ a s, Q a s → Q' a s) :
    Triple P x Q' E := by
  intro s hs
  have hrun := hx s hs
  cases hxs : x s with
  | ok a s' =>
    rw [hxs] at hrun
    exact h a s' hrun
  | error e s' =>
    rw [hxs] at hrun
    exact hrun

theorem errors {x : EStateM ε σ α} (hx : Triple P x Q E) (h : ∀ e s, E e s → E' e s) :
    Triple P x Q E' := by
  intro s hs
  have hrun := hx s hs
  cases hxs : x s with
  | ok a s' =>
    rw [hxs] at hrun
    exact hrun
  | error e s' =>
    rw [hxs] at hrun
    exact h e s' hrun

/-- The run itself may be used afterwards. -/
theorem run {x : EStateM ε σ α} {s₀ : σ} (hx : Triple (· = s₀) x Q E) :
    Triple (· = s₀) x (fun a s => Q a s ∧ x s₀ = .ok a s)
      (fun e s => E e s ∧ x s₀ = .error e s) := by
  rintro s rfl
  have hrun := hx s rfl
  cases hxs : x s with
  | ok a s' =>
    rw [hxs] at hrun
    exact ⟨hrun, rfl⟩
  | error e s' =>
    rw [hxs] at hrun
    exact ⟨hrun, rfl⟩

/-- A loop over a list.  What holds after the elements so far is the invariant. -/
theorem mapM {f : α → EStateM ε σ β} {I : List α → σ → Prop} {l : List α}
    (h : ∀ before a after, l = before ++ a :: after →
      Triple (I before) (f a) (fun _ => I (before ++ [a])) E) :
    Triple (I []) (l.mapM f) (fun _ => I l) E := by
  have hrest : ∀ after before, l = before ++ after →
      Triple (I before) (after.mapM f) (fun _ => I l) E := by
    intro after
    induction after with
    | nil =>
      intro before hl
      rw [List.mapM_nil, hl, List.append_nil]
      exact .pure fun s hs => hs
    | cons a after ih =>
      intro before hl
      have hnext : l = before ++ [a] ++ after := by
        rw [List.append_assoc]
        exact hl
      rw [List.mapM_cons]
      apply (h before a after hl).bind
      intro b
      apply (ih (before ++ [a]) hnext).bind
      intro bs
      exact .pure fun s hs => hs
  exact hrest l [] rfl

/-- The run of a program that returns. -/
theorem ok {x : EStateM ε σ α} (hx : Triple P x Q E) {s s' : σ} {a : α} (hs : P s)
    (h : x s = .ok a s') : Q a s' := by
  have hrun := hx s hs
  rw [h] at hrun
  exact hrun

/-- The run of a program that stops. -/
theorem error {x : EStateM ε σ α} (hx : Triple P x Q E) {s s' : σ} {e : ε} (hs : P s)
    (h : x s = .error e s') : E e s' := by
  have hrun := hx s hs
  rw [h] at hrun
  exact hrun

end Triple
end Lib
