import Mathlib.Data.Set.Insert
import Mathlib.Logic.Function.Basic

/-!
# Monitors

A lock with a condition variable, as its users may rely on it.  The semantics is
Mesa's: a signal only makes a sleeping thread ready, which then has to get the lock
again, and others may get it before.
-/

namespace Lib

universe u v

variable {τ : Type u} {σ : Type v}

namespace Monitor

/-- What happens to a monitor.  `acquire` is the call of `Acquire`; `enter` is its
return, or that of `Wait`. -/
inductive Action (τ : Type u)
  | acquire (t : τ)
  | enter (t : τ)
  | release (t : τ)
  | wait (t : τ)
  | signal (t : τ)
  /-- nothing that a user could notice -/
  | internal

/-- The threads at a monitor. -/
structure View (τ : Type u) where
  holder : Option τ
  /-- in `Acquire`, or woken in `Wait` -/
  entering : Set τ
  sleeping : Set τ

namespace View

def start : View τ := ⟨none, ∅, ∅⟩

/-- The semantics of the operations. -/
inductive Step : Action τ → View τ → View τ → Prop
  | acquire {v : View τ} {t : τ} :
      Step (.acquire t) v { v with entering := insert t v.entering }
  | enter {v : View τ} {t : τ} (hfree : v.holder = none) (ht : t ∈ v.entering) :
      Step (.enter t) v { v with holder := some t, entering := v.entering \ {t} }
  | release {v : View τ} {t : τ} : Step (.release t) v { v with holder := none }
  | wait {v : View τ} {t : τ} :
      Step (.wait t) v { v with holder := none, sleeping := insert t v.sleeping }
  | signalNone {v : View τ} {t : τ} (hnone : v.sleeping = ∅) : Step (.signal t) v v
  | signalOne {v : View τ} {t w : τ} (hw : w ∈ v.sleeping) : Step (.signal t) v
      { v with entering := insert w v.entering, sleeping := v.sleeping \ {w} }
  | internal {v : View τ} : Step .internal v v

theorem Step.enter_mem {v v' : View τ} {t : τ} (h : Step (.enter t) v v') : t ∈ v.entering := by
  cases h with
  | enter _ ht => exact ht

theorem Step.internal_eq {v v' : View τ} (h : Step .internal v v') : v' = v := by
  cases h with
  | internal => rfl

/-- What a user has to see to before an operation. -/
def Allowed (v : View τ) : Action τ → Prop
  | .acquire t => v.holder ≠ some t ∧ t ∉ v.entering ∧ t ∉ v.sleeping
  | .release t | .wait t | .signal t => v.holder = some t
  | .enter _ | .internal => True

end View

/-- The operations that are over at once. -/
def Action.Immediate : Action τ → Prop
  | .enter _ | .internal => False
  | _ => True

end Monitor

open Monitor

/-- A lock and a condition variable that keep to the semantics.  A thread in `Acquire` or
in `Wait` has to go on only when the lock is free, and then one of them can. -/
structure Monitor (τ : Type u) (σ : Type v) where
  start : σ
  step : Action τ → σ → σ → Prop
  view : σ → View τ
  view_start : view start = View.start
  view_step : ∀ a m m', (view m).Allowed a → step a m m' → View.Step a (view m) (view m')
  immediate : ∀ a m, a.Immediate → (view m).Allowed a → ∃ m', step a m m'
  free : ∀ m, (view m).holder = none → (view m).entering.Nonempty →
    ∃ t m', step (.enter t) m m'

namespace Monitor

/-- The semantics itself. -/
def mesa (τ : Type u) : Monitor τ (View τ) where
  start := View.start
  step := View.Step
  view := id
  view_start := rfl
  view_step := fun _ _ _ _ h => h
  immediate := by
    intro a v ha _
    cases a with
    | acquire t => exact ⟨_, .acquire⟩
    | enter t => exact ha.elim
    | release t => exact ⟨_, .release⟩
    | wait t => exact ⟨_, .wait⟩
    | signal t =>
      rcases v.sleeping.eq_empty_or_nonempty with hnone | ⟨w, hw⟩
      · exact ⟨_, .signalNone hnone⟩
      · exact ⟨_, .signalOne hw⟩
    | internal => exact ha.elim
  free := fun _ hfree ⟨t, ht⟩ => ⟨t, _, .enter hfree ht⟩

/-! ## The users -/

/-- Where a user is. -/
inductive Mode
  | outside
  | entering
  | inside
  | waiting
  deriving DecidableEq

/-- The view agrees with where a user is. -/
def Placed (v : View τ) (t : τ) : Mode → Prop
  | .outside => v.holder ≠ some t ∧ t ∉ v.entering ∧ t ∉ v.sleeping
  | .entering => v.holder ≠ some t ∧ t ∈ v.entering ∧ t ∉ v.sleeping
  | .inside => v.holder = some t ∧ t ∉ v.entering ∧ t ∉ v.sleeping
  | .waiting => v.holder ≠ some t ∧
      (t ∈ v.entering ∧ t ∉ v.sleeping ∨ t ∉ v.entering ∧ t ∈ v.sleeping)

/-- The same for all users.  One of them at most is inside. -/
def Tracks (v : View τ) (mode : τ → Mode) : Prop := ∀ t, Placed v t (mode t)

namespace Action

/-- Where a user has to be for an operation. -/
def Before (mode : τ → Mode) : Action τ → Prop
  | .acquire t => mode t = .outside
  | .release t | .wait t | .signal t => mode t = .inside
  | .enter _ | .internal => True

/-- Where the users are after an operation. -/
def after [DecidableEq τ] (mode : τ → Mode) : Action τ → τ → Mode
  | .acquire t => Function.update mode t .entering
  | .enter t => Function.update mode t .inside
  | .release t => Function.update mode t .outside
  | .wait t => Function.update mode t .waiting
  | .signal _ | .internal => mode

end Action

section Users

variable {v v' : View τ} {mode : τ → Mode} {a : Action τ} {t u : τ} {d : Mode}

theorem Placed.congr (h : Placed v t d) (hholder : v'.holder = some t ↔ v.holder = some t)
    (hentering : t ∈ v'.entering ↔ t ∈ v.entering)
    (hsleeping : t ∈ v'.sleeping ↔ t ∈ v.sleeping) : Placed v' t d := by
  cases d <;> simpa only [Placed, ne_eq, hholder, hentering, hsleeping] using h

theorem Placed.inside (h : Placed v t d) (ht : v.holder = some t) : d = .inside := by
  cases d with
  | inside => rfl
  | outside | entering | waiting => exact absurd ht h.1

theorem Placed.waiting (h : Placed v t d) (ht : t ∈ v.sleeping) :
    d = .waiting ∧ t ∉ v.entering := by
  cases d with
  | waiting => exact ⟨rfl, h.2.elim (fun hs => absurd ht hs.2) And.left⟩
  | outside | entering | inside => exact absurd ht h.2.2

theorem Placed.awake (h : Placed v t d) (ht : t ∈ v.entering) :
    v.holder ≠ some t ∧ t ∉ v.sleeping := by
  cases d with
  | entering => exact ⟨h.1, h.2.2⟩
  | waiting => exact ⟨h.1, h.2.elim And.right fun hs => absurd ht hs.1⟩
  | outside | inside => exact absurd ht h.2.1

theorem tracks_start : Tracks (View.start : View τ) fun _ => .outside :=
  fun _ => ⟨nofun, id, id⟩

namespace Tracks

/-- Mutual exclusion. -/
theorem inside_unique (h : Tracks v mode) (ht : mode t = .inside) (hu : mode u = .inside) :
    t = u := by
  have hholder := h t
  have hholder' := h u
  rw [ht] at hholder
  rw [hu] at hholder'
  exact Option.some.inj (hholder.1.symm.trans hholder'.1)

theorem allowed (h : Tracks v mode) (hb : a.Before mode) : v.Allowed a := by
  cases a with
  | acquire t =>
    have ht := h t
    rw [show mode t = .outside from hb] at ht
    exact ht
  | release t | wait t | signal t =>
    have ht := h t
    rw [show mode t = .inside from hb] at ht
    exact ht.1
  | enter t | internal => trivial

variable [DecidableEq τ]

theorem update (hothers : ∀ u, u ≠ t → Placed v' u (mode u)) (ht : Placed v' t d) :
    Tracks v' (Function.update mode t d) := by
  intro u
  by_cases hut : u = t
  · rw [hut, Function.update_self]
    exact ht
  · rw [Function.update_of_ne hut]
    exact hothers u hut

/-- Every operation, done where it may be done, moves the users as it should. -/
theorem step (h : Tracks v mode) (hb : a.Before mode) (hs : View.Step a v v') :
    Tracks v' (a.after mode) := by
  cases hs with
  | @acquire _ t =>
    have ht := h t
    rw [show mode t = .outside from hb] at ht
    refine update (fun u hut => (h u).congr Iff.rfl ?_ Iff.rfl) ⟨ht.1, Set.mem_insert t _, ht.2.2⟩
    exact ⟨fun hu => hu.resolve_left hut, Set.mem_insert_of_mem t⟩
  | @enter _ t hfree ht =>
    refine update (fun u hut => (h u).congr ?_ ?_ Iff.rfl)
      ⟨rfl, fun hm => hm.2 rfl, ((h t).awake ht).2⟩
    · rw [hfree]
      exact ⟨fun hu => absurd (Option.some.inj hu).symm hut, nofun⟩
    · exact ⟨And.left, fun hu => ⟨hu, hut⟩⟩
  | @release _ t =>
    have ht := h t
    rw [show mode t = .inside from hb] at ht
    refine update (fun u hut => (h u).congr ?_ Iff.rfl Iff.rfl) ⟨nofun, ht.2⟩
    rw [ht.1]
    exact ⟨nofun, fun hu => absurd (Option.some.inj hu).symm hut⟩
  | @wait _ t =>
    have ht := h t
    rw [show mode t = .inside from hb] at ht
    refine update (fun u hut => (h u).congr ?_ Iff.rfl ?_)
      ⟨nofun, .inr ⟨ht.2.1, Set.mem_insert t _⟩⟩
    · rw [ht.1]
      exact ⟨nofun, fun hu => absurd (Option.some.inj hu).symm hut⟩
    · exact ⟨fun hu => hu.resolve_left hut, Set.mem_insert_of_mem t⟩
  | signalNone => exact h
  | @signalOne _ _ w hw =>
    intro u
    by_cases huw : u = w
    · subst huw
      have hu := h u
      show Placed _ u (mode u)
      rw [((h u).waiting hw).1] at hu ⊢
      exact ⟨hu.1, .inl ⟨Set.mem_insert u _, fun hm => hm.2 rfl⟩⟩
    · refine (h u).congr Iff.rfl ?_ ?_
      · exact ⟨fun hu => hu.resolve_left huw, Set.mem_insert_of_mem w⟩
      · exact ⟨And.left, fun hu => ⟨hu, huw⟩⟩
  | internal => exact h

end Tracks
end Users

/-! ## Users of a monitor -/

section Client

variable {M : Monitor τ σ} {m m' : σ} {mode : τ → Mode} {a : Action τ}

theorem tracks_step [DecidableEq τ] (h : Tracks (M.view m) mode) (hb : a.Before mode)
    (hs : M.step a m m') :
    View.Step a (M.view m) (M.view m') ∧ Tracks (M.view m') (a.after mode) := by
  have hview := M.view_step a m m' (h.allowed hb) hs
  exact ⟨hview, h.step hb hview⟩

/-- Unless somebody is inside, some thread that is not asleep can get in. -/
theorem inside_or_enters (h : Tracks (M.view m) mode) (hne : (M.view m).entering.Nonempty) :
    (∃ t, mode t = .inside) ∨ ∃ t m', t ∈ (M.view m).entering ∧ M.step (.enter t) m m' := by
  cases hholder : (M.view m).holder with
  | some t => exact .inl ⟨t, (h t).inside hholder⟩
  | none =>
    obtain ⟨t, m', hs⟩ := M.free m hholder hne
    have hallowed : (M.view m).Allowed (.enter t) := trivial
    exact .inr ⟨t, m', (M.view_step _ m m' hallowed hs).enter_mem, hs⟩

end Client

end Monitor
end Lib
