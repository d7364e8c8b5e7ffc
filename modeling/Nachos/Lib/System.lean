import Mathlib.Logic.Relation

/-!
# Transition systems

A system is a set of initial states and a step relation.  The reachable states
are those some run leads to, and an inductive predicate holds in all of them.
-/

namespace Lib

universe u v

structure System (σ : Type u) where
  init : σ → Prop
  step : σ → σ → Prop

namespace System

variable {σ : Type u} {S : System σ} {I J : σ → Prop} {s t : σ}

/-- Some run of the system leads to `s`. -/
def Reachable (S : System σ) (s : σ) : Prop :=
  ∃ s₀, S.init s₀ ∧ Relation.ReflTransGen S.step s₀ s

/-- A predicate that holds initially and is kept by each step taken from a
state where `J` holds too. -/
structure InductiveUnder (S : System σ) (J I : σ → Prop) : Prop where
  init : ∀ s, S.init s → I s
  step : ∀ s t, J s → I s → S.step s t → I t

theorem Reachable.of_init (h : S.init s) : S.Reachable s := ⟨s, h, .refl⟩

theorem Reachable.step (h : S.Reachable s) (hst : S.step s t) : S.Reachable t := by
  obtain ⟨s₀, h₀, hrun⟩ := h
  exact ⟨s₀, h₀, hrun.tail hst⟩

theorem Reachable.run (h : S.Reachable s) (hst : Relation.ReflTransGen S.step s t) :
    S.Reachable t := by
  obtain ⟨s₀, h₀, hrun⟩ := h
  exact ⟨s₀, h₀, hrun.trans hst⟩

/-- The induction over runs, in the form where an invariant already proved may
be used at every state. -/
theorem InductiveUnder.reachable (h : S.InductiveUnder J I)
    (hJ : ∀ s, S.Reachable s → J s) (hs : S.Reachable s) : I s := by
  obtain ⟨s₀, h₀, hrun⟩ := hs
  induction hrun with
  | refl => exact h.init s₀ h₀
  | tail hrun hst ih => exact h.step _ _ (hJ _ ⟨s₀, h₀, hrun⟩) ih hst

/-- The induction over runs. -/
theorem Reachable.induct (hs : S.Reachable s) (init : ∀ s, S.init s → I s)
    (step : ∀ s t, I s → S.step s t → I t) : I s :=
  InductiveUnder.reachable (J := fun _ => True)
    ⟨init, fun s t _ => step s t⟩ (fun _ _ => trivial) hs

/-- A system that another one simulates: what `f` shows of a step is a step of that
system, or nothing. -/
theorem Reachable.simulate {τ : Type v} {T : System τ} (f : σ → τ) (hs : S.Reachable s)
    (init : ∀ s, S.init s → T.init (f s))
    (step : ∀ s t, T.Reachable (f s) → S.step s t → f t = f s ∨ T.step (f s) (f t)) :
    T.Reachable (f s) := by
  refine hs.induct (I := fun s => T.Reachable (f s)) (fun s h => .of_init (init s h)) ?_
  intro s t h hst
  rcases step s t h hst with heq | hstep
  · rwa [heq]
  · exact h.step hstep

/-- A system whose steps another one matches: `R` relates each reachable state to one of
the other system that is reachable too. -/
theorem Reachable.matched {τ : Type v} {T : System τ} {R : σ → τ → Prop} (hs : S.Reachable s)
    (init : ∀ s, S.init s → ∃ t, T.init t ∧ R s t)
    (step : ∀ s s' t, R s t → S.step s s' → ∃ t', T.step t t' ∧ R s' t') :
    ∃ t, T.Reachable t ∧ R s t := by
  refine hs.induct (I := fun s => ∃ t, T.Reachable t ∧ R s t) (fun s h => ?_) ?_
  · obtain ⟨t, ht, hr⟩ := init s h
    exact ⟨t, .of_init ht, hr⟩
  · rintro s s' ⟨t, ht, hr⟩ hst
    obtain ⟨t', htt, hr'⟩ := step s s' t hr hst
    exact ⟨t', ht.step htt, hr'⟩

end System
end Lib
