import Mathlib.Data.List.Nodup
import Mathlib.Data.List.Perm.Basic
import Mathlib.Logic.Function.Basic
import Nachos.Lib.System

/-!
# Calls that wait to be served

A call is made with an argument and waits until it is served.  Whoever writes a list of the
calls at the time they are made finds that each has been served once, in the order of the
desk, or still waits.
-/

namespace Lib

/-- The calls that wait, and the arguments of those that were served. -/
structure Desk (τ α : Type) where
  waiting : τ → Option α
  served : List α

namespace Desk

variable {τ α σ : Type} {d d' : Desk τ α} {calls made : List (τ × α)}

def empty : Desk τ α := ⟨fun _ => none, []⟩

/-- A step of the desk with the calls that are made in it. -/
inductive Step [DecidableEq τ] (d : Desk τ α) : List (τ × α) → Desk τ α → Prop
  | quiet : Step d [] d
  | call {t : τ} (x : α) (h : d.waiting t = none) :
      Step d [(t, x)] { d with waiting := Function.update d.waiting t (some x) }
  | serve {t : τ} {x : α} (h : d.waiting t = some x) :
      Step d [] ⟨Function.update d.waiting t none, d.served ++ [x]⟩

/-- The calls made are those that were served and those that wait. -/
def Accounts (calls : List (τ × α)) (d : Desk τ α) : Prop :=
  ∃ done left, calls.Perm (done ++ left) ∧ done.map Prod.snd = d.served ∧ left.Nodup ∧
    ∀ t x, (t, x) ∈ left ↔ d.waiting t = some x

theorem accounts_empty : Accounts [] (empty : Desk τ α) :=
  ⟨[], [], .refl _, rfl, List.nodup_nil, fun _ _ => iff_of_false List.not_mem_nil nofun⟩

variable [DecidableEq τ]

theorem Accounts.call (h : Accounts calls d) {t : τ} (x : α) (ht : d.waiting t = none) :
    Accounts (calls ++ [(t, x)]) { d with waiting := Function.update d.waiting t (some x) } := by
  obtain ⟨done, left, hperm, hserved, hnodup, hleft⟩ := h
  have hnot : ∀ y, (t, y) ∉ left := fun y hy => nomatch ht.symm.trans ((hleft t y).mp hy)
  refine ⟨done, left ++ [(t, x)], ?_, hserved, ?_, fun u y => ?_⟩
  · rw [← List.append_assoc]
    exact hperm.append_right _
  · refine List.nodup_append.mpr ⟨hnodup, List.nodup_singleton _, fun a ha b hb hab => ?_⟩
    rw [hab, List.mem_singleton.mp hb] at ha
    exact hnot x ha
  · show _ ↔ Function.update d.waiting t (some x) u = some y
    rw [List.mem_append, List.mem_singleton, hleft]
    by_cases hu : u = t
    · subst hu
      rw [Function.update_self, ht]
      simp [eq_comm]
    · rw [Function.update_of_ne hu]
      simp [hu]

theorem Accounts.serve (h : Accounts calls d) {t : τ} {x : α} (ht : d.waiting t = some x) :
    Accounts calls ⟨Function.update d.waiting t none, d.served ++ [x]⟩ := by
  obtain ⟨done, left, hperm, hserved, hnodup, hleft⟩ := h
  obtain ⟨before, after, rfl⟩ := List.append_of_mem ((hleft t x).mpr ht)
  have hmiddle : (before ++ (t, x) :: after).Perm ((t, x) :: (before ++ after)) :=
    List.perm_middle
  obtain ⟨hgone, hrest⟩ := List.nodup_cons.mp (hmiddle.nodup_iff.mp hnodup)
  refine ⟨done ++ [(t, x)], before ++ after, ?_, ?_, hrest, fun u y => ?_⟩
  · rw [List.append_assoc]
    exact hperm.trans (hmiddle.append_left done)
  · rw [List.map_append, hserved]
    rfl
  · have hmem : (u, y) ∈ before ++ (t, x) :: after ↔ (u, y) = (t, x) ∨ (u, y) ∈ before ++ after :=
      hmiddle.mem_iff.trans List.mem_cons
    show _ ↔ Function.update d.waiting t none u = some y
    by_cases hu : u = t
    · subst hu
      rw [Function.update_self]
      refine iff_of_false (fun hin => ?_) nofun
      have hx := (hleft u y).mp (hmem.mpr (.inr hin))
      rw [ht] at hx
      cases hx
      exact hgone hin
    · rw [Function.update_of_ne hu, ← hleft, hmem]
      exact ⟨.inr, fun h => h.resolve_left fun heq => hu (congrArg Prod.fst heq)⟩

theorem Accounts.step (h : Accounts calls d) (hstep : Step d made d') :
    Accounts (calls ++ made) d' := by
  cases hstep with
  | quiet =>
    rw [List.append_nil]
    exact h
  | call x ht => exact h.call x ht
  | serve ht =>
    rw [List.append_nil]
    exact h.serve ht

/-! ## A desk in a system -/

variable {S : System σ} {view : σ → Desk τ α} {s : σ}

/-- The system, with a list to which each call is added when it is made. -/
def recorded (S : System σ) (view : σ → Desk τ α) : System (σ × List (τ × α)) where
  init s := S.init s.1 ∧ s.2 = []
  step s s' := S.step s.1 s'.1 ∧ ∃ made, Step (view s.1) made (view s'.1) ∧ s'.2 = s.2 ++ made

/-- Each call on the list was served once, or waits. -/
theorem accounts_of_recorded (hinit : ∀ s, S.init s → view s = empty)
    (h : (recorded S view).Reachable (s, calls)) : Accounts calls (view s) := by
  refine h.induct (I := fun s => Accounts s.2 (view s.1)) ?_ ?_
  · rintro ⟨s, calls⟩ ⟨hs, rfl⟩
    rw [hinit s hs]
    exact accounts_empty
  · rintro ⟨s, calls⟩ ⟨s', calls'⟩ hs ⟨-, made, hstep, rfl⟩
    exact hs.step hstep

/-- Every run can be recorded. -/
theorem exists_recorded
    (hall : ∀ s s', S.step s s' → ∃ made, Step (view s) made (view s')) (h : S.Reachable s) :
    ∃ calls, (recorded S view).Reachable (s, calls) := by
  refine h.induct (I := fun s => ∃ calls, (recorded S view).Reachable (s, calls)) ?_ ?_
  · exact fun s hs => ⟨[], .of_init ⟨hs, rfl⟩⟩
  · rintro s s' ⟨calls, hs⟩ hstep
    obtain ⟨made, hmade⟩ := hall s s' hstep
    exact ⟨calls ++ made, hs.step ⟨hstep, made, hmade, rfl⟩⟩

end Desk
end Lib
