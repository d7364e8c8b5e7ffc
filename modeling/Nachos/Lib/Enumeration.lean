import Mathlib.Data.List.Nodup
import Mathlib.Logic.Function.Basic

/-!
# Lists that enumerate a set

A list without repetitions whose members are exactly the points where a function
has a certain kind of value.  Updating the function at one point goes with
adding that point to the list, taking it out, or leaving the list alone.
-/

namespace Lib

variable {τ α : Type}

/-- The list holds the points with `P`, each once. -/
structure Enumerates (l : List τ) (P : τ → Prop) : Prop where
  nodup : l.Nodup
  mem : ∀ t, t ∈ l ↔ P t

namespace Enumerates

variable [DecidableEq τ] {l : List τ} {f : τ → α} {P : α → Prop} {t : τ} {v : α}

theorem keep (h : Enumerates l fun u => P (f u)) (hv : P v ↔ P (f t)) :
    Enumerates l fun u => P (Function.update f t v u) := by
  refine ⟨h.nodup, fun u => (h.mem u).trans ?_⟩
  by_cases hu : u = t
  · rw [hu, Function.update_self]
    exact hv.symm
  · rw [Function.update_of_ne hu]

theorem append (h : Enumerates l fun u => P (f u)) (ht : ¬ P (f t)) (hv : P v) :
    Enumerates (l ++ [t]) fun u => P (Function.update f t v u) := by
  have htl : t ∉ l := fun hmem => ht ((h.mem t).mp hmem)
  refine ⟨List.nodup_append.mpr ⟨h.nodup, List.nodup_singleton t, ?_⟩, fun u => ?_⟩
  · intro x hx y hy hxy
    rw [List.mem_singleton] at hy
    exact htl (hy ▸ hxy ▸ hx)
  · by_cases hu : u = t
    · rw [hu, Function.update_self]
      exact iff_of_true (List.mem_append_right l (List.mem_singleton_self t)) hv
    · rw [Function.update_of_ne hu, List.mem_append, List.mem_singleton, or_iff_left hu]
      exact h.mem u

theorem tail (h : Enumerates (t :: l) fun u => P (f u)) (hv : ¬ P v) :
    Enumerates l fun u => P (Function.update f t v u) := by
  obtain ⟨hnot, hnodup⟩ := List.nodup_cons.mp h.nodup
  refine ⟨hnodup, fun u => ?_⟩
  by_cases hu : u = t
  · rw [hu, Function.update_self]
    exact iff_of_false hnot hv
  · rw [Function.update_of_ne hu, ← h.mem u, List.mem_cons, or_iff_right hu]

theorem erase (h : Enumerates l fun u => P (f u)) (hv : ¬ P v) :
    Enumerates (l.erase t) fun u => P (Function.update f t v u) := by
  refine ⟨h.nodup.erase t, fun u => ?_⟩
  by_cases hu : u = t
  · rw [hu, Function.update_self]
    exact iff_of_false h.nodup.not_mem_erase hv
  · rw [Function.update_of_ne hu, List.mem_erase_of_ne hu]
    exact h.mem u

end Enumerates

/-! ## Counting -/

section Count

variable [DecidableEq τ] {l : List τ} {f : τ → α} {P : α → Prop} [DecidablePred P] {t : τ} {v : α}

/-- The number of members of `l` whose value has `P`. -/
def count (l : List τ) (f : τ → α) (P : α → Prop) [DecidablePred P] : Nat :=
  l.countP fun t => decide (P (f t))

omit [DecidableEq τ] in
theorem count_congr {g : τ → α} (h : ∀ u, u ∈ l → (P (g u) ↔ P (f u))) :
    count l g P = count l f P := by
  unfold count
  refine List.countP_congr fun u hu => ?_
  rw [decide_eq_true_iff, decide_eq_true_iff]
  exact h u hu

theorem count_keep (hv : P v ↔ P (f t)) : count l (Function.update f t v) P = count l f P := by
  refine count_congr fun u _ => ?_
  by_cases hu : u = t
  · rw [hu, Function.update_self]
    exact hv
  · rw [Function.update_of_ne hu]

/-- The point `t` counted apart. -/
theorem count_split (ht : t ∈ l) (f : τ → α) :
    count l f P = count (l.erase t) f P + if P (f t) then 1 else 0 := by
  unfold count
  rw [(List.perm_cons_erase ht).countP_eq, List.countP_cons]
  by_cases h : P (f t) <;> simp [h]

theorem count_erase_update (hl : l.Nodup) :
    count (l.erase t) (Function.update f t v) P = count (l.erase t) f P := by
  refine count_congr fun u hu => ?_
  have hut : u ≠ t := fun h => hl.not_mem_erase (h ▸ hu)
  rw [Function.update_of_ne hut]

theorem count_gain (hl : l.Nodup) (ht : t ∈ l) (hf : ¬ P (f t)) (hv : P v) :
    count l (Function.update f t v) P = count l f P + 1 := by
  rw [count_split ht, count_split ht f, count_erase_update hl, Function.update_self,
    if_pos hv, if_neg hf]

theorem count_loss (hl : l.Nodup) (ht : t ∈ l) (hf : P (f t)) (hv : ¬ P v) :
    count l (Function.update f t v) P + 1 = count l f P := by
  rw [count_split ht, count_split ht f, count_erase_update hl, Function.update_self,
    if_neg hv, if_pos hf]

theorem count_erase (hl : l.Nodup) (ht : t ∈ l) (hf : ¬ P (f t)) :
    count (l.erase t) (Function.update f t v) P = count l f P := by
  rw [count_erase_update hl, count_split ht f, if_neg hf]
  rfl

theorem count_append (hf : ¬ P (f t)) (hv : ¬ P v) :
    count (l ++ [t]) (Function.update f t v) P = count l f P := by
  have hkeep : count l (Function.update f t v) P = count l f P := count_keep (iff_of_false hv hf)
  unfold count at hkeep ⊢
  rw [List.countP_append, hkeep, List.countP_singleton, Function.update_self]
  simp [hv]

end Count

/-- What the values with `P` satisfy, the new value does too. -/
theorem update_implies [DecidableEq τ] {f : τ → α} {P : α → Prop} {Q : τ → Prop} {t : τ} {v : α}
    (h : ∀ u, P (f u) → Q u) (hv : P v → Q t) : ∀ u, P (Function.update f t v u) → Q u := by
  intro u hu
  by_cases hut : u = t
  · rw [hut, Function.update_self] at hu
    rw [hut]
    exact hv hu
  · rw [Function.update_of_ne hut] at hu
    exact h u hu

end Lib
