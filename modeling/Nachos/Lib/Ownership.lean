import Mathlib.Algebra.BigOperators.Fin
import Mathlib.Algebra.Order.BigOperators.Group.Finset
import Mathlib.Data.List.Nodup

/-!
# Ownership of the elements of a store

Owners hold lists of elements, and a mark says which elements are taken.
`Ownership` is the invariant of an allocator: no owner holds an element twice,
no two owners hold the same element, and the marked elements are exactly the
held ones, so that none is leaked.  Granting unmarked elements to an owner that
holds nothing and releasing all that an owner holds both keep it.
-/

namespace Lib

variable {κ α : Type*}

/-- Every marked element has exactly one owner, and holds one place there. -/
structure Ownership (block : κ → List α) (marked : α → Prop) : Prop where
  nodup : ∀ k, (block k).Nodup
  disjoint : ∀ j k, j ≠ k → ∀ a ∈ block j, a ∉ block k
  marked_iff : ∀ a, marked a ↔ ∃ k, a ∈ block k

namespace Ownership

variable {block block' : κ → List α} {marked marked' : α → Prop}

theorem marked_of_mem (h : Ownership block marked) {k : κ} {a : α} (ha : a ∈ block k) :
    marked a := (h.marked_iff a).mpr ⟨k, ha⟩

/-- An element has one owner. -/
theorem owner_eq (h : Ownership block marked) {j k : κ} {a : α}
    (hj : a ∈ block j) (hk : a ∈ block k) : j = k := by
  by_contra hne
  exact h.disjoint j k hne a hj hk

theorem congr (h : Ownership block marked) (hb : ∀ k, block' k = block k)
    (hm : ∀ a, marked' a ↔ marked a) : Ownership block' marked' := by
  obtain rfl : block' = block := funext hb
  exact ⟨h.nodup, h.disjoint, fun a => (hm a).trans (h.marked_iff a)⟩

/-- As many elements are marked as the owners hold together. -/
theorem card_marked [Fintype κ] [DecidableEq α] (h : Ownership block marked) {taken : Finset α}
    (htaken : ∀ a, a ∈ taken ↔ marked a) : taken.card = ∑ k, (block k).length := by
  have hunion : taken = Finset.univ.biUnion fun k => (block k).toFinset := by
    ext a
    rw [htaken, h.marked_iff, Finset.mem_biUnion]
    simp only [Finset.mem_univ, true_and, List.mem_toFinset]
  rw [hunion, Finset.card_biUnion]
  · exact Finset.sum_congr rfl fun k _ => List.toFinset_card_of_nodup (h.nodup k)
  · intro j _ k _ hjk
    refine Finset.disjoint_left.mpr fun a hj hk => ?_
    rw [List.mem_toFinset] at hj hk
    exact h.disjoint j k hjk a hj hk

variable [DecidableEq κ]

/-- Granting fresh elements to an owner that holds nothing. -/
theorem grant (h : Ownership block marked) {k : κ} {fresh : List α} (hk : block k = [])
    (hnodup : fresh.Nodup) (hfree : ∀ a ∈ fresh, ¬ marked a) :
    Ownership (Function.update block k fresh) (fun a => marked a ∨ a ∈ fresh) := by
  refine ⟨fun i => ?_, fun i j hij a hi hj => ?_, fun a => ?_⟩
  · by_cases hi : i = k
    · subst hi
      rwa [Function.update_self]
    · rw [Function.update_of_ne hi]
      exact h.nodup i
  · by_cases hik : i = k
    · subst hik
      rw [Function.update_self] at hi
      rw [Function.update_of_ne (Ne.symm hij)] at hj
      exact hfree a hi (h.marked_of_mem hj)
    · rw [Function.update_of_ne hik] at hi
      by_cases hjk : j = k
      · subst hjk
        rw [Function.update_self] at hj
        exact hfree a hj (h.marked_of_mem hi)
      · rw [Function.update_of_ne hjk] at hj
        exact h.disjoint i j hij a hi hj
  · rw [h.marked_iff a]
    constructor
    · rintro (⟨i, hi⟩ | ha)
      · refine ⟨i, ?_⟩
        rw [Function.update_of_ne]
        · exact hi
        · rintro rfl
          rw [hk] at hi
          exact absurd hi List.not_mem_nil
      · exact ⟨k, by rwa [Function.update_self]⟩
    · rintro ⟨i, hi⟩
      by_cases hik : i = k
      · subst hik
        rw [Function.update_self] at hi
        exact Or.inr hi
      · rw [Function.update_of_ne hik] at hi
        exact Or.inl ⟨i, hi⟩

/-- Releasing everything an owner holds. -/
theorem release (h : Ownership block marked) (k : κ) :
    Ownership (Function.update block k []) (fun a => marked a ∧ a ∉ block k) := by
  refine ⟨fun i => ?_, fun i j hij a hi hj => ?_, fun a => ?_⟩
  · by_cases hi : i = k
    · subst hi
      rw [Function.update_self]
      exact List.nodup_nil
    · rw [Function.update_of_ne hi]
      exact h.nodup i
  · by_cases hik : i = k
    · subst hik
      rw [Function.update_self] at hi
      exact List.not_mem_nil hi
    · by_cases hjk : j = k
      · subst hjk
        rw [Function.update_self] at hj
        exact List.not_mem_nil hj
      · rw [Function.update_of_ne hik] at hi
        rw [Function.update_of_ne hjk] at hj
        exact h.disjoint i j hij a hi hj
  · constructor
    · rintro ⟨ha, hk⟩
      obtain ⟨i, hi⟩ := (h.marked_iff a).mp ha
      have hik : i ≠ k := fun e => hk (e ▸ hi)
      exact ⟨i, by rwa [Function.update_of_ne hik]⟩
    · rintro ⟨i, hi⟩
      by_cases hik : i = k
      · subst hik
        rw [Function.update_self] at hi
        exact absurd hi List.not_mem_nil
      · rw [Function.update_of_ne hik] at hi
        exact ⟨h.marked_of_mem hi, h.disjoint i k hik a hi⟩

end Ownership
end Lib
