import Mathlib.Algebra.BigOperators.Group.List.Basic
import Mathlib.Algebra.Ring.Int.Defs
import Mathlib.Data.Finset.Card

/-!
# Disjoint intervals

An interval is its start and its length.  Intervals that do not overlap, all
between two bounds, are together no longer than the bounds are apart.
-/

namespace Lib
namespace Intervals

abbrev Interval := Int × Int

def Apart (s t : Interval) : Prop := s.1 + s.2 ≤ t.1 ∨ t.1 + t.2 ≤ s.1

def Within (lo hi : Int) (s : Interval) : Prop := lo ≤ s.1 ∧ s.1 + s.2 ≤ hi ∧ 0 ≤ s.2

/-- The points of an interval. -/
def span (s : Interval) : Finset Int :=
  (Finset.range s.2.toNat).map
    ⟨fun i : Nat => s.1 + i, fun _ _ h => Int.ofNat.inj (Int.add_left_cancel h)⟩

theorem mem_span {s : Interval} {a : Int} : a ∈ span s ↔ s.1 ≤ a ∧ a < s.1 + s.2 := by
  rw [span, Finset.mem_map]
  constructor
  · rintro ⟨i, hi, rfl⟩
    have hlt := Finset.mem_range.mp hi
    show s.1 ≤ s.1 + (i : Int) ∧ s.1 + (i : Int) < s.1 + s.2
    omega
  · rintro ⟨hlo, hhi⟩
    refine ⟨(a - s.1).toNat, Finset.mem_range.mpr (by omega), ?_⟩
    show s.1 + ((a - s.1).toNat : Int) = a
    omega

theorem card_span (s : Interval) : (span s).card = s.2.toNat := by
  rw [span, Finset.card_map, Finset.card_range]

/-- The points of some intervals. -/
def points (l : List Interval) : Finset Int := l.foldr (fun s u => span s ∪ u) ∅

variable {l : List Interval} {lo hi : Int}

theorem mem_points {a : Int} : a ∈ points l ↔ ∃ s ∈ l, a ∈ span s := by
  induction l with
  | nil => simp [points]
  | cons s l ih =>
    show a ∈ span s ∪ points l ↔ _
    rw [Finset.mem_union, ih]
    simp

theorem card_points (hapart : l.Pairwise Apart) (hpos : ∀ s ∈ l, 0 ≤ s.2) :
    ((points l).card : Int) = (l.map Prod.snd).sum := by
  induction l with
  | nil => rfl
  | cons s l ih =>
    obtain ⟨hs, hl⟩ := List.pairwise_cons.mp hapart
    have hdisjoint : Disjoint (span s) (points l) := by
      refine Finset.disjoint_left.mpr fun a ha hmem => ?_
      obtain ⟨t, ht, hat⟩ := mem_points.mp hmem
      have hin := mem_span.mp ha
      have hin' := mem_span.mp hat
      rcases hs t ht with hle | hle <;> omega
    have hlength := hpos s List.mem_cons_self
    show ((span s ∪ points l).card : Int) = _
    rw [Finset.card_union_of_disjoint hdisjoint, Int.natCast_add,
      ih hl fun t ht => hpos t (List.mem_cons_of_mem _ ht), card_span, List.map_cons,
      List.sum_cons]
    omega

theorem sum_le (hapart : l.Pairwise Apart) (hwithin : ∀ s ∈ l, Within lo hi s) (h : lo ≤ hi) :
    (l.map Prod.snd).sum ≤ hi - lo := by
  have hsubset : points l ⊆ span (lo, hi - lo) := by
    intro a ha
    obtain ⟨s, hs, hmem⟩ := mem_points.mp ha
    have hin := mem_span.mp hmem
    obtain ⟨hlo, hhi, _⟩ := hwithin s hs
    exact mem_span.mpr ⟨by omega, by omega⟩
  have hcard := Finset.card_le_card hsubset
  rw [card_span] at hcard
  rw [← card_points hapart fun s hs => (hwithin s hs).2.2]
  omega

end Intervals
end Lib
