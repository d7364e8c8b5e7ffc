import Mathlib.Data.BitVec
import Mathlib.Data.Nat.ModEq
import Mathlib.Tactic.Ring

/-!
# Double words

A double word in two words of `w` bits each: the sum with a carry by hand, the
double, and the negative, are those of bit vectors of `w + w` bits.
-/

namespace Lib
namespace DoubleWord

variable {w : Nat}

theorem toNat_append (hi lo : BitVec w) : (hi ++ lo).toNat = hi.toNat * 2 ^ w + lo.toNat := by
  rw [BitVec.toNat_append, Nat.shiftLeft_eq, Nat.mul_comm,
    Nat.two_pow_add_eq_or_of_lt lo.isLt hi.toNat]

theorem toNat_add_modEq (x y : BitVec w) : (x + y).toNat ≡ x.toNat + y.toNat [MOD 2 ^ w] := by
  rw [BitVec.toNat_add]
  exact Nat.mod_modEq _ _

/-- What is lost above the high word is lost above the double word. -/
theorem high_modEq {m n : Nat} (h : m ≡ n [MOD 2 ^ w]) :
    m * 2 ^ w ≡ n * 2 ^ w [MOD 2 ^ (w + w)] := by
  rw [Nat.pow_add]
  exact h.mul_right' (2 ^ w)

theorem eq_of_modEq {x y : BitVec w} (h : x.toNat ≡ y.toNat [MOD 2 ^ w]) : x = y := by
  apply BitVec.eq_of_toNat_eq
  unfold Nat.ModEq at h
  rwa [Nat.mod_eq_of_lt x.isLt, Nat.mod_eq_of_lt y.isLt] at h

/-- A sum that is less than a term has lost `2 ^ w`. -/
theorem carry (x y : BitVec w) :
    (x + y).toNat + (if x + y < y then 1 else 0) * 2 ^ w = x.toNat + y.toNat := by
  have hx := x.isLt
  have hy := y.isLt
  have hsum := BitVec.toNat_add x y
  by_cases hfit : x.toNat + y.toNat < 2 ^ w
  · rw [Nat.mod_eq_of_lt hfit] at hsum
    have hnot : ¬ x + y < y := by
      rw [BitVec.lt_def]
      omega
    rw [if_neg hnot]
    omega
  · rw [Nat.mod_eq_sub_mod (by omega), Nat.mod_eq_of_lt (by omega)] at hsum
    have hless : x + y < y := by
      rw [BitVec.lt_def]
      omega
    rw [if_pos hless]
    omega

/-- The sum, with the carry out of the low words. -/
theorem append_add (hi lo hi' lo' : BitVec w) :
    ((if lo + lo' < lo' then hi + 1 else hi) + hi') ++ (lo + lo') =
      (hi ++ lo) + (hi' ++ lo') := by
  have hcarry := carry lo lo'
  have hcarried : (if lo + lo' < lo' then hi + 1 else hi).toNat ≡
      hi.toNat + (if lo + lo' < lo' then 1 else 0) [MOD 2 ^ w] := by
    split
    · refine (toNat_add_modEq hi 1).trans ((Nat.ModEq.refl hi.toNat).add ?_)
      show 1 % 2 ^ w ≡ 1 [MOD 2 ^ w]
      exact Nat.mod_modEq _ _
    · exact Nat.ModEq.refl _
  generalize (if lo + lo' < lo' then 1 else 0) = c at hcarry hcarried
  have hhigh := high_modEq ((toNat_add_modEq _ hi').trans (hcarried.add_right hi'.toNat))
  have hsum : (hi.toNat + c + hi'.toNat) * 2 ^ w + (lo + lo').toNat =
      (hi ++ lo).toNat + (hi' ++ lo').toNat := by
    rw [toNat_append, toNat_append]
    rw [Nat.add_mul, Nat.add_mul]
    omega
  apply eq_of_modEq
  rw [toNat_append]
  refine (hhigh.add_right _).trans ?_
  rw [hsum]
  exact (toNat_add_modEq _ _).symm

/-- A shift to the left, with the top bit of the low word carried into the high one. -/
theorem append_shiftLeft (hw : 0 < w) (hi lo : BitVec w) :
    (hi <<< 1 ||| (if lo.msb then 1 else 0 : BitVec w)) ++ (lo <<< 1) = (hi ++ lo) <<< 1 := by
  apply BitVec.eq_of_getLsbD_eq
  intro i hi
  have hbit : ∀ j, (if lo.msb then 1 else 0 : BitVec w).getLsbD j =
      (decide (j = 0) && lo.getLsbD (w - 1)) := by
    intro j
    rw [← BitVec.msb_eq_getLsbD_last]
    cases lo.msb with
    | true =>
      show (1#w).getLsbD j = _
      simp [BitVec.getLsbD_one, hw]
    | false => simp
  rw [BitVec.getLsbD_append, BitVec.getLsbD_shiftLeft, BitVec.getLsbD_shiftLeft,
    BitVec.getLsbD_append, BitVec.getLsbD_or, BitVec.getLsbD_shiftLeft, hbit]
  by_cases hlow : i < w
  · have hlow' : i - 1 < w := by omega
    simp [hlow, hlow', hi]
  · by_cases htop : i = w
    · subst htop
      have hlast : i - 1 < i := by omega
      have hne : ¬ i = 0 := by omega
      simp [hlast, hne, hw]
    · have hhigh : ¬ i - 1 < w := by omega
      have hsub : i - w - 1 = i - 1 - w := by omega
      have hne : ¬ i - w = 0 := by omega
      have hpos : ¬ i < 1 := by omega
      have hin : i - w < w := by omega
      simp [hlow, hhigh, hsub, hne, hi, hin, hpos]

theorem shiftLeft_one (x : BitVec w) : x <<< 1 = x + x := by
  apply BitVec.eq_of_toNat_eq
  rw [BitVec.toNat_shiftLeft, BitVec.toNat_add, Nat.shiftLeft_eq, Nat.pow_one, Nat.mul_two]

/-- The negative by the complement of both words. -/
theorem append_neg (hw : 0 < w) (hi lo : BitVec w) :
    (if ~~~lo + 1 = 0 then ~~~hi + 1 else ~~~hi) ++ (~~~lo + 1) = -(hi ++ lo) := by
  have hone : ∀ {n : Nat}, 0 < n → (1#n).toNat = 1 := by
    intro n hn
    exact Nat.mod_eq_of_lt (Nat.one_lt_two_pow (by omega))
  have hunit : (0#w) ++ (1#w) = 1#(w + w) := by
    apply BitVec.eq_of_toNat_eq
    rw [toNat_append, hone hw, hone (by omega), BitVec.toNat_zero, Nat.zero_mul, Nat.zero_add]
  have hzero : ~~~lo + 1 < 1 ↔ ~~~lo + 1 = 0 := by
    rw [BitVec.lt_def, show (1 : BitVec w).toNat = 1 from hone hw, Nat.lt_one_iff]
    exact ⟨fun h => BitVec.eq_of_toNat_eq h, fun h => congrArg BitVec.toNat h⟩
  calc (if ~~~lo + 1 = 0 then ~~~hi + 1 else ~~~hi) ++ (~~~lo + 1)
      = ((if ~~~lo + 1 < 1 then ~~~hi + 1 else ~~~hi) + 0#w) ++ (~~~lo + 1#w) := by
        simp only [hzero, BitVec.add_zero]
        rfl
    _ = (~~~hi ++ ~~~lo) + (0#w ++ 1#w) := append_add (~~~hi) (~~~lo) 0#w 1#w
    _ = -(hi ++ lo) := by
        rw [hunit, ← BitVec.not_append, ← BitVec.neg_eq_not_add]

end DoubleWord
end Lib
