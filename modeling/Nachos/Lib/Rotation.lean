import Mathlib.Data.Int.ModEq
import Mathlib.Order.Bounds.Basic

/-!
# Rotating slots

`n` slots pass by in turn, each for `p` units of time, and slot 0 begins at time 0.
-/

namespace Lib
namespace Rotation

/-- Slot `j` begins at time `t`. -/
def Begins (p n j t : Int) : Prop := p ∣ t ∧ t / p ≡ j [ZMOD n]

variable {p n j t m d : Int}

theorem begins_mul (hp : 0 < p) : Begins p n j (p * m) ↔ m ≡ j [ZMOD n] := by
  unfold Begins
  rw [Int.mul_ediv_cancel_left m hp.ne']
  exact and_iff_right (dvd_mul_right p m)

/-- Within the revolution that begins with boundary `m`, the first after `t`, slot `j` begins
first at the boundary that is its own. -/
theorem isLeast_iff (hp : 0 < p) (hlast : p * (m - 1) < t) (hm : t ≤ p * m) (hd : 0 ≤ d)
    (hdn : d < n) :
    IsLeast {u | t ≤ u ∧ Begins p n j u} (p * (m + d)) ↔ m + d ≡ j [ZMOD n] := by
  constructor
  · intro h
    exact (begins_mul hp).mp h.1.2
  · intro h
    have hle : p * m ≤ p * (m + d) := Int.mul_le_mul_of_nonneg_left (by omega) hp.le
    refine ⟨⟨hm.trans hle, (begins_mul hp).mpr h⟩, ?_⟩
    rintro u ⟨htu, ⟨c, rfl⟩, hc⟩
    rw [Int.mul_ediv_cancel_left c hp.ne'] at hc
    -- another time at which the slot begins is no earlier than the boundary, so it is as far
    -- behind it, or whole revolutions further
    have hmc : m - 1 < c := Int.lt_of_mul_lt_mul_left (hlast.trans_le htu) hp.le
    have hmod : c - m ≡ d [ZMOD n] := by
      have hsub := (hc.trans h.symm).sub_right m
      rwa [add_sub_cancel_left] at hsub
    have hrest : (c - m) % n = d := by
      rw [hmod]
      exact Int.emod_eq_of_lt hd hdn
    have hturns : 0 ≤ n * ((c - m) / n) :=
      Int.mul_nonneg (by omega) (Int.ediv_nonneg (by omega) (by omega))
    have hsum : d + n * ((c - m) / n) = c - m := by
      rw [← hrest, Int.emod_add_mul_ediv]
    exact Int.mul_le_mul_of_nonneg_left (by omega) hp.le

/-- Slot `j` begins and ends between time `t` and boundary `b` just when the boundaries from
`a` on, the first after `t`, reach it. -/
theorem passes_iff (hp : 0 < p) (hn : 0 < n) {a b : Int} (hlast : p * (a - 1) < t)
    (ha : t ≤ p * a) :
    (∃ u, t ≤ u ∧ Begins p n j u ∧ u + p ≤ p * b) ↔ (j - a) % n < b - a := by
  have hlow := Int.emod_nonneg (j - a) hn.ne'
  have hcongr : a + (j - a) % n ≡ j [ZMOD n] := by
    have hmod := (Int.mod_modEq (j - a) n).add_left a
    rwa [add_sub_cancel] at hmod
  have hleast := (isLeast_iff hp hlast ha hlow (Int.emod_lt_of_pos (j - a) hn)).mpr hcongr
  have hsucc : ∀ k, p * k + p = p * (k + 1) := fun k => (mul_add_one p k).symm
  constructor
  · rintro ⟨u, hu, hbegins, hend⟩
    -- the first time at which the slot begins is no later than `u`
    have hfirst := hleast.2 ⟨hu, hbegins⟩
    have hle : p * (a + (j - a) % n + 1) ≤ p * b := by
      rw [← hsucc]
      omega
    have hbound := Int.le_of_mul_le_mul_left hle hp
    omega
  · intro h
    refine ⟨_, hleast.1.1, hleast.1.2, ?_⟩
    rw [hsucc]
    exact Int.mul_le_mul_of_nonneg_left (by omega) hp.le

/-- Times counted from `c` on. -/
theorem isLeast_shift {S T : Set Int} {c l : Int} (hS : ∀ l, l ∈ T ↔ c + l ∈ S) :
    IsLeast T l ↔ IsLeast S (c + l) := by
  constructor
  · rintro ⟨hmem, hlow⟩
    refine ⟨(hS l).mp hmem, fun u hu => ?_⟩
    have hback : c + (u - c) ∈ S := by
      rwa [add_sub_cancel]
    have hle := hlow ((hS (u - c)).mpr hback)
    omega
  · rintro ⟨hmem, hlow⟩
    refine ⟨(hS l).mpr hmem, fun l' hl' => ?_⟩
    have hle := hlow ((hS l').mp hl')
    omega

end Rotation
end Lib
