import Mathlib.Algebra.Group.Nat.Defs

/-!
# The bytes of a word

`byte w k` is byte `k` of a bit vector, the least significant first.  Masks act on
each byte, and shifts by whole bytes move them.
-/

namespace Lib
namespace WordBytes

variable {w : Nat}

def byte (x : BitVec w) (k : Nat) : BitVec 8 := x.extractLsb' (8 * k) 8

/-- The word of four bytes. -/
def ofBytes (b : Nat → BitVec 8) : BitVec 32 := b 3 ++ b 2 ++ b 1 ++ b 0

theorem getLsbD_byte (x : BitVec w) (k i : Nat) :
    (byte x k).getLsbD i = (decide (i < 8) && x.getLsbD (8 * k + i)) :=
  BitVec.getLsbD_extractLsb' (8 * k) 8 x i

theorem byte_or (x y : BitVec w) (k : Nat) : byte (x ||| y) k = byte x k ||| byte y k :=
  BitVec.extractLsb'_or

theorem byte_and (x y : BitVec w) (k : Nat) : byte (x &&& y) k = byte x k &&& byte y k :=
  BitVec.extractLsb'_and

/-- A shift to the left brings zeros into the low bytes. -/
theorem byte_shiftLeft (x : BitVec w) (j : Nat) {k : Nat} (hk : 8 * (k + 1) ≤ w) :
    byte (x <<< (8 * j)) k = if k < j then 0#8 else byte x (k - j) := by
  apply BitVec.eq_of_getLsbD_eq
  intro i hi
  rw [getLsbD_byte, BitVec.getLsbD_shiftLeft]
  by_cases hkj : k < j
  · have hlow : 8 * k + i < 8 * j := by omega
    rw [if_pos hkj]
    simp [hlow]
  · have hlow : ¬ 8 * k + i < 8 * j := by omega
    have hin : 8 * k + i < w := by omega
    have hsub : 8 * k + i - 8 * j = 8 * (k - j) + i := by omega
    rw [if_neg hkj, getLsbD_byte, hsub]
    simp [hlow, hin]

theorem byte_shiftRight (x : BitVec w) (j k : Nat) : byte (x >>> (8 * j)) k = byte x (j + k) := by
  apply BitVec.eq_of_getLsbD_eq
  intro i hi
  have hadd : 8 * j + (8 * k + i) = 8 * (j + k) + i := by omega
  rw [getLsbD_byte, getLsbD_byte, BitVec.getLsbD_ushiftRight, hadd]

theorem ext {x y : BitVec w} (h : ∀ k, 8 * k < w → byte x k = byte y k) : x = y := by
  apply BitVec.eq_of_getLsbD_eq
  intro i hi
  have hbyte := congrArg (BitVec.getLsbD · (i % 8)) (h (i / 8) (by omega))
  have hi' : 8 * (i / 8) + i % 8 = i := by omega
  have hlt : i % 8 < 8 := Nat.mod_lt i (by decide)
  simpa only [getLsbD_byte, hi', hlt, decide_true, Bool.true_and] using hbyte

theorem byte_zero (b : BitVec 8) : byte b 0 = b := BitVec.extractLsb'_eq_self

/-- The byte appended last is the lowest. -/
theorem byte_append (x : BitVec w) (b : BitVec 8) (k : Nat) :
    byte (x ++ b) k = if k = 0 then b else byte x (k - 1) := by
  apply BitVec.eq_of_getLsbD_eq
  intro i hi
  rw [getLsbD_byte, BitVec.getLsbD_append]
  by_cases hk : k = 0
  · have hlow : 8 * k + i < 8 := by omega
    rw [if_pos hk, if_pos hlow, hk, Nat.mul_zero, Nat.zero_add]
    simp [hi]
  · have hlow : ¬ 8 * k + i < 8 := by omega
    have hsub : 8 * k + i - 8 = 8 * (k - 1) + i := by omega
    rw [if_neg hk, if_neg hlow, getLsbD_byte, hsub]

theorem byte_ofBytes (b : Nat → BitVec 8) {k : Nat} (hk : k < 4) : byte (ofBytes b) k = b k := by
  rw [ofBytes, byte_append, byte_append, byte_append]
  obtain rfl | rfl | rfl | rfl : k = 0 ∨ k = 1 ∨ k = 2 ∨ k = 3 := by omega
  · rfl
  · rfl
  · rfl
  · exact byte_zero (b 3)

theorem eq_ofBytes_iff {x : BitVec 32} {b : Nat → BitVec 8} : x = ofBytes b ↔
    byte x 0 = b 0 ∧ byte x 1 = b 1 ∧ byte x 2 = b 2 ∧ byte x 3 = b 3 := by
  constructor
  · rintro rfl
    exact ⟨byte_ofBytes b (by decide), byte_ofBytes b (by decide), byte_ofBytes b (by decide),
      byte_ofBytes b (by decide)⟩
  · rintro ⟨h₀, h₁, h₂, h₃⟩
    refine ext fun k hk => ?_
    have hk : k < 4 := by omega
    rw [byte_ofBytes b hk]
    obtain rfl | rfl | rfl | rfl : k = 0 ∨ k = 1 ∨ k = 2 ∨ k = 3 := by omega
    · exact h₀
    · exact h₁
    · exact h₂
    · exact h₃

/-! ## Parts of two words

`n` low bytes of one word, with bytes of another word above or below them. -/

section Parts

variable {x y low high : BitVec 32} {n k : Nat}

theorem byte_keepLow (hlow : ∀ k, k < 4 → byte low k = if k < n then 255#8 else 0#8) (hk : k < 4) :
    byte (x &&& low ||| y <<< (8 * n)) k = if k < n then byte x k else byte y (k - n) := by
  rw [byte_or, byte_and, hlow k hk, byte_shiftLeft y n (by omega)]
  by_cases hkn : k < n
  · rw [if_pos hkn, if_pos hkn, if_pos hkn, BitVec.or_zero]
    exact BitVec.and_allOnes
  · rw [if_neg hkn, if_neg hkn, if_neg hkn, BitVec.and_zero, BitVec.zero_or]

theorem byte_keepHigh (hhigh : ∀ k, k < 4 → byte high k = if k < n then 0#8 else 255#8)
    (hlow : ∀ k, k < 4 → byte low k = if k < n then 255#8 else 0#8) (hk : k < 4) :
    byte (x &&& high ||| y >>> (8 * (4 - n)) &&& low) k =
      if k < n then byte y (4 - n + k) else byte x k := by
  rw [byte_or, byte_and, byte_and, hhigh k hk, hlow k hk, byte_shiftRight]
  by_cases hkn : k < n
  · rw [if_pos hkn, if_pos hkn, if_pos hkn, BitVec.and_zero, BitVec.zero_or]
    exact BitVec.and_allOnes
  · rw [if_neg hkn, if_neg hkn, if_neg hkn, BitVec.and_zero, BitVec.or_zero]
    exact BitVec.and_allOnes

end Parts

/-! ## Extensions -/

/-- The number of the first `n` bytes, the lowest first. -/
def composed (b : Nat → BitVec 8) : Nat → Nat
  | 0 => 0
  | n + 1 => composed b n + (b n).toNat * 256 ^ n

/-- The first `size` bytes as a word, sign-extended or zero-extended. -/
def extended (signed : Bool) (size : Nat) (b : Nat → BitVec 8) : BitVec 32 :=
  let value := BitVec.ofNat (8 * size) (composed b size)
  if signed then value.signExtend 32 else value.zeroExtend 32

theorem composed_congr {b b' : Nat → BitVec 8} {n : Nat} (h : ∀ k, k < n → b k = b' k) :
    composed b n = composed b' n := by
  induction n with
  | zero => rfl
  | succ n ih =>
    unfold composed
    rw [ih fun k hk => h k (Nat.lt_succ_of_lt hk), h n (Nat.lt_succ_self n)]

/-- The bytes behind the first `size` do not matter. -/
theorem extended_congr {b b' : Nat → BitVec 8} {size : Nat} (h : ∀ k, k < size → b k = b' k)
    (signed : Bool) : extended signed size b = extended signed size b' := by
  unfold extended
  rw [composed_congr h]

theorem composed_append (x : BitVec w) (b : BitVec 8) :
    (x ++ b).toNat = b.toNat + x.toNat * 256 := by
  rw [BitVec.toNat_append, Nat.shiftLeft_eq, Nat.mul_comm,
    ← Nat.two_pow_add_eq_or_of_lt b.isLt x.toNat, Nat.add_comm, Nat.mul_comm]

theorem ofNat_composed_one (b : Nat → BitVec 8) : BitVec.ofNat 8 (composed b 1) = b 0 := by
  have hsum : composed b 1 = (b 0).toNat := by simp [composed]
  rw [hsum, BitVec.ofNat_toNat, BitVec.setWidth_eq]

theorem ofNat_composed_two (b : Nat → BitVec 8) :
    BitVec.ofNat 16 (composed b 2) = b 1 ++ b 0 := by
  have hsum : composed b 2 = (b 1 ++ b 0).toNat := by
    rw [composed_append]
    simp [composed]
  rw [hsum, BitVec.ofNat_toNat]
  exact BitVec.setWidth_eq _

theorem ofNat_composed_four (b : Nat → BitVec 8) :
    BitVec.ofNat 32 (composed b 4) = b 3 ++ b 2 ++ b 1 ++ b 0 := by
  have hsum : composed b 4 = (b 3 ++ b 2 ++ b 1 ++ b 0).toNat := by
    rw [composed_append, composed_append, composed_append]
    simp only [composed]
    omega
  rw [hsum, BitVec.ofNat_toNat]
  exact BitVec.setWidth_eq _

theorem extended_one (signed : Bool) (b : Nat → BitVec 8) : extended signed 1 b =
    if signed then (b 0).signExtend 32 else (b 0).zeroExtend 32 := by
  unfold extended
  rw [ofNat_composed_one]

theorem extended_two (signed : Bool) (b : Nat → BitVec 8) : extended signed 2 b =
    if signed then (b 1 ++ b 0).signExtend 32 else (b 1 ++ b 0).zeroExtend 32 := by
  unfold extended
  rw [ofNat_composed_two]

/-- A whole word has no bits to extend. -/
theorem extended_four (signed : Bool) (b : Nat → BitVec 8) : extended signed 4 b = ofBytes b := by
  unfold extended
  rw [ofNat_composed_four]
  cases signed with
  | false => exact BitVec.setWidth_eq _
  | true => exact BitVec.signExtend_eq _

theorem setWidth_extend {n : Nat} (hle : n ≤ 32) (x : BitVec n) (signed : Bool) :
    (if signed then x.signExtend 32 else x.zeroExtend 32).setWidth n = x := by
  apply BitVec.eq_of_getLsbD_eq
  intro i hi
  have hlt : i < 32 := by omega
  rw [BitVec.getLsbD_setWidth]
  cases signed with
  | false =>
    rw [if_neg Bool.false_ne_true, BitVec.getLsbD_setWidth]
    simp [hi, hlt]
  | true =>
    rw [if_pos rfl, BitVec.getLsbD_signExtend]
    simp [hi, hlt]

theorem and_twoPow_ne_zero (v : BitVec 32) {n : Nat} (hn : n < 32) :
    v &&& BitVec.twoPow 32 n ≠ 0 ↔ v.getLsbD n = true := by
  rw [BitVec.and_twoPow]
  cases v.getLsbD n with
  | false => simp
  | true =>
    refine ⟨fun _ => rfl, fun _ hzero => ?_⟩
    have hbit := congrArg (BitVec.getLsbD · n) hzero
    simp [hn] at hbit

/-- An extension by masks: the sign bit is looked at, and the bits above the low `n` are set
or cleared. -/
theorem extend_eq {n : Nat} (hn : 0 < n) (hle : n ≤ 32) {x : BitVec n} {v : BitVec 32}
    (hv : v.setWidth n = x) (signed : Bool) :
    (if v &&& BitVec.twoPow 32 (n - 1) ≠ 0 ∧ signed then v ||| BitVec.allOnes 32 <<< n
      else v &&& BitVec.ofNat 32 (2 ^ n - 1)) =
      if signed then x.signExtend 32 else x.zeroExtend 32 := by
  subst hv
  have hmsb : (v.setWidth n).msb = v.getLsbD (n - 1) := by
    have hlast : n - 1 < n := Nat.sub_lt hn Nat.one_pos
    rw [BitVec.msb_eq_getLsbD_last, BitVec.getLsbD_setWidth]
    simp [hlast]
  have hmask : v &&& BitVec.ofNat 32 (2 ^ n - 1) = (v.setWidth n).zeroExtend 32 := by
    apply BitVec.eq_of_getLsbD_eq
    intro i hi
    rw [BitVec.getLsbD_and, BitVec.getLsbD_ofNat, Nat.testBit_two_pow_sub_one,
      BitVec.getLsbD_setWidth, BitVec.getLsbD_setWidth]
    simp [hi, Bool.and_comm]
  have hbit := and_twoPow_ne_zero v (n := n - 1) (by omega)
  simp only [hbit, hmask]
  cases signed with
  | false => simp
  | true =>
    by_cases hsign : v.getLsbD (n - 1) = true
    · rw [if_pos ⟨hsign, rfl⟩, if_pos rfl]
      apply BitVec.eq_of_getLsbD_eq
      intro i hi
      rw [BitVec.getLsbD_or, BitVec.getLsbD_shiftLeft, BitVec.getLsbD_allOnes,
        BitVec.getLsbD_signExtend, hmsb, hsign, BitVec.getLsbD_setWidth]
      by_cases hlow : i < n
      · simp [hi, hlow]
      · simp [hi, hlow, show i - n < 32 by omega]
    · rw [if_neg fun h => hsign h.1, if_pos rfl]
      rw [Bool.not_eq_true] at hsign
      rw [BitVec.signExtend_eq_setWidth_of_msb_false (hmsb.trans hsign)]

end WordBytes
end Lib
