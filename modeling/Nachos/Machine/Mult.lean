import Nachos.Lib.DoubleWord
import Nachos.Machine.DelayedLoad

/-!
# Multiplication

`Mult` leaves the exact product of two words in the double word of `HiReg` and
`LoReg`.  The multiplier is shifted as a signed word; its sign is shifted in from
the left and does not get to the bit that is tested.
-/

namespace Nachos
namespace Machine

open Lib

/-! ## The loop -/

theorem sign_eq_msb (a : Word) : sign a = a.msb := by
  have hand : a &&& 0x80000000 = if a.msb then 0x80000000 else 0 := by
    rw [BitVec.msb_eq_getLsbD_last]
    exact BitVec.and_twoPow a 31
  unfold sign
  rw [hand]
  cases a.msb <;> rfl

theorem and_one_toNat (a : Word) : (a &&& 1).toNat = a.toNat % 2 := by
  rw [BitVec.toNat_and]
  exact Nat.and_two_pow_sub_one_eq_mod a.toNat 1

theorem odd_iff (a : Word) : a &&& 1 ≠ 0 ↔ a.toNat % 2 = 1 := by
  have hone := and_one_toNat a
  have hzero : a &&& 1 = 0 ↔ (a &&& 1).toNat = 0 :=
    ⟨fun h => congrArg BitVec.toNat h, fun h => BitVec.eq_of_toNat_eq h⟩
  rw [ne_eq, hzero, hone]
  omega

/-- The bits of the multiplier that are still to be tested, after one more shift. -/
theorem sshiftRight_bits (a : Word) {n : Nat} (hn : n < 32) :
    (a.sshiftRight 1).toNat % 2 ^ n = a.toNat % 2 ^ (n + 1) / 2 := by
  apply Nat.eq_of_testBit_eq
  intro i
  rw [Nat.testBit_div_two, Nat.testBit_mod_two_pow, Nat.testBit_mod_two_pow, BitVec.testBit_toNat,
    BitVec.testBit_toNat, BitVec.getLsbD_sshiftRight]
  by_cases hi : i < n
  · have hlow : 1 + i < 32 := by omega
    have hin : ¬ 32 ≤ i := by omega
    rw [if_pos hlow, Nat.add_comm 1 i]
    simp [hi, hin]
  · simp [hi]

theorem last_bit {a : Word} (hodd : a &&& 1 ≠ 0) (h : a &&& 0xfffffffe = 0) : a = 1 := by
  have hparts : (a &&& 0xfffffffe) ||| (a &&& 1) = a := by
    rw [← BitVec.and_or_distrib_left]
    exact BitVec.and_allOnes
  rw [h, show (0 : Word) ||| (a &&& 1) = a &&& 1 from BitVec.zero_or] at hparts
  apply BitVec.eq_of_toNat_eq
  rw [← hparts, and_one_toNat, (odd_iff a).mp hodd]
  rfl

/-- A round adds the multiplicand for the low bit, and goes on with the other bits. -/
theorem multLoop_append (n : Nat) : ∀ (a bHi bLo hi lo : Word), n ≤ 32 →
    (multLoop n a bHi bLo hi lo).1 ++ (multLoop n a bHi bLo hi lo).2 =
      (hi ++ lo) + (bHi ++ bLo) * BitVec.ofNat 64 (a.toNat % 2 ^ n) := by
  induction n with
  | zero =>
    intro a bHi bLo hi lo _
    rw [Nat.pow_zero, Nat.mod_one]
    show hi ++ lo = (hi ++ lo) + (bHi ++ bLo) * (0 : BitVec 64)
    rw [mul_zero, add_zero]
  | succ n ih =>
    intro a bHi bLo hi lo hn
    have hbits := sshiftRight_bits a (n := n) (by omega)
    have hdouble : (bHi <<< 1 ||| (if sign bLo then 1 else 0 : Word)) ++ (bLo <<< 1) =
        (bHi ++ bLo) + (bHi ++ bLo) := by
      rw [sign_eq_msb, DoubleWord.append_shiftLeft (by decide), DoubleWord.shiftLeft_one]
    have hsplit : BitVec.ofNat 64 (a.toNat % 2 ^ (n + 1)) =
        BitVec.ofNat 64 (a.toNat % 2) +
          2 * BitVec.ofNat 64 ((a.sshiftRight 1).toNat % 2 ^ n) := by
      have hlow : a.toNat % 2 ^ (n + 1) % 2 = a.toNat % 2 :=
        Nat.mod_mod_of_dvd _ (Dvd.intro_left (2 ^ n) rfl)
      have hvalue : a.toNat % 2 ^ (n + 1) = a.toNat % 2 + 2 * ((a.sshiftRight 1).toNat % 2 ^ n) := by
        rw [hbits]
        omega
      rw [hvalue, BitVec.ofNat_add, BitVec.ofNat_mul]
      rfl
    unfold multLoop
    dsimp only
    by_cases hodd : a &&& 1 ≠ 0
    · rw [if_pos hodd, if_pos hodd]
      by_cases hlast : a &&& 0xfffffffe = 0
      · rw [if_pos ⟨hodd, hlast⟩, DoubleWord.append_add, last_bit hodd hlast]
        have hone : (1 : Word).toNat % 2 ^ (n + 1) = 1 :=
          Nat.mod_eq_of_lt (Nat.one_lt_two_pow (by omega))
        rw [hone]
        show _ = _ + _ * 1
        rw [mul_one]
      · rw [if_neg fun h => hlast h.2, ih _ _ _ _ _ (by omega), DoubleWord.append_add, hdouble,
          hsplit, (odd_iff a).mp hodd]
        show _ = _ + _ * (1 + _)
        ring
    · rw [if_neg hodd, if_neg hodd, if_neg fun h => hodd h.1, ih _ _ _ _ _ (by omega), hdouble,
        hsplit]
      have heven : a.toNat % 2 = 0 := by
        have hnot := (odd_iff a).not.mp hodd
        omega
      rw [heven]
      show _ = _ + _ * (0 + _)
      ring

/-- The loop from an empty sum. -/
theorem multLoop_toNat (a b : Word) :
    ((multLoop 32 a 0 b 0 0).1 ++ (multLoop 32 a 0 b 0 0).2).toNat = a.toNat * b.toNat := by
  have ha := a.isLt
  have hb := b.isLt
  have hfit : a.toNat * b.toNat < 2 ^ 32 * 2 ^ 32 := Nat.mul_lt_mul'' ha hb
  rw [multLoop_append 32 a 0 b 0 0 le_rfl, Nat.mod_eq_of_lt ha, BitVec.toNat_add, BitVec.toNat_mul,
    DoubleWord.toNat_append, DoubleWord.toNat_append, BitVec.toNat_ofNat]
  show (0 * 2 ^ 32 + 0 + (0 * 2 ^ 32 + b.toNat) * (a.toNat % 2 ^ 64) % 2 ^ 64) % 2 ^ 64 = _
  rw [Nat.mod_eq_of_lt (show a.toNat < 2 ^ 64 by omega), Nat.zero_mul, Nat.zero_add, Nat.zero_add,
    Nat.mod_mod, Nat.mul_comm]
  exact Nat.mod_eq_of_lt hfit

/-! ## Signs -/

theorem slt_zero (a : Word) : a.slt 0 = true ↔ a.toInt < 0 := by
  rw [BitVec.slt_iff_toInt_lt]
  rfl

/-- The operand made positive.  The least `int` is its own negative, and is right as
an unsigned word. -/
theorem magnitude (a : Word) : (if a.slt 0 then -a else a).toNat = a.toInt.natAbs := by
  have hlt := a.isLt
  have hint := BitVec.toInt_eq_toNat_cond a
  have hneg := BitVec.toNat_neg a
  by_cases hs : a.slt 0 = true
  · rw [if_pos hs, hneg]
    rw [slt_zero] at hs
    split at hint
    · omega
    · omega
  · rw [if_neg hs]
    rw [slt_zero] at hs
    split at hint
    · omega
    · omega

theorem toInt_of_small {x : BitVec 64} (h : x.toNat < 2 ^ 63) : x.toInt = x.toNat := by
  rw [BitVec.toInt_eq_toNat_cond, if_pos (by omega)]

theorem toInt_neg_of_small {x : BitVec 64} (h : x.toNat < 2 ^ 63) : (-x).toInt = -x.toNat := by
  have hneg := BitVec.toNat_neg x
  rw [BitVec.toInt_eq_toNat_cond]
  split
  · omega
  · omega

/-- The sign of a product. -/
theorem mul_eq_natAbs (x y : Int) : x * y =
    if (decide (x < 0) != decide (y < 0)) = true then -((x.natAbs * y.natAbs : Nat) : Int)
    else ((x.natAbs * y.natAbs : Nat) : Int) := by
  rw [Int.natCast_mul]
  by_cases hx : x < 0
  · have hx' : (x.natAbs : Int) = -x := Int.ofNat_natAbs_of_nonpos hx.le
    by_cases hy : y < 0
    · rw [hx', Int.ofNat_natAbs_of_nonpos hy.le]
      simp [hx, hy]
    · rw [hx', Int.natAbs_of_nonneg (not_lt.mp hy)]
      simp [hx, hy]
  · have hx' : (x.natAbs : Int) = x := Int.natAbs_of_nonneg (not_lt.mp hx)
    by_cases hy : y < 0
    · rw [hx', Int.ofNat_natAbs_of_nonpos hy.le]
      simp [hx, hy]
    · rw [hx', Int.natAbs_of_nonneg (not_lt.mp hy)]
      simp [hx, hy]

/-- The most negative operands have the largest product. -/
theorem natAbs_mul_lt (a b : Word) : a.toInt.natAbs * b.toInt.natAbs < 2 ^ 63 := by
  have hbound : ∀ c : Word, c.toInt.natAbs ≤ 2 ^ 31 := by
    intro c
    have hlow := BitVec.le_toInt c
    have hhigh := BitVec.toInt_lt (x := c)
    omega
  calc a.toInt.natAbs * b.toInt.natAbs ≤ 2 ^ 31 * 2 ^ 31 := Nat.mul_le_mul (hbound a) (hbound b)
    _ < 2 ^ 63 := by decide

/-! ## The products -/

theorem mult_unsigned (a b : Word) :
    ((mult a b false).1 ++ (mult a b false).2).toNat = a.toNat * b.toNat := by
  unfold mult
  by_cases hzero : a = 0 ∨ b = 0
  · rw [if_pos hzero]
    rcases hzero with rfl | rfl
    · exact (Nat.zero_mul _).symm
    · exact (Nat.mul_zero _).symm
  · rw [if_neg hzero]
    exact multLoop_toNat a b

theorem mult_signed (a b : Word) :
    ((mult a b true).1 ++ (mult a b true).2).toInt = a.toInt * b.toInt := by
  unfold mult
  by_cases hzero : a = 0 ∨ b = 0
  · rw [if_pos hzero]
    rcases hzero with rfl | rfl
    · exact (Int.zero_mul _).symm
    · exact (Int.mul_zero _).symm
  · rw [if_neg hzero, mul_eq_natAbs]
    have hproduct := multLoop_toNat (if a.slt 0 then -a else a) (if b.slt 0 then -b else b)
    rw [magnitude, magnitude] at hproduct
    have hsmall := natAbs_mul_lt a b
    rw [← hproduct] at hsmall ⊢
    have hsign : ∀ c : Word, c.slt 0 = decide (c.toInt < 0) :=
      fun c => Bool.eq_iff_iff.mpr ((slt_zero c).trans decide_eq_true_iff.symm)
    simp only [Bool.true_and]
    generalize multLoop 32 (if a.slt 0 then -a else a) 0 (if b.slt 0 then -b else b) 0 0 = product
      at hsmall
    obtain ⟨hi, lo⟩ := product
    rw [← hsign a, ← hsign b]
    by_cases hnegative : (a.slt 0 != b.slt 0) = true
    · rw [if_pos hnegative, if_pos hnegative]
      dsimp only
      rw [DoubleWord.append_neg (by decide)]
      exact toInt_neg_of_small hsmall
    · rw [if_neg hnegative, if_neg hnegative]
      exact toInt_of_small hsmall

/-- **Multiplication.**  `Mult` is exact for signed and for unsigned operands. -/
theorem mult_exact (a b : Word) :
    ((mult a b true).1 ++ (mult a b true).2).toInt = a.toInt * b.toInt ∧
      ((mult a b false).1 ++ (mult a b false).2).toNat = a.toNat * b.toNat :=
  ⟨mult_signed a b, mult_unsigned a b⟩

/-! ## The instructions -/

/-- MULT and MULTU put the double word into `HiReg` and `LoReg`. -/
theorem execute_mult {m : Machine} {i : Instruction} {signedArith : Bool}
    (hop : i.opCode = if signedArith then .mult else .multu) :
    ∃ n m', execute i m = .ok n m' ∧ (m'.registers hiReg, m'.registers loReg) =
      mult (m.registers (gp i.rs)) (m.registers (gp i.rt)) signedArith := by
  have hswitch : execute i = (reg nextPCReg >>= fun next => straight (next + 4) (do
      let a ← gpr i.rs
      let b ← gpr i.rt
      setHiLo (mult a b signedArith).1 (mult a b signedArith).2)) := by
    unfold execute
    cases signedArith with
    | true => rw [hop, if_pos rfl]
    | false => rw [hop, if_neg (by decide)]
  rw [hswitch]
  exact ⟨_, _, rfl, rfl⟩

/-- MULT leaves the product of two signed registers. -/
theorem execute_mult_toInt {m m' : Machine} {i : Instruction} {n : Next} (hop : i.opCode = .mult)
    (hrun : execute i m = .ok n m') : (m'.registers hiReg ++ m'.registers loReg).toInt =
      (m.registers (gp i.rs)).toInt * (m.registers (gp i.rt)).toInt := by
  have hsigned : i.opCode = if true then .mult else .multu := hop
  obtain ⟨n₁, m₁, hrun₁, hproduct⟩ := execute_mult (m := m) hsigned
  obtain ⟨rfl, rfl⟩ := EStateM.Result.ok.inj (hrun₁.symm.trans hrun)
  obtain ⟨hhi, hlo⟩ := Prod.mk.inj hproduct
  rw [hhi, hlo]
  exact mult_signed _ _

/-- MULTU leaves the product of two unsigned registers. -/
theorem execute_multu_toNat {m m' : Machine} {i : Instruction} {n : Next} (hop : i.opCode = .multu)
    (hrun : execute i m = .ok n m') : (m'.registers hiReg ++ m'.registers loReg).toNat =
      (m.registers (gp i.rs)).toNat * (m.registers (gp i.rt)).toNat := by
  have hunsigned : i.opCode = if false then .mult else .multu := hop
  obtain ⟨n₁, m₁, hrun₁, hproduct⟩ := execute_mult (m := m) hunsigned
  obtain ⟨rfl, rfl⟩ := EStateM.Result.ok.inj (hrun₁.symm.trans hrun)
  obtain ⟨hhi, hlo⟩ := Prod.mk.inj hproduct
  rw [hhi, hlo]
  exact mult_unsigned _ _

end Machine
end Nachos
