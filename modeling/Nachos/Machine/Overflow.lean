import Nachos.Machine.Exceptions
import Nachos.Machine.Mult
import Nachos.Machine.Unaligned

/-!
# Addition and subtraction

ADD, ADDI and SUB trap just when the sum or the difference of their operands is no
`int`, and then leave the destination alone; ADDU, ADDIU and SUBU never trap.
-/

namespace Nachos
namespace Machine

open Lib

/-! ## Immediates -/

/-- `Decode` makes a signed number of the lower half of the instruction. -/
theorem immediate_toInt (value : Word) : (immediate value).toInt = (value.setWidth 16).toInt := by
  have hlow : (value &&& 0xffff).toNat = value.toNat % 65536 := by
    rw [BitVec.toNat_and]
    exact Nat.and_two_pow_sub_one_eq_mod value.toNat 16
  have hhalf : (value.setWidth 16).toNat = value.toNat % 65536 := BitVec.toNat_setWidth 16 value
  have hbit : value &&& 0xffff &&& 0x8000 ≠ 0 ↔ value.toNat / 32768 % 2 = 1 := by
    have hand : value &&& 0x8000 = if value.getLsbD 15 then 0x8000 else 0 :=
      BitVec.and_twoPow value 15
    rw [BitVec.and_assoc, show (0xffff : Word) &&& 0x8000 = 0x8000 from rfl, hand,
      ← BitVec.testBit_toNat, Nat.testBit_eq_decide_div_mod_eq]
    simp
  have hint := BitVec.toInt_eq_toNat_cond (value.setWidth 16)
  unfold immediate
  dsimp only
  by_cases hsign : value &&& 0xffff &&& 0x8000 ≠ 0
  · have hdisjoint : value &&& 0xffff &&& 0xffff0000 = 0 := by
      rw [BitVec.and_assoc]
      exact BitVec.and_zero
    rw [if_pos hsign, ← BitVec.add_eq_or_of_and_eq_zero _ _ hdisjoint,
      BitVec.toInt_eq_toNat_cond, BitVec.toNat_add, hlow]
    rw [hbit] at hsign
    have hhigh : (0xffff0000 : Word).toNat = 4294901760 := rfl
    rw [hhigh, hint, hhalf, if_neg (by omega), if_neg (by omega)]
    omega
  · rw [if_neg hsign, BitVec.toInt_eq_toNat_cond, hlow]
    rw [hbit] at hsign
    rw [hint, hhalf, if_pos (by omega), if_pos (by omega)]

/-- The instructions with an immediate operand. -/
theorem extra_of_opCode {raw : Word}
    (h : (decode raw).opCode = .addi ∨ (decode raw).opCode = .addiu) :
    (decode raw).extra = immediate raw := by
  have htable : ∀ f : Fin 64, (opTable.get f).opCode = .op .addi ∨
      (opTable.get f).opCode = .op .addiu → (opTable.get f).format = .ifmt := by
    decide
  have hspecial : ∀ f : Fin 64, specialTable.get f ≠ .addi ∧ specialTable.get f ≠ .addiu := by
    decide
  have hbcond : bcond raw ≠ .addi ∧ bcond raw ≠ .addiu := by
    unfold bcond
    dsimp only
    repeat' split
    all_goals exact ⟨nofun, nofun⟩
  have hformat : (opTable.get (field raw 26 6)).format = .ifmt := by
    refine htable _ ?_
    unfold decode at h
    dsimp only at h
    cases hop : (opTable.get (field raw 26 6)).opCode with
    | special =>
      rw [hop] at h
      exact (h.elim (hspecial _).1 (hspecial _).2).elim
    | bcond =>
      rw [hop] at h
      exact (h.elim hbcond.1 hbcond.2).elim
    | op opCode =>
      rw [hop] at h
      exact h.imp (congrArg Primary.op) (congrArg Primary.op)
  unfold decode
  dsimp only
  rw [hformat]

/-! ## Results -/

/-- The second operand. -/
def Instruction.operand (i : Instruction) (r : Registers) : Int :=
  match i.opCode with
  | .addi | .addiu => (i.value.setWidth 16).toInt
  | _ => (r (gp i.rt)).toInt

/-- The mathematical sum or difference of the operands. -/
def Instruction.result (i : Instruction) (r : Registers) : Int :=
  match i.opCode with
  | .sub | .subu => (r (gp i.rs)).toInt - i.operand r
  | _ => (r (gp i.rs)).toInt + i.operand r

/-- An `int` can hold the number. -/
def Fits (x : Int) : Prop := -2 ^ 31 ≤ x ∧ x ≤ 2 ^ 31 - 1

instance (x : Int) : Decidable (Fits x) := inferInstanceAs (Decidable (_ ∧ _))

theorem Fits.toInt_ofInt {x : Int} (h : Fits x) : (BitVec.ofInt 32 x).toInt = x := by
  obtain ⟨hlow, hhigh⟩ := h
  rw [BitVec.toInt_ofInt, Int.bmod_eq_of_le]
  · omega
  · omega

theorem saddOverflow_iff (a b : Word) :
    a.saddOverflow b = true ↔ ¬ Fits (a.toInt + b.toInt) := by
  simp [BitVec.saddOverflow, Fits]
  omega

theorem ssubOverflow_iff (a b : Word) :
    a.ssubOverflow b = true ↔ ¬ Fits (a.toInt - b.toInt) := by
  simp [BitVec.ssubOverflow, Fits]
  omega

/-- The test of ADD, on the wrapped sum. -/
theorem add_overflow (a b : Word) :
    (!sign (a ^^^ b) && sign (a ^^^ (a + b))) = true ↔ ¬ Fits (a.toInt + b.toInt) := by
  rw [← saddOverflow_iff, BitVec.saddOverflow_eq, sign_eq_msb, sign_eq_msb, BitVec.msb_xor,
    BitVec.msb_xor]
  cases a.msb <;> cases b.msb <;> cases (a + b).msb <;> decide

/-- The test of ADDI, which looks at the sign of the other operand. -/
theorem addi_overflow (a b : Word) :
    (!sign (a ^^^ b) && sign (b ^^^ (a + b))) = true ↔ ¬ Fits (a.toInt + b.toInt) := by
  rw [← saddOverflow_iff, BitVec.saddOverflow_eq, sign_eq_msb, sign_eq_msb, BitVec.msb_xor,
    BitVec.msb_xor]
  cases a.msb <;> cases b.msb <;> cases (a + b).msb <;> decide

/-- The test of SUB. -/
theorem sub_overflow (a b : Word) :
    (sign (a ^^^ b) && sign (a ^^^ (a - b))) = true ↔ ¬ Fits (a.toInt - b.toInt) := by
  rw [← ssubOverflow_iff, BitVec.ssubOverflow_eq, sign_eq_msb, sign_eq_msb, BitVec.msb_xor,
    BitVec.msb_xor]
  cases a.msb <;> cases b.msb <;> cases (a - b).msb <;> decide

/-! ## The switch -/

section Switch

variable {m : Machine} {raw : Word} {d : GPReg}

theorem ofInt_sum (a b : Word) : BitVec.ofInt 32 (a.toInt + b.toInt) = a + b := by
  rw [BitVec.ofInt_add, BitVec.ofInt_toInt, BitVec.ofInt_toInt]

theorem ofInt_difference (a b : Word) : BitVec.ofInt 32 (a.toInt - b.toInt) = a - b := by
  rw [Int.sub_eq_add_neg, BitVec.ofInt_add, BitVec.ofInt_neg, BitVec.ofInt_toInt,
    BitVec.ofInt_toInt, BitVec.sub_eq_add_neg]

theorem operand_immediate (r : Registers)
    (h : (decode raw).opCode = .addi ∨ (decode raw).opCode = .addiu) :
    (decode raw).operand r = (decode raw).extra.toInt := by
  rw [extra_of_opCode h, immediate_toInt]
  unfold Instruction.operand
  rcases h with hop | hop
  · rw [hop]
    rfl
  · rw [hop]
    rfl

theorem bool_eq_of_iff {overflow : Bool} {c : Prop} [Decidable c] (h : overflow = true ↔ c) :
    overflow = decide c :=
  Bool.eq_iff_iff.mpr (h.trans decide_eq_true_iff.symm)

/-- ADD, ADDI and SUB store the exact result or trap. -/
theorem execute_trapping (hop : (decode raw).opCode ∈ [OpCode.add, .addi, .sub])
    (hd : (decode raw).dest = some d) :
    execute (decode raw) m = straight (m.registers nextPCReg + 4)
      (trapping d (BitVec.ofInt 32 ((decode raw).result m.registers))
        (decide (¬ Fits ((decode raw).result m.registers)))) m := by
  have hops : (decode raw).opCode = .add ∨ (decode raw).opCode = .addi ∨
      (decode raw).opCode = .sub := by
    simpa using hop
  unfold Instruction.dest at hd
  unfold execute Instruction.result
  rw [bind_run (show reg nextPCReg m = .ok (m.registers nextPCReg) m from rfl)]
  rcases hops with hop | hop | hop
  · unfold Instruction.operand
    rw [hop] at hd ⊢
    obtain rfl := Option.some.inj hd
    dsimp only
    rw [ofInt_sum, ← bool_eq_of_iff (add_overflow _ _)]
    rfl
  · rw [operand_immediate _ (.inl hop)]
    rw [hop] at hd ⊢
    obtain rfl := Option.some.inj hd
    dsimp only
    rw [ofInt_sum, ← bool_eq_of_iff (addi_overflow _ _)]
    rfl
  · unfold Instruction.operand
    rw [hop] at hd ⊢
    obtain rfl := Option.some.inj hd
    dsimp only
    rw [ofInt_difference, ← bool_eq_of_iff (sub_overflow _ _)]
    rfl

/-- ADDU, ADDIU and SUBU store the result modulo 2^32. -/
theorem execute_wrapping (hop : (decode raw).opCode ∈ [OpCode.addu, .addiu, .subu])
    (hd : (decode raw).dest = some d) :
    execute (decode raw) m = straight (m.registers nextPCReg + 4)
      (setGpr d (BitVec.ofInt 32 ((decode raw).result m.registers))) m := by
  have hops : (decode raw).opCode = .addu ∨ (decode raw).opCode = .addiu ∨
      (decode raw).opCode = .subu := by
    simpa using hop
  unfold Instruction.dest at hd
  unfold execute Instruction.result
  rw [bind_run (show reg nextPCReg m = .ok (m.registers nextPCReg) m from rfl)]
  rcases hops with hop | hop | hop
  · unfold Instruction.operand
    rw [hop] at hd ⊢
    obtain rfl := Option.some.inj hd
    dsimp only
    rw [ofInt_sum]
    rfl
  · rw [operand_immediate _ (.inr hop)]
    rw [hop] at hd ⊢
    obtain rfl := Option.some.inj hd
    dsimp only
    rw [ofInt_sum]
    rfl
  · unfold Instruction.operand
    rw [hop] at hd ⊢
    obtain rfl := Option.some.inj hd
    dsimp only
    rw [ofInt_difference]
    rfl

end Switch

/-! ## The instructions -/

section Instructions

variable {m : Machine} {i : Instruction} {d : GPReg}

/-- No load is on its way to the register, so it keeps what it has until the next
instruction.  Register 0 is always 0. -/
theorem loaded_not_pending {r : Registers} (h : d ≠ 0 → r loadReg ≠ regNo d) (a b : Word) :
    loaded r a b (gp d) = if d = 0 then 0 else r (gp d) := by
  by_cases hd : d = 0
  · rw [if_pos hd, hd]
    rfl
  · rw [if_neg hd]
    refine loaded_of_ne a b (gp_ne_zero hd) (gp_ne_special (by decide)).symm
      (gp_ne_special (by decide)).symm fun hval => h hd ?_
    apply BitVec.eq_of_toNat_eq
    rw [regNo_toNat, ← hval, gp_val]

/-- A result that is stored. -/
theorem stored_run (hload : (m.registers loadReg).toNat < numTotalRegs)
    (hpending : d ≠ 0 → m.registers loadReg ≠ regNo d) (pcAfter v : Word) :
    ∃ m', (straight pcAfter (setGpr d v) >>= retire) m = .ok () m' ∧
      m'.registers (gp d) = if d = 0 then 0 else v := by
  let m₁ : Machine := { m with registers := fun j => if j = gp d then v else m.registers j }
  have hkept : m₁.registers loadReg = m.registers loadReg :=
    if_neg (gp_ne_special (by decide))
  have hrun : straight pcAfter (setGpr d v) m = .ok { pcAfter } m₁ := rfl
  refine ⟨_, (bind_run hrun).trans (retire_run (by rw [hkept]; exact hload) _), ?_⟩
  show retired m₁.registers { pcAfter } (gp d) = _
  rw [retired_gp, loaded_not_pending (by rw [hkept]; exact hpending)]
  exact if_congr Iff.rfl rfl (if_pos rfl)

/-- A trap. -/
theorem trapped_run (hload : (m.registers loadReg).toNat < numTotalRegs)
    (hpending : d ≠ 0 → m.registers loadReg ≠ regNo d) (pcAfter v : Word) :
    ∃ m', (straight pcAfter (trapping d v true) >>= retire) m =
        .error (.exception .overflow) m' ∧
      m'.registers (gp d) = if d = 0 then 0 else m.registers (gp d) := by
  have hkept : (if loadReg = badVAddrReg then (0 : Word) else m.registers loadReg) =
      m.registers loadReg := if_neg (by decide)
  have htrap : trapping d v true m = .error (.exception .overflow) _ :=
    raiseException_run hload .overflow 0
  have hswitch := bind_error (f := fun _ => (return { pcAfter } : Sim Next)) htrap
  refine ⟨_, bind_error hswitch, ?_⟩
  show loaded (fun j => if j = badVAddrReg then 0 else m.registers j) 0 0 (gp d) = _
  rw [loaded_not_pending (by rw [hkept]; exact hpending)]
  exact if_congr Iff.rfl rfl (if_neg (gp_ne_special (by decide)).symm)

/-- **Overflow traps.**  ADD, ADDI and SUB trap just when no `int` can hold the exact
result, and keep the destination then; otherwise they store it.  ADDU, ADDIU and SUBU
store it modulo 2^32.  Register 0 stays 0. -/
theorem overflow_exact (hi : fetched m = some i) (hd : i.dest = some d)
    (hload : (m.registers loadReg).toNat < numTotalRegs)
    (hpending : d ≠ 0 → m.registers loadReg ≠ regNo d) :
    (i.opCode ∈ [OpCode.add, .addi, .sub] →
      ((∃ m', oneInstruction m = .error (.exception .overflow) m') ↔
        ¬ Fits (i.result m.registers)) ∧
      (∀ m', oneInstruction m = .error (.exception .overflow) m' →
        m'.registers (gp d) = if d = 0 then 0 else m.registers (gp d)) ∧
      (Fits (i.result m.registers) → ∃ m', oneInstruction m = .ok () m' ∧
        (m'.registers (gp d)).toInt = if d = 0 then 0 else i.result m.registers)) ∧
    (i.opCode ∈ [OpCode.addu, .addiu, .subu] → ∃ m', oneInstruction m = .ok () m' ∧
      m'.registers (gp d) = if d = 0 then 0 else BitVec.ofInt 32 (i.result m.registers)) := by
  obtain ⟨mem, -, hrun⟩ := oneInstruction_of_fetched hi
  obtain ⟨raw, -, -, rfl⟩ := readMem_of_fetched hi
  have hone : ∀ {x : Sim Next}, execute (decode raw) { m with memory := mem } =
      x { m with memory := mem } → oneInstruction m = (x >>= retire) { m with memory := mem } := by
    intro x hx
    rw [hrun]
    show EStateM.bind _ _ _ = EStateM.bind _ _ _
    unfold EStateM.bind
    rw [hx]
  refine ⟨fun hop => ?_, fun hop => ?_⟩
  · have hswitch := hone (execute_trapping (m := { m with memory := mem }) hop hd)
    dsimp only at hswitch
    by_cases hfits : Fits ((decode raw).result m.registers)
    · rw [decide_eq_false (not_not.mpr hfits)] at hswitch
      obtain ⟨m', hstored, hvalue⟩ := stored_run (m := { m with memory := mem }) hload hpending
        (m.registers nextPCReg + 4) (BitVec.ofInt 32 ((decode raw).result m.registers))
      have hok : oneInstruction m = .ok () m' := hswitch.trans hstored
      have hnot : ∀ m₁, oneInstruction m ≠ .error (.exception .overflow) m₁ := by
        intro m₁ h
        rw [hok] at h
        cases h
      refine ⟨⟨fun ⟨m₁, h⟩ => absurd h (hnot m₁), fun h => absurd hfits h⟩,
        fun m₁ h => absurd h (hnot m₁), fun _ => ⟨m', hok, ?_⟩⟩
      rw [hvalue]
      by_cases hd₀ : d = 0
      · rw [if_pos hd₀, if_pos hd₀]
        rfl
      · rw [if_neg hd₀, if_neg hd₀]
        exact hfits.toInt_ofInt
    · rw [decide_eq_true hfits] at hswitch
      obtain ⟨m', htrapped, hvalue⟩ := trapped_run (m := { m with memory := mem }) hload hpending
        (m.registers nextPCReg + 4) (BitVec.ofInt 32 ((decode raw).result m.registers))
      have herror : oneInstruction m = .error (.exception .overflow) m' := hswitch.trans htrapped
      refine ⟨⟨fun _ => hfits, fun _ => ⟨m', herror⟩⟩, fun m₁ h => ?_, fun h => absurd h hfits⟩
      obtain ⟨-, rfl⟩ := EStateM.Result.error.inj (herror.symm.trans h)
      exact hvalue
  · have hswitch := hone (execute_wrapping (m := { m with memory := mem }) hop hd)
    obtain ⟨m', hstored, hvalue⟩ := stored_run (m := { m with memory := mem }) hload hpending
      (m.registers nextPCReg + 4) (BitVec.ofInt 32 ((decode raw).result m.registers))
    exact ⟨m', hswitch.trans hstored, hvalue⟩

end Instructions

/-- `ADD r3, r1, r2` of the largest `int` and 1, and 5 in `r3`. -/
def largestPlusOne : Machine :=
  single 0x00221820 fun j =>
    if j = 1 then 0x7fffffff else if j = 2 then 1 else if j = 3 then 5 else 0

theorem overflow_exact_largestPlusOne :
    ∃ m', oneInstruction largestPlusOne = .error (.exception .overflow) m' ∧
      m'.registers (gp 3) = 5 := by
  have hfetched : fetched largestPlusOne = some (decode 0x00221820) := by decide +kernel
  obtain ⟨hiff, hkept, -⟩ := (overflow_exact (d := 3) hfetched (by decide) (by decide)
    fun _ => by decide).1 (by decide)
  obtain ⟨m', hrun⟩ := hiff.mpr (by decide)
  exact ⟨m', hrun, hkept m' hrun⟩

end Machine
end Nachos
