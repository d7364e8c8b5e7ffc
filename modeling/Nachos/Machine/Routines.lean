import Nachos.Lib.Agreement
import Nachos.Machine.Execute

/-!
# Relations that an instruction respects

An instruction is built from reads and writes of registers and of memory.  Two machines
related so that each of these ends alike execute the same instruction alike.
-/

namespace Nachos
namespace Machine

open Lib

/-- Registers are read and written alike. -/
structure SharesRegisters (R : Machine → Machine → Prop) : Prop where
  reg : ∀ j, Lockstep R (reg j)
  setReg : ∀ j v, Lockstep R (setReg j v)

/-- And so is memory, in the sizes that instructions use. -/
structure Respected (R : Machine → Machine → Prop) : Prop extends SharesRegisters R where
  readMem : ∀ addr size, size = 1 ∨ size = 2 ∨ size = 4 → Lockstep R (readMem addr size)
  writeMem : ∀ addr size value, size = 1 ∨ size = 2 ∨ size = 4 →
    Lockstep R (writeMem addr size value)

namespace SharesRegisters

variable {R : Machine → Machine → Prop} (h : SharesRegisters R)

include h

theorem setRegAt (i v : Word) : Lockstep R (setRegAt i v) := by
  unfold Machine.setRegAt
  by_cases hi : i.toNat < numTotalRegs
  · rw [dif_pos hi]
    exact h.setReg _ v
  · rw [dif_neg hi]
    exact .throw

theorem delayedLoad (a b : Word) : Lockstep R (delayedLoad a b) := by
  unfold Machine.delayedLoad
  refine (h.reg _).bind fun i => (h.reg _).bind fun v => ?_
  refine (h.setRegAt i v).bind fun _ => (h.setReg _ a).bind fun _ => ?_
  exact (h.setReg _ b).bind fun _ => h.setReg 0 0

theorem raiseException {α : Type} (which : ExceptionType) (addr : Word) :
    Lockstep R (raiseException which addr : Sim α) := by
  unfold Machine.raiseException
  exact (h.setReg _ addr).bind fun _ => (h.delayedLoad 0 0).bind fun _ => .throw

/-! ## Families of opcodes -/

theorem alu (d a b : GPReg) (f : Word → Word → Word) : Lockstep R (alu d a b f) :=
  (h.reg _).bind fun _ => (h.reg _).bind fun _ => h.setReg _ _

theorem aluImm (d a : GPReg) (f : Word → Word) : Lockstep R (aluImm d a f) :=
  (h.reg _).bind fun _ => h.setReg _ _

theorem trapping (d : GPReg) (result : Word) (overflow : Bool) :
    Lockstep R (trapping d result overflow) :=
  .ite (h.raiseException _ _) (h.setReg _ _)

theorem link (d : GPReg) : Lockstep R (link d) := (h.reg _).bind fun _ => h.setReg _ _

theorem setHiLo (hi lo : Word) : Lockstep R (setHiLo hi lo) :=
  (h.setReg _ _).bind fun _ => h.setReg _ _

theorem divSigned (a b : Word) : Lockstep R (divSigned a b) :=
  .ite (h.setHiLo _ _) (.ite .throw (h.setHiLo _ _))

theorem divUnsigned (a b : Word) : Lockstep R (divUnsigned a b) :=
  .ite (h.setHiLo _ _) (h.setHiLo _ _)

variable {i : Instruction}

theorem branch (pcAfter : Word) (taken : Bool) : Lockstep R (branch i pcAfter taken) :=
  (h.reg _).bind fun _ => .pure

theorem effective : Lockstep R (effective i) := (h.reg _).bind fun _ => .pure

theorem forwarded (rt : GPReg) : Lockstep R (forwarded rt) :=
  (h.reg _).bind fun _ => .ite (h.reg _) (h.reg _)

end SharesRegisters

theorem straight_lockstep {R : Machine → Machine → Prop} {x : Sim Unit} (pcAfter : Word)
    (hx : Lockstep R x) : Lockstep R (straight pcAfter x) :=
  hx.bind fun _ => .pure

namespace Respected

variable {R : Machine → Machine → Prop} (h : Respected R)

include h

section

variable {i : Instruction}

theorem loadByte (pcAfter : Word) (signed : Bool) : Lockstep R (loadByte i pcAfter signed) :=
  h.effective.bind fun _ => (h.readMem _ _ (.inl rfl)).bind fun _ => .pure

theorem loadHalf (pcAfter : Word) (signed : Bool) : Lockstep R (loadHalf i pcAfter signed) :=
  h.effective.bind fun _ => .ite (h.raiseException _ _)
    ((h.readMem _ _ (.inr (.inl rfl))).bind fun _ => .pure)

theorem loadWord (pcAfter : Word) : Lockstep R (loadWord i pcAfter) :=
  h.effective.bind fun _ => .ite (h.raiseException _ _)
    ((h.readMem _ _ (.inr (.inr rfl))).bind fun _ => .pure)

theorem loadUnaligned (pcAfter : Word) (merge : Word → Word → Word → Word) :
    Lockstep R (loadUnaligned i pcAfter merge) :=
  h.effective.bind fun _ => (h.readMem _ _ (.inr (.inr rfl))).bind fun _ =>
    (h.forwarded _).bind fun _ => .pure

theorem storeReg {size : Nat} (hsize : size = 1 ∨ size = 2 ∨ size = 4) :
    Lockstep R (storeReg i size) :=
  h.effective.bind fun _ => (h.reg _).bind fun _ => h.writeMem _ _ _ hsize

theorem storeUnaligned (split : Word → Word → Word → Word) :
    Lockstep R (storeUnaligned i split) :=
  h.effective.bind fun _ => (h.readMem _ _ (.inr (.inr rfl))).bind fun _ =>
    (h.reg _).bind fun _ => h.writeMem _ _ _ (.inr (.inr rfl))

end

/-! ## The instruction -/

theorem execute (i : Instruction) : Lockstep R (execute i) := by
  obtain ⟨value, opCode, rs, rt, rd, extra⟩ := i
  refine (h.reg nextPCReg).bind fun next => ?_
  cases opCode with
  | add | sub =>
    exact straight_lockstep _ ((h.reg _).bind fun _ => (h.reg _).bind fun _ =>
      h.trapping rd _ _)
  | addi => exact straight_lockstep _ ((h.reg _).bind fun _ => h.trapping rt _ _)
  | addu | and | nor | or | sllv | slt | sltu | srav | srlv | subu | xor =>
    exact straight_lockstep _ (h.alu rd _ _ _)
  | addiu | andi | ori | slti | sltiu | xori => exact straight_lockstep _ (h.aluImm rt _ _)
  | sll | sra | srl => exact straight_lockstep _ (h.aluImm rd _ _)
  | lui => exact straight_lockstep _ (h.setReg _ _)
  | beq | bne => exact (h.reg _).bind fun _ => (h.reg _).bind fun _ => h.branch _ _
  | bgez | bgtz | blez | bltz => exact (h.reg _).bind fun _ => h.branch _ _
  | bgezal | bltzal => exact (h.link 31).bind fun _ => (h.reg _).bind fun _ => h.branch _ _
  | j => exact .pure
  | jal => exact (h.link 31).bind fun _ => .pure
  | jr => exact (h.reg _).bind fun _ => .pure
  | jalr => exact (h.link rd).bind fun _ => (h.reg _).bind fun _ => .pure
  | div =>
    exact straight_lockstep _ ((h.reg _).bind fun _ => (h.reg _).bind fun _ => h.divSigned _ _)
  | divu =>
    exact straight_lockstep _ ((h.reg _).bind fun _ => (h.reg _).bind fun _ => h.divUnsigned _ _)
  | mult | multu =>
    exact straight_lockstep _ ((h.reg _).bind fun _ => (h.reg _).bind fun _ => h.setHiLo _ _)
  | mfhi | mflo | mthi | mtlo =>
    exact straight_lockstep _ ((h.reg _).bind fun _ => h.setReg _ _)
  | lb | lbu => exact h.loadByte _ _
  | lh | lhu => exact h.loadHalf _ _
  | lw => exact h.loadWord _
  | lwl | lwr => exact h.loadUnaligned _ _
  | sb => exact straight_lockstep _ (h.storeReg (.inl rfl))
  | sh => exact straight_lockstep _ (h.storeReg (.inr (.inl rfl)))
  | sw => exact straight_lockstep _ (h.storeReg (.inr (.inr rfl)))
  | swl | swr => exact straight_lockstep _ (h.storeUnaligned _)
  | syscall | unimp | res => exact h.raiseException _ _
  | rfe => exact .throw

theorem oneInstruction : Lockstep R oneInstruction := by
  unfold Machine.oneInstruction retire
  refine (h.reg _).bind fun pc => (h.readMem pc 4 (.inr (.inr rfl))).bind fun raw => ?_
  refine (h.execute _).bind fun n => (h.delayedLoad _ _).bind fun _ => ?_
  refine (h.reg _).bind fun _ => (h.setReg _ _).bind fun _ => ?_
  exact (h.reg _).bind fun _ => (h.setReg _ _).bind fun _ => h.setReg _ _

end Respected

end Machine
end Nachos
