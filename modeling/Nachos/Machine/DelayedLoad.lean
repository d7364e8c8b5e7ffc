import Nachos.Lib.Agreement
import Nachos.Machine.Execute

/-!
# The delayed load

What `DelayedLoad` does to the registers, and with it what the end of an
instruction does.  Register 0 reads as 0 between any two instructions.
-/

namespace Nachos
namespace Machine

open Lib

/-- The registers after `DelayedLoad`. -/
def loaded (r : Registers) (nextReg nextValue : Word) : Registers := fun j =>
  if j = 0 then 0
  else if j = loadValueReg then nextValue
  else if j = loadReg then nextReg
  else if j.val = (r loadReg).toNat then r loadValueReg
  else r j

/-- The registers after `retire`. -/
def retired (r : Registers) (next : Next) : Registers :=
  let d := loaded r next.nextLoadReg next.nextLoadValue
  fun j =>
    if j = nextPCReg then next.pcAfter
    else if j = pcReg then d nextPCReg
    else if j = prevPCReg then d pcReg
    else d j

theorem setRegAt_run {m : Machine} {i : Word} (h : i.toNat < numTotalRegs) (v : Word) :
    setRegAt i v m
      = .ok () { m with registers := fun j => if j.val = i.toNat then v else m.registers j } := by
  have hset : setRegAt i v m = setReg ⟨i.toNat, h⟩ v m := by
    unfold setRegAt
    rw [dif_pos h]
  have hreg : (fun j => if j = ⟨i.toNat, h⟩ then v else m.registers j)
      = fun j : Reg => if j.val = i.toNat then v else m.registers j := by
    funext j
    simp only [Fin.ext_iff]
  rw [hset, ← hreg]
  rfl

theorem delayedLoad_run {m : Machine} (h : (m.registers loadReg).toNat < numTotalRegs)
    (a b : Word) : delayedLoad a b m = .ok () { m with registers := loaded m.registers a b } := by
  unfold delayedLoad
  rw [bind_run (show reg loadReg m = .ok _ m from rfl),
    bind_run (show reg loadValueReg m = .ok _ m from rfl), bind_run (setRegAt_run h _)]
  rfl

theorem retire_run {m : Machine} (h : (m.registers loadReg).toNat < numTotalRegs) (next : Next) :
    retire next m = .ok () { m with registers := retired m.registers next } := by
  unfold retire
  rw [bind_run (delayedLoad_run h _ _)]
  rfl

/-- With `LoadReg` in range an exception always gets to the kernel, and the
pending load is done before. -/
theorem raiseException_run {α : Type} {m : Machine}
    (h : (m.registers loadReg).toNat < numTotalRegs) (which : ExceptionType) (a : Word) :
    (raiseException which a : Sim α) m = .error (.exception which) { m with
      registers := loaded (fun j => if j = badVAddrReg then a else m.registers j) 0 0 } := by
  have hrun := delayedLoad_run (m := { m with
    registers := fun j => if j = badVAddrReg then a else m.registers j }) h 0 0
  unfold raiseException
  rw [bind_run (show setReg badVAddrReg a m = .ok () _ from rfl)]
  exact (bind_run hrun).trans rfl

theorem zero_of_delayedLoad {m m' : Machine} {a b : Word} (h : delayedLoad a b m = .ok () m') :
    m'.registers 0 = 0 := by
  unfold delayedLoad at h
  obtain ⟨_, _, _, h⟩ := bind_ok.mp h
  obtain ⟨_, _, _, h⟩ := bind_ok.mp h
  obtain ⟨_, _, _, h⟩ := bind_ok.mp h
  obtain ⟨_, _, _, h⟩ := bind_ok.mp h
  obtain ⟨_, _, _, h⟩ := bind_ok.mp h
  cases h
  rfl

theorem zero_of_retire {m m' : Machine} {next : Next} (h : retire next m = .ok () m') :
    m'.registers 0 = 0 := by
  unfold retire at h
  obtain ⟨_, m₁, hload, h⟩ := bind_ok.mp h
  have hzero : m₁.registers 0 = 0 := zero_of_delayedLoad hload
  cases h
  exact hzero

/-- Register 0 reads as 0 after every instruction, and `zero_of_delayedLoad` says
the same of a delayed load that an interrupt applies. -/
theorem zero_of_oneInstruction {m m' : Machine} (h : oneInstruction m = .ok () m') :
    m'.registers 0 = 0 := by
  unfold oneInstruction at h
  obtain ⟨_, _, _, h⟩ := bind_ok.mp h
  obtain ⟨_, _, _, h⟩ := bind_ok.mp h
  obtain ⟨_, _, _, h⟩ := bind_ok.mp h
  exact zero_of_retire h

theorem loaded_zero (r : Registers) (a b : Word) : loaded r a b 0 = 0 := rfl

end Machine
end Nachos
