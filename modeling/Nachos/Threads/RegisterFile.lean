import Nachos.Lib.System
import Nachos.Machine.Exceptions
import Nachos.Threads.Kernel

/-!
# The register file over whole runs

User programs run one after the other on one set of registers.  A register file may
be saved and restored at any moment, also while a load is pending.
-/

namespace Nachos
namespace Threads

open Lib Machine

/-! ## Runs -/

/-- A register file, with the instruction that it comes from.  There is none at the
start, and none once the load has been done apart from the next instruction. -/
structure RegisterFile where
  registers : Registers
  last : Option Instruction

/-- The machine, and the register files in thread control blocks. -/
structure Processor where
  machine : Machine
  last : Option Instruction
  userRegisters : List RegisterFile

namespace Processor

/-- The registers of the machine. -/
def file (p : Processor) : RegisterFile := ⟨p.machine.registers, p.last⟩

/-- The same with other registers. -/
def load (p : Processor) (f : RegisterFile) : Processor :=
  { p with machine := { p.machine with registers := f.registers }, last := f.last }

/-- The load is done, by an interrupt or an exception, and no instruction is
executed. -/
inductive Commits (p : Processor) : Machine → Prop
  | interrupt {m : Machine} (hrun : delayedLoad 0 0 p.machine = .ok () m) : Commits p m
  | exception {which : ExceptionType} {m : Machine}
      (hrun : oneInstruction p.machine = .error (.exception which) m) : Commits p m

inductive Step (p : Processor) : Processor → Prop
  | initRegisters (space : AddrSpace) : Step p (p.load ⟨space.initRegisters, none⟩)
  | instruction {i : Instruction} {m : Machine} (hi : fetched p.machine = some i)
      (hrun : oneInstruction p.machine = .ok () m) :
      Step p { p with machine := m, last := some i }
  | commit {m : Machine} (hcommit : p.Commits m) : Step p { p with machine := m, last := none }
  | saveUserState : Step p { p with userRegisters := p.file :: p.userRegisters }
  | restoreUserState (f : RegisterFile) (hf : f ∈ p.userRegisters) : Step p (p.load f)
  /-- the kernel loads programs and switches page tables -/
  | memory (memory : Memory) : Step p { p with machine := { p.machine with memory := memory } }

/-- A program is about to be started, and nothing is saved. -/
structure Initial (p : Processor) : Prop where
  file : ∃ space : AddrSpace, p.file = ⟨space.initRegisters, none⟩
  userRegisters : p.userRegisters = []

def runs : System Processor := ⟨Initial, Step⟩

end Processor

/-! ## What holds of every register file -/

namespace RegisterFile

/-- A load into `g` was started by the last instruction and is not done yet. -/
def Awaits (f : RegisterFile) (g : GPReg) : Prop :=
  ∃ i, f.last = some i ∧ i.loads = true ∧ i.rt = g

structure Sound (f : RegisterFile) : Prop where
  zero : f.registers 0 = 0
  pending : f.registers loadReg = 0 ∨ ∃ g, f.Awaits g ∧ f.registers loadReg = regNo g

variable {f : RegisterFile}

theorem Sound.loadReg_lt (h : f.Sound) : (f.registers loadReg).toNat < 32 := by
  rcases h.pending with h0 | ⟨g, _, hg⟩
  · rw [h0]
    decide
  · rw [hg, regNo_toNat]
    exact g.isLt

/-- The only general register that a delayed load changes. -/
theorem Sound.awaits (h : f.Sound) {g : GPReg} (hg : g ≠ 0)
    (heq : (gp g).val = (f.registers loadReg).toNat) : f.Awaits g := by
  rcases h.pending with h0 | ⟨g', hawaits, hg'⟩
  · rw [h0] at heq
    exact absurd (Fin.ext heq) hg
  · rw [hg', regNo_toNat, gp_val] at heq
    cases Fin.ext heq
    exact hawaits

theorem initRegisters_sound (space : AddrSpace) : Sound ⟨space.initRegisters, none⟩ :=
  ⟨rfl, .inl rfl⟩

theorem loaded_gp_other {r : Registers} {g : GPReg} (hg : g ≠ 0)
    (h : (gp g).val ≠ (r loadReg).toNat) (a b : Word) : loaded r a b (gp g) = r (gp g) :=
  loaded_of_ne a b (gp_ne_zero hg) (gp_ne_special (by decide)).symm
    (gp_ne_special (by decide)).symm h

/-- After an instruction. -/
theorem Sound.executed {p : Processor} (h : p.file.Sound) {i : Instruction} {m : Machine}
    (hi : fetched p.machine = some i) (hrun : oneInstruction p.machine = .ok () m) :
    Sound ⟨m.registers, some i⟩ ∧
      ∀ g, g ≠ 0 → m.registers (gp g) ≠ p.machine.registers (gp g) →
        i.dest = some g ∨ p.file.Awaits g := by
  obtain ⟨i', n, hexec⟩ := (oneInstruction_triple p.machine).ok rfl hrun
  cases hi.symm.trans hexec.fetched
  obtain ⟨m₂, heffect, rfl⟩ := hexec.effect
  refine ⟨⟨rfl, ?_⟩, fun g hg hne => ?_⟩
  · rcases heffect.load with h0 | ⟨hloads, hn⟩
    · exact .inl h0
    · exact .inr ⟨i.rt, ⟨i, rfl, hloads, rfl⟩, hn⟩
  · by_contra hno
    rw [not_or] at hno
    have hload := heffect.registers _ (loadReg_kept i.dest)
    have hother : (gp g).val ≠ (m₂.registers loadReg).toNat := by
      rw [hload]
      exact fun heq => hno.2 (h.awaits hg heq)
    apply hne
    calc retired m₂.registers n (gp g)
        = loaded m₂.registers n.nextLoadReg n.nextLoadValue (gp g) := by
          have hpc : ∀ j : Reg, 32 ≤ j.val → gp g ≠ j := fun j hj => (gp_ne_special hj).symm
          unfold retired
          rw [if_neg (hpc _ (by decide)), if_neg (hpc _ (by decide)), if_neg (hpc _ (by decide))]
      _ = m₂.registers (gp g) := loaded_gp_other hg hother _ _
      _ = p.machine.registers (gp g) := heffect.registers _ (gp_kept hno.1)

/-- After the pending load. -/
theorem Sound.committed {p : Processor} (h : p.file.Sound) {m : Machine} (hm : p.Commits m) :
    Sound ⟨m.registers, none⟩ ∧
      ∀ g, g ≠ 0 → m.registers (gp g) ≠ p.machine.registers (gp g) → p.file.Awaits g := by
  have hlt : (p.machine.registers loadReg).toNat < numTotalRegs :=
    Nat.lt_trans h.loadReg_lt (by decide)
  obtain ⟨r, hr, hload, hgp⟩ : ∃ r : Registers, m.registers = loaded r 0 0 ∧
      r loadReg = p.machine.registers loadReg ∧
      ∀ g, r (gp g) = p.machine.registers (gp g) := by
    cases hm with
    | interrupt hrun =>
      rw [delayedLoad_run hlt] at hrun
      cases hrun
      exact ⟨_, rfl, rfl, fun _ => rfl⟩
    | exception hrun =>
      refine ⟨_, ((oneInstruction_triple p.machine).error rfl hrun).1, rfl, fun g => ?_⟩
      exact if_neg (gp_ne_special (by decide)).symm
  rw [hr]
  refine ⟨⟨rfl, .inl rfl⟩, fun g hg hne => ?_⟩
  by_contra hno
  refine hne ((loaded_gp_other hg ?_ 0 0).trans (hgp g))
  rw [hload]
  exact fun heq => hno (h.awaits hg heq)

end RegisterFile

/-! ## Runs -/

namespace Processor

structure Sound (p : Processor) : Prop where
  file : p.file.Sound
  userRegisters : ∀ f ∈ p.userRegisters, f.Sound

theorem sound_of_reachable {p : Processor} (h : runs.Reachable p) : p.Sound := by
  refine h.induct (fun p hp => ?_) fun p p' hp hstep => ?_
  · obtain ⟨space, hfile⟩ := hp.file
    refine ⟨hfile ▸ RegisterFile.initRegisters_sound space, fun f hf => ?_⟩
    rw [hp.userRegisters] at hf
    cases hf
  · cases hstep with
    | initRegisters space => exact ⟨RegisterFile.initRegisters_sound space, hp.userRegisters⟩
    | instruction hi hrun => exact ⟨(hp.file.executed hi hrun).1, hp.userRegisters⟩
    | commit hcommit => exact ⟨(hp.file.committed hcommit).1, hp.userRegisters⟩
    | saveUserState => exact ⟨hp.file, List.forall_mem_cons.mpr ⟨hp.file, hp.userRegisters⟩⟩
    | restoreUserState f hf => exact ⟨hp.userRegisters f hf, hp.userRegisters⟩
    | memory memory => exact ⟨hp.file, hp.userRegisters⟩

/-- **The register file.**  Before every instruction of every run register 0 reads as
0 and a pending load is for a general register.  An instruction changes no other
general register than the one it writes and the one its predecessor loads, and a load
done apart changes no other than the latter. -/
theorem register_file {p : Processor} (h : runs.Reachable p) :
    p.machine.registers 0 = 0 ∧ (p.machine.registers loadReg).toNat < 32 ∧
    (∀ i m, fetched p.machine = some i → oneInstruction p.machine = .ok () m →
      ∀ g, g ≠ 0 → m.registers (gp g) ≠ p.machine.registers (gp g) →
        i.dest = some g ∨ p.file.Awaits g) ∧
    ∀ m, p.Commits m → ∀ g, g ≠ 0 → m.registers (gp g) ≠ p.machine.registers (gp g) →
      p.file.Awaits g := by
  have hp := sound_of_reachable h
  exact ⟨hp.file.zero, hp.file.loadReg_lt, fun i m hi hrun => (hp.file.executed hi hrun).2,
    fun m hm => (hp.file.committed hm).2⟩

/-- Two pages, with `LW r2, 0(r0)` where the program starts. -/
def started : Processor where
  machine :=
    { registers := AddrSpace.initRegisters ⟨0, 2⟩
      memory :=
        { mainMemory := fun a => if a.val / 4 = 32 then byteOf 0x8c020000 (a.val % 4) else 7
          tlb := none
          pageTables := fun _ vpn => ⟨0, BitVec.ofNat 32 vpn, true, false, false, false⟩
          currentPageTable := some 0
          currentPageTableSize := 2 } }
  last := none
  userRegisters := []

/-- The load is executed, its registers are saved, another program is started, and they are
restored: `r2` still waits for the word. -/
theorem register_file_restored :
    ∃ p : Processor, runs.Reachable p ∧ p.file.Awaits 2 ∧
      p.machine.registers loadReg = 2 ∧ p.machine.registers loadValueReg = 0x07070707 ∧
      p.machine.registers 0 = 0 ∧
      (∀ i m, fetched p.machine = some i → oneInstruction p.machine = .ok () m →
        ∀ g, g ≠ 0 → m.registers (gp g) ≠ p.machine.registers (gp g) →
          i.dest = some g ∨ p.file.Awaits g) ∧
      ∀ m, p.Commits m → ∀ g, g ≠ 0 → m.registers (gp g) ≠ p.machine.registers (gp g) →
        p.file.Awaits g := by
  have hfetch : fetched started.machine = some (decode 0x8c020000) := by decide +kernel
  have hrun : oneInstruction started.machine =
      .ok () (machineAfter oneInstruction started.machine) :=
    run_machineAfter (j := loadReg) (v := 2) (by decide +kernel)
  have hs : runs.Reachable started := .of_init ⟨⟨⟨0, 2⟩, rfl⟩, rfl⟩
  have hs := hs.step (.instruction hfetch hrun)
  have hs := hs.step .saveUserState
  have hs := hs.step (.initRegisters ⟨0, 2⟩)
  have hs := hs.step (.restoreUserState _ List.mem_cons_self)
  obtain ⟨hzero, -, hexecuted, hcommits⟩ := register_file hs
  exact ⟨_, hs, ⟨_, rfl, rfl, rfl⟩, by decide +kernel, by decide +kernel, hzero, hexecuted,
    hcommits⟩

end Processor

end Threads
end Nachos
