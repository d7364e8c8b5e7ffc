import Nachos.Lib.Assembly
import Nachos.Threads.Kernel

/-!
# Context switches

The assembly for x86-64 that goes from one thread to another: `SWITCH` saves the registers
of the old thread in its object and loads those of the new one, and `ThreadRoot` is where a
new thread starts, with the registers that `Thread::StackAllocate` has prepared.

The text of both starts at `text 0`, `ThreadRoot` first.
-/

namespace Nachos
namespace Threads

open Lib Assembly

/-! ## The Thread object -/

-- the offsets of the registers from the beginning of the thread object
namespace Slot

abbrev rsp : Nat := 0
abbrev rax : Nat := 8
abbrev rbx : Nat := 16
abbrev rcx : Nat := 24
abbrev rdx : Nat := 32
abbrev rbp : Nat := 40
abbrev rsi : Nat := 48
abbrev rdi : Nat := 56
abbrev r12 : Nat := 64
abbrev r13 : Nat := 72
abbrev r14 : Nat := 80
abbrev r15 : Nat := 88
abbrev pc : Nat := 96

end Slot

abbrev pcState : Nat := Slot.pc / 8 - 1
abbrev initialPCState : Nat := Slot.rsi / 8 - 1
abbrev initialArgState : Nat := Slot.rdx / 8 - 1
abbrev whenDonePCState : Nat := Slot.rdi / 8 - 1
abbrev startupPCState : Nat := Slot.rcx / 8 - 1

abbrev machineStateSize : Nat := 32

/-- In words. -/
abbrev stackSize : Nat := 8 * 1024

abbrev stackFencepost : Nat := 0xdeadbeef

/-- The bytes of `stackTop` and `machineState`, which come first in a `Thread`. -/
abbrev contextSize : Nat := 8 * (1 + machineStateSize)

/-- The address of `machineState[i]`. -/
def machineState (thread i : Nat) : Nat := thread + 8 + 8 * i

/-- The address in `stackTop` of a new thread: there is room for the return address, and it
is aligned for SSE. -/
def stackTop (stack : Nat) : Nat := stack + 8 * (stackSize - 16)

/-! ## The code -/

abbrev initialPC : Register := .rsi
abbrev initialArg : Register := .rdx
abbrev whenDonePC : Register := .rdi
abbrev startupPC : Register := .rcx

def threadRoot : List Instr :=
  [.xorq .rbp .rbp,
    .subq 8 .rsp,
    .pushq whenDonePC,
    .pushq initialPC,
    .pushq initialArg,
    .call startupPC,
    .movq (.mem 0 .rsp) (.reg .rdi),
    .movq (.mem 8 .rsp) (.reg initialPC),
    .call initialPC,
    .movq (.mem 16 .rsp) (.reg whenDonePC),
    .call whenDonePC,
    -- not reached
    .popq initialArg,
    .popq initialPC,
    .popq whenDonePC,
    .addq 8 .rsp,
    .movq (.reg .rbp) (.reg .rsp),
    .popq .rbp,
    .ret]

/-- `SWITCH`, with the address of `_rax_save`. -/
def switch (raxSave : Nat) : List Instr :=
  [.movq (.reg .rax) (.var raxSave),
    .movq (.reg .rdi) (.reg .rax),
    .movq (.reg .rbx) (.mem Slot.rbx .rax),
    .movq (.reg .rcx) (.mem Slot.rcx .rax),
    .movq (.reg .rdx) (.mem Slot.rdx .rax),
    .movq (.reg .rsi) (.mem Slot.rsi .rax),
    .movq (.reg .rdi) (.mem Slot.rdi .rax),
    .movq (.reg .r12) (.mem Slot.r12 .rax),
    .movq (.reg .r13) (.mem Slot.r13 .rax),
    .movq (.reg .r14) (.mem Slot.r14 .rax),
    .movq (.reg .r15) (.mem Slot.r15 .rax),
    .movq (.reg .rbp) (.mem Slot.rbp .rax),
    .movq (.reg .rsp) (.mem Slot.rsp .rax),
    .movq (.var raxSave) (.reg .rbx),
    .movq (.reg .rbx) (.mem Slot.rax .rax),
    .movq (.mem 0 .rsp) (.reg .rbx),
    .movq (.reg .rbx) (.mem Slot.pc .rax),
    .movq (.reg .rsi) (.reg .rax),
    .movq (.mem Slot.rax .rax) (.reg .rbx),
    .movq (.reg .rbx) (.var raxSave),
    .movq (.mem Slot.rbx .rax) (.reg .rbx),
    .movq (.mem Slot.rcx .rax) (.reg .rcx),
    .movq (.mem Slot.rdx .rax) (.reg .rdx),
    .movq (.mem Slot.rsi .rax) (.reg .rsi),
    .movq (.mem Slot.rdi .rax) (.reg .rdi),
    .movq (.mem Slot.r12 .rax) (.reg .r12),
    .movq (.mem Slot.r13 .rax) (.reg .r13),
    .movq (.mem Slot.r14 .rax) (.reg .r14),
    .movq (.mem Slot.r15 .rax) (.reg .r15),
    .movq (.mem Slot.rbp .rax) (.reg .rbp),
    .movq (.mem Slot.rsp .rax) (.reg .rsp),
    .movq (.mem Slot.pc .rax) (.reg .rax),
    .movq (.reg .rax) (.mem 0 .rsp),
    .movq (.var raxSave) (.reg .rax),
    .ret]

/-- The label `SWITCH`. -/
def switchLabel : Nat := threadRoot.length

/-- `Thread::StackAllocate`, with the thread object at `thread` and its stack at `stack`. -/
def stackAllocate (text : Nat → Nat) (setupThreadState threadFinish thread stack func arg : Nat)
    (m : Mem) : Mem :=
  let m := Function.update m (thread + Slot.rsp) (stackTop stack)
  let m := Function.update m stack stackFencepost
  let m := assign m ((List.range machineStateSize).map fun i => (machineState thread i, 0))
  assign m
    [(machineState thread pcState, text 0),
      (machineState thread startupPCState, setupThreadState),
      (machineState thread initialPCState, func),
      (machineState thread initialArgState, arg),
      (machineState thread whenDonePCState, threadFinish)]

/-! ## What `SWITCH` does -/

/-- The registers that are saved and loaded alike, in the order of the code. -/
def slots : List (Register × Nat) :=
  [(.rbx, Slot.rbx), (.rcx, Slot.rcx), (.rdx, Slot.rdx), (.rsi, Slot.rsi), (.rdi, Slot.rdi),
    (.r12, Slot.r12), (.r13, Slot.r13), (.r14, Slot.r14), (.r15, Slot.r15), (.rbp, Slot.rbp),
    (.rsp, Slot.rsp)]

/-- Memory once the old thread is saved. -/
def saved (raxSave : Nat) (c : Cpu) : Mem :=
  let old := c.regs .rdi
  let m := assign (Function.update c.mem raxSave (c.regs .rax))
    (slots.map fun s => (old + s.2, c.regs s.1))
  let m := Function.update m (old + Slot.rax) (m raxSave)
  Function.update m (old + Slot.pc) (m (c.regs .rsp))

/-- The address is not in the part of a `Thread` that `SWITCH` uses. -/
def Outside (thread a : Nat) : Prop := a < thread ∨ thread + contextSize ≤ a

section

variable {text : Nat → Nat} {raxSave k : Nat} {c : Cpu}

theorem slot_cases {s : Register × Nat} (h : s ∈ slots) : s.2 < 96 ∧ s.2 ≠ 8 := by
  have hall : ∀ s ∈ slots, s.2 < 96 ∧ s.2 ≠ 8 := by decide
  exact hall s h

theorem slots_nodup {f : Register × Nat → Nat} :
    ((slots.map fun s => (s.1, f s)).map Prod.fst).Nodup := by
  have hregisters : (slots.map Prod.fst).Nodup := by decide
  rw [List.map_map]
  exact hregisters

theorem rax_notMem_slots : Register.rax ∉ slots.map Prod.fst := by decide

/-- No other word changes. -/
theorem saved_outside {a : Nat} (ha : Outside (c.regs .rdi) a) (hne : a ≠ raxSave) :
    saved raxSave c a = c.mem a := by
  have hout : a < c.regs .rdi ∨ c.regs .rdi + 264 ≤ a := ha
  have hpc : a ≠ c.regs .rdi + 96 := by omega
  have hrax : a ≠ c.regs .rdi + 8 := by omega
  have hslots : a ∉ (slots.map fun s => (c.regs .rdi + s.2, c.regs s.1)).map Prod.fst := by
    rw [List.map_map, List.mem_map]
    rintro ⟨s, hs, heq⟩
    have hlt := (slot_cases hs).1
    have heq' : c.regs .rdi + s.2 = a := heq
    omega
  unfold saved
  rw [Function.update_of_ne hpc, Function.update_of_ne hrax, assign_of_notMem hslots,
    Function.update_of_ne hne]

/-- The object holds the registers of the old thread. -/
theorem saved_slot {s : Register × Nat} (hs : s ∈ slots) :
    saved raxSave c (c.regs .rdi + s.2) = c.regs s.1 := by
  obtain ⟨hlt, hne⟩ := slot_cases hs
  have hpc : c.regs .rdi + s.2 ≠ c.regs .rdi + 96 := by omega
  have hrax : c.regs .rdi + s.2 ≠ c.regs .rdi + 8 := by omega
  have hnodup : ((slots.map fun s => (c.regs .rdi + s.2, c.regs s.1)).map Prod.fst).Nodup := by
    have hoffsets : (slots.map Prod.snd).Nodup := by decide
    rw [List.map_map]
    rw [show (Prod.fst ∘ fun s : Register × Nat => (c.regs .rdi + s.2, c.regs s.1)) =
      (c.regs .rdi + ·) ∘ Prod.snd from rfl, ← List.map_map]
    exact hoffsets.map fun x y h => Nat.add_left_cancel h
  unfold saved
  rw [Function.update_of_ne hpc, Function.update_of_ne hrax]
  exact assign_of_mem hnodup (List.mem_map.mpr ⟨s, hs, rfl⟩)

/-- It also holds the return address. -/
theorem saved_pc (hsp : Outside (c.regs .rdi) (c.regs .rsp)) (hne : c.regs .rsp ≠ raxSave) :
    saved raxSave c (c.regs .rdi + Slot.pc) = c.mem (c.regs .rsp) := by
  have hout : c.regs .rsp < c.regs .rdi ∨ c.regs .rdi + 264 ≤ c.regs .rsp := hsp
  have hpc : c.regs .rsp ≠ c.regs .rdi + 96 := by omega
  have hsame := saved_outside hsp hne
  unfold saved at hsame ⊢
  rw [Function.update_of_ne hpc] at hsame
  rw [Function.update_self]
  exact hsame

/-- The first half, up to the load of the pointer to the new thread. -/
theorem exec_save (hrax : raxSave ≠ 0) (hold : c.regs .rdi ≠ 0) (hsp : c.regs .rsp ≠ 0)
    (rest : List Instr) :
    ∃ regs : Registers, exec text k ((switch raxSave).take 17 ++ rest) c =
        exec text (k + 17) rest { c with regs, mem := saved raxSave c } ∧
      regs .rsi = c.regs .rsi := by
  have hcode : (switch raxSave).take 17 ++ rest =
      .movq (.reg .rax) (.var raxSave) :: .movq (.reg .rdi) (.reg .rax) ::
      (slots.map (fun s => .movq (.reg s.1) (.mem s.2 .rax)) ++
      .movq (.var raxSave) (.reg .rbx) :: .movq (.reg .rbx) (.mem Slot.rax .rax) ::
      .movq (.mem 0 .rsp) (.reg .rbx) :: .movq (.reg .rbx) (.mem Slot.pc .rax) :: rest) := rfl
  rw [hcode, exec_storeVar hrax, exec_movq rfl rfl]
  change ∃ regs : Registers, exec text _ _
    { c with
      regs := Function.update c.regs .rax (c.regs .rdi)
      mem := Function.update c.mem raxSave (c.regs .rax) } = _ ∧ _
  rw [exec_saves]
  · change ∃ regs : Registers, exec text _ _
      { c with
        regs := Function.update c.regs .rax (c.regs .rdi)
        mem := assign (Function.update c.mem raxSave (c.regs .rax))
          (slots.map fun s => (c.regs .rdi + s.2, c.regs s.1)) } = _ ∧ _
    rw [exec_loadVar hrax, exec_store, exec_load, exec_store]
    · exact ⟨_, rfl, rfl⟩
    · exact Nat.succ_ne_zero _
    · exact hsp
    · exact Nat.succ_ne_zero _
  · intro s _
    have hsum : c.regs .rdi + s.2 ≠ 0 := by omega
    exact hsum

/-- How `SWITCH` leaves the processor: with the registers of the new thread, as they were
saved in `m`, and at the address that they were saved with. -/
structure Loaded (raxSave new : Nat) (m : Mem) (c : Cpu) : Prop where
  slot : ∀ s ∈ slots, s.1 ≠ .rsp → c.regs s.1 = m (new + s.2)
  rsp : c.regs .rsp = m (new + Slot.rsp) + 8
  rip : c.rip = m (new + Slot.pc)
  /-- The return address is on the stack of the new thread. -/
  mem : ∀ a, a ≠ raxSave →
    c.mem a = Function.update m (m (new + Slot.rsp)) (m (new + Slot.pc)) a

/-- The end of the code: it returns to the saved address. -/
theorem exec_return (hrax : raxSave ≠ 0) (hsp : c.regs .rsp ≠ 0) :
    ∃ c', exec text k ((switch raxSave).drop 31) c = some c' ∧
      (∀ r, r ≠ .rsp → r ≠ .rax → c'.regs r = c.regs r) ∧
      c'.regs .rsp = c.regs .rsp + 8 ∧ c'.rip = c.mem (c.regs .rax + Slot.pc) ∧
      c'.mem = Function.update c.mem (c.regs .rsp) (c.mem (c.regs .rax + Slot.pc)) := by
  show ∃ c', exec text k [.movq (.mem Slot.pc .rax) (.reg .rax), .movq (.reg .rax) (.mem 0 .rsp),
    .movq (.var raxSave) (.reg .rax), .ret] c = some c' ∧ _
  rw [exec_load, exec_store, exec_loadVar hrax, exec_ret]
  · refine ⟨_, rfl, ?_, rfl, Function.update_self _ _ _, rfl⟩
    intro r hr hr'
    simp [Cpu.setReg, Function.update_of_ne, hr, hr']
  · exact hsp
  · exact hsp
  · exact Nat.succ_ne_zero _

/-- The store to `_rax_save` does not change a thread object. -/
theorem object_kept {m : Mem} {thread d : Nat} (hout : Outside thread raxSave) (hd : d < 264)
    (v : Nat) : Function.update m raxSave v (thread + d) = m (thread + d) := by
  have hcases : raxSave < thread ∨ thread + 264 ≤ raxSave := hout
  exact Function.update_of_ne (by omega) _ _

/-- The second half. -/
theorem exec_restore (hrax : raxSave ≠ 0) (hnew : c.regs .rsi ≠ 0)
    (hout : Outside (c.regs .rsi) raxSave) (hsp : c.mem (c.regs .rsi + Slot.rsp) ≠ 0) :
    ∃ c', exec text k ((switch raxSave).drop 17) c = some c' ∧
      Loaded raxSave (c.regs .rsi) c.mem c' := by
  have hcode : (switch raxSave).drop 17 =
      .movq (.reg .rsi) (.reg .rax) :: .movq (.mem Slot.rax .rax) (.reg .rbx) ::
      .movq (.reg .rbx) (.var raxSave) ::
      (slots.map (fun s => .movq (.mem s.2 .rax) (.reg s.1)) ++ (switch raxSave).drop 31) := rfl
  rw [hcode, exec_movq rfl rfl, exec_load, exec_storeVar hrax]
  · change ∃ c', exec text _ _
      { c with
        regs := Function.update (Function.update c.regs .rax (c.regs .rsi)) .rbx
          (c.mem (c.regs .rsi + Slot.rax))
        mem := Function.update c.mem raxSave (c.mem (c.regs .rsi + Slot.rax)) } = _ ∧ _
    generalize hm : Function.update c.mem raxSave (c.mem (c.regs .rsi + Slot.rax)) = m
    rw [exec_loads]
    · generalize hregs : (assign _ _ : Registers) = regs
      have hslot : ∀ s ∈ slots, regs s.1 = c.mem (c.regs .rsi + s.2) := by
        intro s hs
        have hlt := (slot_cases hs).1
        have hkept := object_kept (m := c.mem) (d := s.2) hout (by omega)
          (c.mem (c.regs .rsi + Slot.rax))
        rw [← hkept, hm, ← hregs]
        exact assign_of_mem slots_nodup (List.mem_map.mpr ⟨s, hs, rfl⟩)
      have hbase : regs .rax = c.regs .rsi := by
        rw [← hregs, assign_of_notMem]
        · rfl
        · rw [List.map_map]
          exact rax_notMem_slots
      have hsp' : regs .rsp = c.mem (c.regs .rsi + Slot.rsp) := hslot (.rsp, Slot.rsp) (by decide)
      have hpc : m (regs .rax + Slot.pc) = c.mem (c.regs .rsi + Slot.pc) := by
        rw [hbase, ← hm]
        exact object_kept hout (by decide) _
      obtain ⟨c', hexec, hregisters, hrsp, hrip, hmem⟩ :=
        exec_return (c := { c with regs, mem := m }) hrax (hsp'.trans_ne hsp)
      refine ⟨c', hexec, ?_, ?_, hrip.trans hpc, ?_⟩
      · intro s hs hne
        have hrax' : s.1 ≠ .rax := by
          intro heq
          exact rax_notMem_slots (heq ▸ List.mem_map_of_mem hs)
        exact (hregisters s.1 hne hrax').trans (hslot s hs)
      · rw [hrsp, ← hsp']
      · intro a ha
        rw [hmem, ← hsp', ← hpc]
        by_cases hat : a = regs .rsp
        · rw [hat, Function.update_self, Function.update_self]
        · rw [Function.update_of_ne hat, Function.update_of_ne hat, ← hm]
          exact Function.update_of_ne ha _ _
    · exact rax_notMem_slots
    · intro s _
      have hsum : c.regs .rsi + s.2 ≠ 0 := by omega
      exact hsum
  · exact Nat.succ_ne_zero _

/-- **`SWITCH`** returns with the registers that the new thread was saved with. -/
theorem exec_switch (hrax : raxSave ≠ 0) (hold : c.regs .rdi ≠ 0) (hnew : c.regs .rsi ≠ 0)
    (hsp : c.regs .rsp ≠ 0) (hout : Outside (c.regs .rsi) raxSave)
    (hload : saved raxSave c (c.regs .rsi + Slot.rsp) ≠ 0) :
    ∃ c', exec text k (switch raxSave) c = some c' ∧
      Loaded raxSave (c.regs .rsi) (saved raxSave c) c' := by
  obtain ⟨regs, hsave, hrsi⟩ : ∃ regs : Registers,
      exec text k ((switch raxSave).take 17 ++ (switch raxSave).drop 17) c =
        exec text (k + 17) ((switch raxSave).drop 17) { c with regs, mem := saved raxSave c } ∧
      regs .rsi = c.regs .rsi := exec_save hrax hold hsp _
  rw [List.take_append_drop] at hsave
  rw [hsave, ← hrsi]
  rw [← hrsi] at hnew hout hload
  exact exec_restore hrax hnew hout hload

/-! ## What `ThreadRoot` does -/

/-- A function has been called with one argument.  Behind its return address are the three
words that `ThreadRoot` has pushed, below `top`. -/
structure Called (m : Mem) (top return_ target arg : Nat) (c : Cpu) : Prop where
  rip : c.rip = target
  rdi : c.regs .rdi = arg
  rsp : c.regs .rsp = top - 32
  rbp : c.regs .rbp = 0
  mem : c.mem = Function.update m (top - 32) return_

variable {top : Nat}

/-- The first call, of `StartupPC`. -/
theorem exec_startup (htop : 32 < top) (hsp : c.regs .rsp = top + 8) :
    ∃ c', exec text 0 threadRoot c = some c' ∧
      Called (assign c.mem [(top - 8, c.regs .rdi), (top - 16, c.regs .rsi),
        (top - 24, c.regs .rdx)]) top (text 6) (c.regs .rcx) (c.regs .rdi) c' := by
  -- the stack pointer goes down by a word with each push
  have h₁ : top + 8 - 8 - 8 = top - 8 := by omega
  have h₂ : top - 8 - 8 = top - 16 := by omega
  have h₃ : top - 16 - 8 = top - 24 := by omega
  have h₄ : top - 24 - 8 = top - 32 := by omega
  unfold threadRoot
  change ∃ c', exec text 2 _
    { c with
      regs := Function.update (Function.update c.regs .rbp (c.regs .rbp ^^^ c.regs .rbp)) .rsp
        (c.regs .rsp - 8) } = _ ∧ _
  rw [hsp, exec_pushq, exec_pushq, exec_pushq, exec_call]
  · refine ⟨_, rfl, rfl, rfl, ?_, Nat.xor_self _, ?_⟩
    · show top + 8 - 8 - 8 - 8 - 8 - 8 = top - 32
      omega
    · show Function.update (Function.update (Function.update (Function.update c.mem
          (top + 8 - 8 - 8) (c.regs .rdi)) (top + 8 - 8 - 8 - 8) (c.regs .rsi))
          (top + 8 - 8 - 8 - 8 - 8) (c.regs .rdx)) (top + 8 - 8 - 8 - 8 - 8 - 8) (text 6) = _
      rw [h₁, h₂, h₃, h₄]
      rfl
  · show top + 8 - 8 - 8 - 8 - 8 - 8 ≠ 0
    omega
  · show top + 8 - 8 - 8 - 8 - 8 ≠ 0
    omega
  · show top + 8 - 8 - 8 - 8 ≠ 0
    omega
  · show top + 8 - 8 - 8 ≠ 0
    omega

/-- The second one, of `InitialPC`. -/
theorem exec_initial (htop : 32 < top) (hsp : c.regs .rsp = top - 24) (hbp : c.regs .rbp = 0) :
    ∃ c', exec text 6 (threadRoot.drop 6) c = some c' ∧
      Called c.mem top (text 9) (c.mem (top - 16)) (c.mem (top - 24)) c' := by
  have harg : top - 24 + 8 = top - 16 := by omega
  have hpush : top - 24 - 8 = top - 32 := by omega
  show ∃ c', exec text 6 (.movq (.mem 0 .rsp) (.reg .rdi) ::
    .movq (.mem 8 .rsp) (.reg initialPC) :: .call initialPC :: threadRoot.drop 9) c = _ ∧ _
  rw [exec_load, exec_load, exec_call]
  · refine ⟨_, rfl, ?_, ?_, ?_, hbp, ?_⟩
    · show c.mem (c.regs .rsp + 8) = _
      rw [hsp, harg]
    · show c.mem (c.regs .rsp + 0) = _
      rw [hsp, Nat.add_zero]
    · show c.regs .rsp - 8 = _
      rw [hsp, hpush]
    · show Function.update c.mem (c.regs .rsp - 8) (text 9) = _
      rw [hsp, hpush]
  · show c.regs .rsp - 8 ≠ 0
    omega
  · exact Nat.succ_ne_zero _
  · show c.regs .rsp + 0 ≠ 0
    omega

/-- The last one, of `WhenDonePC`. -/
theorem exec_whenDone (htop : 32 < top) (hsp : c.regs .rsp = top - 24) (hbp : c.regs .rbp = 0) :
    ∃ c', exec text 9 (threadRoot.drop 9) c = some c' ∧
      Called c.mem top (text 11) (c.mem (top - 8)) (c.mem (top - 8)) c' := by
  have hdone : top - 24 + 16 = top - 8 := by omega
  have hpush : top - 24 - 8 = top - 32 := by omega
  show ∃ c', exec text 9 (.movq (.mem 16 .rsp) (.reg whenDonePC) :: .call whenDonePC ::
    threadRoot.drop 11) c = _ ∧ _
  rw [exec_load, exec_call]
  · refine ⟨_, rfl, ?_, ?_, ?_, hbp, ?_⟩
    · show c.mem (c.regs .rsp + 16) = _
      rw [hsp, hdone]
    · show c.mem (c.regs .rsp + 16) = _
      rw [hsp, hdone]
    · show c.regs .rsp - 8 = _
      rw [hsp, hpush]
    · show Function.update c.mem (c.regs .rsp - 8) (text 11) = _
      rw [hsp, hpush]
  · show c.regs .rsp - 8 ≠ 0
    omega
  · exact Nat.succ_ne_zero _

/-- What is behind it is not reached: the thread would take the frame pointer 0 for its
stack. -/
theorem exec_notReached (hsp : c.regs .rsp ≠ 0) (hbp : c.regs .rbp = 0) :
    exec text 11 (threadRoot.drop 11) c = none := by
  show exec text 11 [.popq initialArg, .popq initialPC, .popq whenDonePC, .addq 8 .rsp,
    .movq (.reg .rbp) (.reg .rsp), .popq .rbp, .ret] c = none
  rw [exec_popq hsp, exec_popq, exec_popq]
  · exact exec_popq_null hbp
  · exact Nat.succ_ne_zero _
  · exact Nat.succ_ne_zero _

/-! ## What `StackAllocate` does -/

/-- What the object of a new thread holds, for `SWITCH` and `ThreadRoot`. -/
structure Prepared (text : Nat → Nat) (setupThreadState threadFinish thread stack func arg : Nat)
    (m : Mem) : Prop where
  stackTop : m (thread + Slot.rsp) = stackTop stack
  pc : m (thread + Slot.pc) = text 0
  startup : m (thread + Slot.rcx) = setupThreadState
  initialPC : m (thread + Slot.rsi) = func
  initialArg : m (thread + Slot.rdx) = arg
  whenDone : m (thread + Slot.rdi) = threadFinish

variable {setupThreadState threadFinish thread stack func arg : Nat} {m : Mem}

theorem Prepared.congr {m' : Mem}
    (h : Prepared text setupThreadState threadFinish thread stack func arg m)
    (hmem : ∀ d < 264, m' (thread + d) = m (thread + d)) :
    Prepared text setupThreadState threadFinish thread stack func arg m' where
  stackTop := (hmem Slot.rsp (by decide)).trans h.stackTop
  pc := (hmem Slot.pc (by decide)).trans h.pc
  startup := (hmem Slot.rcx (by decide)).trans h.startup
  initialPC := (hmem Slot.rsi (by decide)).trans h.initialPC
  initialArg := (hmem Slot.rdx (by decide)).trans h.initialArg
  whenDone := (hmem Slot.rdi (by decide)).trans h.whenDone

/-- The indexes of the slots are those of their offsets. -/
theorem machineState_slot (thread : Nat) {d : Nat} (hd : 8 ∣ d) (hpos : 8 ≤ d) :
    machineState thread (d / 8 - 1) = thread + d := by
  unfold machineState
  omega

/-- The words that `StackAllocate` sets after it has cleared them all. -/
def prepared (text : Nat → Nat) (setupThreadState threadFinish thread func arg : Nat) :
    List (Nat × Nat) :=
  [(Slot.pc, text 0), (Slot.rcx, setupThreadState), (Slot.rsi, func), (Slot.rdx, arg),
    (Slot.rdi, threadFinish)].map fun w => (thread + w.1, w.2)

theorem stackAllocate_eq :
    stackAllocate text setupThreadState threadFinish thread stack func arg m =
      assign (assign (Function.update (Function.update m (thread + Slot.rsp) (stackTop stack)) stack
          stackFencepost) ((List.range machineStateSize).map fun i => (machineState thread i, 0)))
        (prepared text setupThreadState threadFinish thread func arg) := by
  have hpc : machineState thread pcState = thread + Slot.pc :=
    machineState_slot thread (by decide) (by decide)
  have hstartup : machineState thread startupPCState = thread + Slot.rcx :=
    machineState_slot thread (by decide) (by decide)
  have hinitial : machineState thread initialPCState = thread + Slot.rsi :=
    machineState_slot thread (by decide) (by decide)
  have harg : machineState thread initialArgState = thread + Slot.rdx :=
    machineState_slot thread (by decide) (by decide)
  have hdone : machineState thread whenDonePCState = thread + Slot.rdi :=
    machineState_slot thread (by decide) (by decide)
  unfold stackAllocate prepared
  rw [hpc, hstartup, hinitial, harg, hdone]
  rfl

theorem prepared_bounds {w : Nat × Nat}
    (hw : w ∈ prepared text setupThreadState threadFinish thread func arg) :
    thread + 8 ≤ w.1 ∧ w.1 < thread + 264 := by
  have hoffsets : ∀ d ∈ [Slot.pc, Slot.rcx, Slot.rsi, Slot.rdx, Slot.rdi], 8 ≤ d ∧ d < 264 := by
    decide
  obtain ⟨w', hw', rfl⟩ := List.mem_map.mp hw
  have hbounds := hoffsets w'.1 (List.mem_map_of_mem hw')
  show thread + 8 ≤ thread + w'.1 ∧ thread + w'.1 < thread + 264
  omega

theorem prepared_nodup :
    ((prepared text setupThreadState threadFinish thread func arg).map Prod.fst).Nodup := by
  have hoffsets : [Slot.pc, Slot.rcx, Slot.rsi, Slot.rdx, Slot.rdi].Nodup := by decide
  have hmap : (prepared text setupThreadState threadFinish thread func arg).map Prod.fst =
      [Slot.pc, Slot.rcx, Slot.rsi, Slot.rdx, Slot.rdi].map (thread + ·) := rfl
  rw [hmap]
  exact hoffsets.map fun _ _ h => Nat.add_left_cancel h

/-- The words of `machineState` come behind `stackTop`. -/
theorem cleared_bounds {w : Nat × Nat}
    (hw : w ∈ (List.range machineStateSize).map fun i => (machineState thread i, 0)) :
    thread + 8 ≤ w.1 ∧ w.1 < thread + 264 := by
  obtain ⟨i, hi, rfl⟩ := List.mem_map.mp hw
  have hlt : i < 32 := List.mem_range.mp hi
  show thread + 8 ≤ thread + 8 + 8 * i ∧ thread + 8 + 8 * i < thread + 264
  omega

theorem notMem_of_bounds {ws : List (Nat × Nat)} {a : Nat} (ha : a < thread + 8 ∨ thread + 264 ≤ a)
    (hws : ∀ w ∈ ws, thread + 8 ≤ w.1 ∧ w.1 < thread + 264) : a ∉ ws.map Prod.fst := by
  intro hmem
  obtain ⟨w, hw, rfl⟩ := List.mem_map.mp hmem
  have hbounds := hws w hw
  omega

theorem stackAllocate_outside {a : Nat} (ha : Outside thread a) (hne : a ≠ stack) :
    stackAllocate text setupThreadState threadFinish thread stack func arg m a = m a := by
  have hout : a < thread ∨ thread + 264 ≤ a := ha
  have hcases : a < thread + 8 ∨ thread + 264 ≤ a := by omega
  have htop : a ≠ thread + 0 := by omega
  rw [stackAllocate_eq, assign_of_notMem (notMem_of_bounds hcases fun _ => prepared_bounds),
    assign_of_notMem (notMem_of_bounds hcases fun _ => cleared_bounds),
    Function.update_of_ne hne, Function.update_of_ne htop]

theorem stackAllocate_prepared (hout : Outside thread stack) :
    Prepared text setupThreadState threadFinish thread stack func arg
      (stackAllocate text setupThreadState threadFinish thread stack func arg m) := by
  have hstack : stack < thread ∨ thread + 264 ≤ stack := hout
  have htop : thread + 0 < thread + 8 ∨ thread + 264 ≤ thread + 0 := by omega
  have hne : thread + 0 ≠ stack := by omega
  have hset : ∀ w ∈ prepared text setupThreadState threadFinish thread func arg,
      stackAllocate text setupThreadState threadFinish thread stack func arg m w.1 = w.2 := by
    intro w hw
    rw [stackAllocate_eq]
    exact assign_of_mem prepared_nodup hw
  constructor
  · rw [stackAllocate_eq, assign_of_notMem (notMem_of_bounds htop fun _ => prepared_bounds),
      assign_of_notMem (notMem_of_bounds htop fun _ => cleared_bounds), Function.update_of_ne hne,
      Function.update_self]
  · exact hset (thread + Slot.pc, text 0) (by simp [prepared])
  · exact hset (thread + Slot.rcx, setupThreadState) (by simp [prepared])
  · exact hset (thread + Slot.rsi, func) (by simp [prepared])
  · exact hset (thread + Slot.rdx, arg) (by simp [prepared])
  · exact hset (thread + Slot.rdi, threadFinish) (by simp [prepared])

end

end Threads
end Nachos
