import Nachos.Machine.Effect

/-!
# How an instruction stops

An exception is precise: the kernel finds the machine as it was before the
instruction, with the pending load done.  The simulator itself fails only at the
division that the host traps.
-/

namespace Nachos
namespace Machine

open Lib

/-! ## Exceptions -/

/-- `OneInstruction` with the kernel.  `RaiseException` calls the handler, and
after it every caller returns at once. -/
def oneInstructionWith (handler : ExceptionType → Machine → Machine) (m : Machine) :
    EStateM.Result Stop Machine Unit :=
  match oneInstruction m with
  | .error (.exception which) m' => .ok () (handler which m')
  | r => r

/-- `m'` is what the kernel needs for restarting the instruction that was about to be
executed in `m`. -/
structure Precise (m m' : Machine) : Prop where
  mainMemory : m'.memory.mainMemory = m.memory.mainMemory
  tables : SameTables m.memory m'.memory
  dirty : ∀ slot, m'.memory.dirty slot = m.memory.dirty slot
  kept : ∀ j, j ≠ 0 → j.val ≠ (m.registers loadReg).toNat → j ≠ loadReg → j ≠ loadValueReg →
    j ≠ badVAddrReg → m'.registers j = m.registers j
  committed : ∀ j, j ≠ 0 → j.val = (m.registers loadReg).toNat →
    m'.registers j = m.registers loadValueReg
  loadReg : m'.registers loadReg = 0
  loadValueReg : m'.registers loadValueReg = 0
  zero : m'.registers 0 = 0
  badVAddr : m'.registers badVAddrReg = m.faultAddress

theorem raised_precise {m m' : Machine} (h : (m.registers loadReg).toNat < loadReg.val)
    (hr : m'.registers = raised m.registers m.faultAddress) (hm : Used m.memory m'.memory) :
    Precise m m' := by
  have hload : (m.registers loadReg).toNat < 37 := h
  have hother : ∀ j, j ≠ 0 → j ≠ loadReg → j ≠ loadValueReg → m'.registers j =
      if j.val = (m.registers loadReg).toNat then m.registers loadValueReg
      else if j = badVAddrReg then m.faultAddress else m.registers j := by
    intro j h0 hl hv
    rw [hr]
    unfold raised loaded
    rw [if_neg h0, if_neg hv, if_neg hl]
    rfl
  refine ⟨hm.mainMemory, hm.toSameTables, hm.dirty, ?_, ?_, ?_, ?_, ?_, ?_⟩
  · intro j h0 hne hl hv hb
    rw [hother j h0 hl hv, if_neg hne, if_neg hb]
  · intro j h0 heq
    have hj : j.val < 37 := by omega
    rw [hother j h0 (Fin.ne_of_lt hj) (Fin.ne_of_lt (Nat.lt_succ_of_lt hj)), if_pos heq]
  · rw [hr]
    rfl
  · rw [hr]
    rfl
  · rw [hr]
    rfl
  · have hne : badVAddrReg.val ≠ (m.registers loadReg).toNat := by
      show 39 ≠ _
      omega
    rw [hother badVAddrReg (by decide) (by decide) (by decide), if_neg hne, if_pos rfl]

/-- **Precise exceptions.**  The pending load is for a register below `LoadReg`:
then an exception finds the machine before the instruction with the load done, and
when the handler returns nothing is done to what it leaves. -/
theorem exceptions_precise {m m' : Machine} {which : ExceptionType}
    (h : (m.registers loadReg).toNat < loadReg.val)
    (hrun : oneInstruction m = .error (.exception which) m') :
    Precise m m' ∧
      ∀ handler, oneInstructionWith handler m = .ok () (handler which m') := by
  have hstop := (oneInstruction_triple m).error rfl hrun
  refine ⟨raised_precise h hstop.1 hstop.2, fun handler => ?_⟩
  unfold oneInstructionWith
  rw [hrun]

/-- A machine about to execute the word. -/
def single (word : Word) (r : Registers) : Machine where
  registers := r
  memory :=
    { mainMemory := fun a => if a.val < 4 then byteOf word a.val else 0
      tlb := none
      pageTables := fun _ _ => ⟨0, 0, true, false, false, false⟩
      currentPageTable := some 0
      currentPageTableSize := 1 }

/-- What a register holds when the kernel is entered. -/
def registerAtException (m : Machine) (j : Reg) : Option Word :=
  match oneInstruction m with
  | .error (.exception _) m' => some (m'.registers j)
  | _ => none

theorem exception_of_register {m : Machine} {j : Reg} {v : Word}
    (h : registerAtException m j = some v) :
    ∃ which m', oneInstruction m = .error (.exception which) m' ∧ m'.registers j = v := by
  unfold registerAtException at h
  split at h
  · rename_i which m' hrun
    exact ⟨which, m', hrun, Option.some.inj h⟩
  · cases h

/-- `SYSCALL` with 7 on its way to `r2`. -/
def syscallPending : Machine :=
  single 0x0000000c fun j => if j = loadReg then 2 else if j = loadValueReg then 7 else 0

theorem exceptions_precise_syscall :
    ∃ which m', oneInstruction syscallPending = .error (.exception which) m' ∧
      Precise syscallPending m' := by
  have hreg : registerAtException syscallPending 2 = some 7 := by decide +kernel
  obtain ⟨which, m', hrun, _⟩ := exception_of_register hreg
  exact ⟨which, m', hrun, (exceptions_precise (by decide) hrun).1⟩

/-- `SYSCALL` with 7 on its way to `BadVAddrReg`: the load comes after the
address. -/
theorem late_load_hides_address :
    ∃ m which m', oneInstruction m = .error (.exception which) m' ∧
      m.registers loadReg = 39 ∧ m.faultAddress = 0 ∧ m'.registers badVAddrReg = 7 ∧
      ¬ Precise m m' := by
  let m := single 0x0000000c fun j => if j = loadReg then 39 else if j = loadValueReg then 7 else 0
  have hreg : registerAtException m badVAddrReg = some 7 := by decide +kernel
  have haddr : m.faultAddress = 0 := by decide +kernel
  obtain ⟨which, m', hrun, hv⟩ := exception_of_register hreg
  refine ⟨m, which, m', hrun, rfl, haddr, hv, fun h => ?_⟩
  have hbad := h.badVAddr
  rw [hv, haddr] at hbad
  exact absurd hbad (by decide)

/-! ## Failures of the simulator -/

/-- The simulator leaves `registers` or `mainMemory`, divides as the host cannot, or
an `ASSERT` fails.  Without a table, and with both, it is `Translate` that says so
at the fetch; that is a mistake of the kernel. -/
def Faults (m : Machine) : Prop :=
  ∃ stop m', oneInstruction m = .error stop m' ∧
    (stop = .badIndex ∨ stop = .hostDivide ∨ stop = .assertion ∧ m.memory.OneTable)

theorem oneInstruction_divides {m : Machine} (h : m.Divides) :
    ∃ m', oneInstruction m = .error .hostDivide m' := by
  obtain ⟨i, hi, hop, hs, ht⟩ := h
  obtain ⟨raw, m₁, hread, rfl⟩ := readMem_of_fetched hi
  have hquiet : Quiet m m₁ := by
    have hread' : Runs m (m.registers pcReg) False (readMem (m.registers pcReg) 4)
        (fun _ s => Quiet m s) := readMem_triple _ (.inr (.inr rfl))
    exact hread'.ok ⟨rfl, .refl _⟩ hread
  have hs₁ : m₁.registers (gp (decode raw).rs) = 0x80000000 := by
    rw [hquiet.registers]
    exact hs
  have ht₁ : m₁.registers (gp (decode raw).rt) = 0xffffffff := by
    rw [hquiet.registers]
    exact ht
  refine ⟨m₁, ?_⟩
  unfold oneInstruction
  rw [bind_run (show reg pcReg m = .ok _ m from rfl), bind_run hread]
  have hrun : execute (decode raw) m₁ = .error .hostDivide m₁ := by
    unfold execute
    rw [bind_run (show reg nextPCReg m₁ = .ok _ m₁ from rfl), hop]
    unfold straight
    have hdiv : (do
        let a ← gpr (decode raw).rs
        let b ← gpr (decode raw).rt
        divSigned a b : Sim Unit) m₁ = .error .hostDivide m₁ := by
      rw [bind_run (show gpr _ m₁ = .ok (0x80000000 : Word) m₁ from by rw [← hs₁]; rfl),
        bind_run (show gpr _ m₁ = .ok (0xffffffff : Word) m₁ from by rw [← ht₁]; rfl)]
      rfl
    show EStateM.bind _ _ m₁ = _
    unfold EStateM.bind
    dsimp only
    rw [hdiv]
  show EStateM.bind _ _ m₁ = _
  unfold EStateM.bind
  rw [hrun]

/-- **The one failure of the simulator.** -/
theorem faults_iff_divides {m : Machine} (h : (m.registers loadReg).toNat < 32) :
    ¬ Faults m ↔ ¬ m.Divides := by
  refine not_congr ⟨?_, fun hdiv => ?_⟩
  · rintro ⟨stop, m', hrun, hstop⟩
    have hwhy := (oneInstruction_triple m).error rfl hrun
    rcases hstop with rfl | rfl | ⟨rfl, hone⟩
    · have hout : numTotalRegs ≤ (m.registers loadReg).toNat := hwhy
      have hout' : 40 ≤ (m.registers loadReg).toNat := hout
      omega
    · exact hwhy
    · exact absurd hone hwhy
  · obtain ⟨m', hrun⟩ := oneInstruction_divides hdiv
    exact ⟨_, m', hrun, .inr (.inl rfl)⟩

/-- `DIV r1, r2` with the smallest integer in `r1`. -/
def divideBy (divisor : Word) : Machine :=
  single 0x0022001a fun j => if j = 1 then 0x80000000 else if j = 2 then divisor else 0

theorem fetched_divideBy (divisor : Word) :
    fetched (divideBy divisor) = some (decode 0x0022001a) := by
  have h : fetched (divideBy 0) = some (decode 0x0022001a) := by decide +kernel
  exact h

/-- Divided by -1 it has no quotient. -/
theorem faults_divideBy : (divideBy 0xffffffff).registers loadReg = 0 ∧
    Faults (divideBy 0xffffffff) := by
  have hdiv : (divideBy 0xffffffff).Divides :=
    ⟨_, fetched_divideBy _, by decide, by decide, by decide⟩
  obtain ⟨m', hrun⟩ := oneInstruction_divides hdiv
  exact ⟨rfl, _, m', hrun, .inr (.inl rfl)⟩

/-- Divided by 0 it has none either, and there the simulator has a case for it. -/
theorem faults_iff_divides_zero : ¬ Faults (divideBy 0) := by
  refine (faults_iff_divides (by decide)).mpr ?_
  rintro ⟨i, hi, _, _, ht⟩
  cases hi.symm.trans (fetched_divideBy 0)
  exact absurd ht (by decide)

end Machine
end Nachos
