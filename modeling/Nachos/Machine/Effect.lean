import Nachos.Machine.Access
import Nachos.Machine.Preemption

/-!
# The effect of one instruction

What `OneInstruction` may have done when it returns, and what it has done when
it stops.  Until an instruction raises an exception it has only read: every
opcode first takes its operands and traps, and writes registers and memory at
the end.
-/

namespace Nachos
namespace Machine

open Lib

/-! ## Effects -/

/-- The address of the exception that the instruction may raise.  Those that have
nothing to do with memory are raised with 0. -/
def Instruction.address (i : Instruction) (r : Registers) : Word :=
  match i.opCode with
  | .lb | .lbu | .lh | .lhu | .lw | .sb | .sh | .sw => r (gp i.rs) + i.extra
  | .lwl | .lwr | .swl | .swr => wordOf (r (gp i.rs) + i.extra)
  | _ => 0

/-- The instruction stores to memory. -/
def Instruction.stores (i : Instruction) : Bool :=
  match i.opCode with
  | .sb | .sh | .sw | .swl | .swr => true
  | _ => false

/-- The instruction starts a load into `rt`. -/
def Instruction.loads (i : Instruction) : Bool :=
  match i.opCode with
  | .lb | .lbu | .lh | .lhu | .lw | .lwl | .lwr => true
  | _ => false

/-- The division that the host traps. -/
def Instruction.Divides (i : Instruction) (r : Registers) : Prop :=
  i.opCode = .div ∧ r (gp i.rs) = 0x80000000 ∧ r (gp i.rt) = 0xffffffff

/-- What the `switch` has done when it is left for `retire`. -/
structure Effected (m₀ : Machine) (i : Instruction) (n : Next) (m : Machine) : Prop where
  registers : ∀ j, j ∈ kept i.dest → m.registers j = m₀.registers j
  load : n.nextLoadReg = 0 ∨ i.loads = true ∧ n.nextLoadReg = regNo i.rt
  memory : Used m₀.memory m.memory ∨
    i.stores = true ∧ Stored m₀.memory (i.address m₀.registers) m.memory

/-! ## Families of opcodes -/

section Programs

variable {m₀ : Machine} {addr : Word} {divides : Prop} {d : Option GPReg} {P : Machine → Prop}
  {E : Stop → Machine → Prop}

/-- A program that stops as `m₀` allows, from a state where nothing has been
changed. -/
abbrev Runs (m₀ : Machine) (addr : Word) (divides : Prop) {α : Type} (x : Sim α)
    (Q : α → Machine → Prop) : Prop :=
  Triple (Quiet m₀) x Q (Stops m₀ addr divides)

theorem Quiet.kept {m : Machine} (h : Quiet m₀ m) (d : Option GPReg) : Kept m₀ d m :=
  ⟨fun j _ => congrFun h.registers j, h.memory⟩

theorem read_triple (j : Reg) : Triple P (reg j) (fun _ m => P m) E :=
  (reg_triple j).post fun _ _ h => h.1

/-- An operand read before anything was written. -/
theorem operand_triple (g : GPReg) :
    Triple (Quiet m₀) (gpr g) (fun v m => Quiet m₀ m ∧ v = m₀.registers (gp g)) E := by
  refine (reg_triple (gp g)).post fun v m h => ⟨h.1, ?_⟩
  rw [h.2, h.1.registers]

theorem setGpr_triple (d : GPReg) (v : Word) :
    Triple (Quiet m₀) (setGpr d v) (fun _ m => Kept m₀ (some d) m) E := by
  refine (setReg_triple (gp d) v).post ?_
  rintro _ _ ⟨m, hm, rfl⟩
  refine ⟨fun j hj => ?_, hm.memory⟩
  show (if j = gp d then v else m.registers j) = m₀.registers j
  rw [if_neg (hj.2.2 d rfl), hm.registers]

theorem setSpecial_triple {j : Reg} (v : Word) (hj : j = hiReg ∨ j = loReg) :
    Triple (Kept m₀ d) (setReg j v) (fun _ m => Kept m₀ d m) E := by
  refine (setReg_triple j v).post ?_
  rintro _ _ ⟨m, hm, rfl⟩
  refine ⟨fun k hk => ?_, hm.memory⟩
  have hkj : k ≠ j := by
    rintro rfl
    exact hj.elim hk.1 hk.2.1
  show (if k = j then v else m.registers k) = m₀.registers k
  rw [if_neg hkj]
  exact hm.registers k hk

theorem setHiLo_triple (hi lo : Word) :
    Triple (Quiet m₀) (setHiLo hi lo) (fun _ m => Kept m₀ none m) E := by
  unfold setHiLo
  refine .pre ?_ fun m hm => hm.kept none
  exact (setSpecial_triple lo (.inr rfl)).bind fun _ => setSpecial_triple hi (.inl rfl)

theorem alu_triple (d a b : GPReg) (f : Word → Word → Word) :
    Triple (Quiet m₀) (alu d a b f) (fun _ m => Kept m₀ (some d) m) E := by
  unfold alu
  exact (read_triple (gp a)).bind fun x => (read_triple (gp b)).bind fun y =>
    setGpr_triple d (f x y)

theorem aluImm_triple (d a : GPReg) (f : Word → Word) :
    Triple (Quiet m₀) (aluImm d a f) (fun _ m => Kept m₀ (some d) m) E := by
  unfold aluImm
  exact (read_triple (gp a)).bind fun x => setGpr_triple d (f x)

theorem trapping_triple (d : GPReg) (result : Word) (overflow : Bool) :
    Runs m₀ 0 divides (trapping d result overflow) (fun _ m => Kept m₀ (some d) m) := by
  unfold trapping
  exact .ite (fun _ => raiseException_triple _ _) fun _ => setGpr_triple d result

theorem link_triple (d : GPReg) :
    Triple (Quiet m₀) (link d) (fun _ m => Kept m₀ (some d) m) E := by
  unfold link
  exact (read_triple nextPCReg).bind fun _ => setGpr_triple d _

theorem divSigned_triple {a b : Word} (h : a = 0x80000000 ∧ b = 0xffffffff → divides) :
    Runs m₀ addr divides (divSigned a b) (fun _ m => Kept m₀ none m) := by
  unfold divSigned
  refine .ite (fun _ => setHiLo_triple 0 0) fun _ => ?_
  exact .ite (fun hab => .throw fun _ _ => h hab) fun _ => setHiLo_triple _ _

theorem divUnsigned_triple (a b : Word) :
    Triple (Quiet m₀) (divUnsigned a b) (fun _ m => Kept m₀ none m) E := by
  unfold divUnsigned
  exact .ite (fun _ => setHiLo_triple 0 0) fun _ => setHiLo_triple _ _

variable {i : Instruction}

theorem Kept.effected {m : Machine} {n : Next} (h : Kept m₀ d m) (hd : i.dest = d)
    (hn : n.nextLoadReg = 0 ∨ i.loads = true ∧ n.nextLoadReg = regNo i.rt) : Effected m₀ i n m :=
  ⟨hd ▸ h.registers, hn, .inl h.memory⟩

theorem straight_triple {x : Sim Unit} (pcAfter : Word) (hd : i.dest = d)
    (hx : Triple P x (fun _ m => Kept m₀ d m) E) :
    Triple P (straight pcAfter x) (Effected m₀ i) E := by
  unfold straight
  exact hx.bind fun _ => .pure fun _ h => h.effected hd (.inl rfl)

theorem goto_triple (pcAfter : Word) (hd : i.dest = d) :
    Triple (Kept m₀ d) (pure { pcAfter } : Sim Next) (Effected m₀ i) E :=
  .pure fun _ h => h.effected hd (.inl rfl)

theorem branch_triple (pcAfter : Word) (taken : Bool) (hd : i.dest = d) :
    Triple (Kept m₀ d) (branch i pcAfter taken) (Effected m₀ i) E := by
  unfold branch
  exact (read_triple nextPCReg).bind fun _ => goto_triple _ hd

/-! ## Loads and stores -/

theorem effective_triple (i : Instruction) :
    Triple (Quiet m₀) (effective i)
      (fun v m => Quiet m₀ m ∧ v = m₀.registers (gp i.rs) + i.extra) E := by
  unfold effective
  refine (operand_triple i.rs).bind fun _ => .pure fun _ h => ⟨h.1, ?_⟩
  rw [h.2]

/-- After the address is known. -/
theorem effective_bind {α : Type} {f : Word → Sim α} {Q : α → Machine → Prop}
    (h : Runs m₀ addr divides (f (m₀.registers (gp i.rs) + i.extra)) Q) :
    Runs m₀ addr divides (effective i >>= f) Q := by
  refine (effective_triple i).bind fun v => .given (fun _ hm => hm.2) ?_
  rintro rfl
  exact h.pre fun _ hm => hm.1

theorem started_triple {n : Next} (hn : n.nextLoadReg = regNo i.rt) (hi : i.loads = true) :
    Triple (Quiet m₀) (pure n : Sim Next) (Effected m₀ i) E :=
  .pure fun _ h => ⟨fun j _ => congrFun h.registers j, .inr ⟨hi, hn⟩, .inl h.memory⟩

theorem loadByte_triple (pcAfter : Word) (signed : Bool) (hi : i.loads = true) :
    Runs m₀ (m₀.registers (gp i.rs) + i.extra) divides (loadByte i pcAfter signed)
      (Effected m₀ i) := by
  unfold loadByte
  refine effective_bind ?_
  exact (readMem_triple _ (.inl rfl)).bind fun _ => started_triple rfl hi

theorem loadHalf_triple (pcAfter : Word) (signed : Bool) (hi : i.loads = true) :
    Runs m₀ (m₀.registers (gp i.rs) + i.extra) divides (loadHalf i pcAfter signed)
      (Effected m₀ i) := by
  unfold loadHalf
  refine effective_bind (.ite (fun _ => raiseException_triple _ _) fun _ => ?_)
  exact (readMem_triple _ (.inr (.inl rfl))).bind fun _ => started_triple rfl hi

theorem loadWord_triple (pcAfter : Word) (hi : i.loads = true) :
    Runs m₀ (m₀.registers (gp i.rs) + i.extra) divides (loadWord i pcAfter)
      (Effected m₀ i) := by
  unfold loadWord
  refine effective_bind (.ite (fun _ => raiseException_triple _ _) fun _ => ?_)
  exact (readMem_triple _ (.inr (.inr rfl))).bind fun _ => started_triple rfl hi

theorem forwarded_triple (rt : GPReg) : Triple P (forwarded rt) (fun _ m => P m) E := by
  unfold forwarded
  refine (read_triple loadReg).bind fun _ => ?_
  exact .ite (fun _ => read_triple loadValueReg) fun _ => read_triple (gp rt)

theorem loadUnaligned_triple (pcAfter : Word) (merge : Word → Word → Word → Word)
    (hi : i.loads = true) :
    Runs m₀ (wordOf (m₀.registers (gp i.rs) + i.extra)) divides (loadUnaligned i pcAfter merge)
      (Effected m₀ i) := by
  unfold loadUnaligned
  refine effective_bind ?_
  refine (readMem_triple _ (.inr (.inr rfl))).bind fun _ => ?_
  exact (forwarded_triple i.rt).bind fun _ => started_triple rfl hi

theorem storeReg_triple {size : Nat} (hsize : size = 1 ∨ size = 2 ∨ size = 4) :
    Runs m₀ (m₀.registers (gp i.rs) + i.extra) divides (storeReg i size)
      (fun _ m => Written m₀ (m₀.registers (gp i.rs) + i.extra) m) := by
  unfold storeReg
  refine effective_bind ?_
  exact (read_triple (gp i.rt)).bind fun v => writeMem_triple _ v hsize

/-- SWL and SWR read the word and then write it. -/
theorem storeUnaligned_triple (split : Word → Word → Word → Word) :
    Runs m₀ (wordOf (m₀.registers (gp i.rs) + i.extra)) divides (storeUnaligned i split)
      (fun _ m => Written m₀ (wordOf (m₀.registers (gp i.rs) + i.extra)) m) := by
  unfold storeUnaligned
  refine effective_bind ?_
  refine (readMem_triple _ (.inr (.inr rfl))).bind fun value => ?_
  exact (read_triple (gp i.rt)).bind fun _ => writeMem_triple _ _ (.inr (.inr rfl))

theorem stored_triple {x : Sim Unit} (pcAfter : Word) (hi : i.stores = true)
    (hx : Runs m₀ (i.address m₀.registers) divides x
      (fun _ m => Written m₀ (i.address m₀.registers) m)) :
    Runs m₀ (i.address m₀.registers) divides (straight pcAfter x) (Effected m₀ i) := by
  unfold straight
  refine hx.bind fun _ => .pure fun m h => ⟨fun j _ => congrFun h.registers j, .inl rfl, ?_⟩
  exact .inr ⟨hi, h.memory⟩

/-! ## The switch -/

theorem execute_triple (hi : i.opCode ≠ .rfe) :
    Runs m₀ (i.address m₀.registers) (i.Divides m₀.registers) (execute i) (Effected m₀ i) := by
  obtain ⟨value, opCode, rs, rt, rd, extra⟩ := i
  unfold execute
  refine (read_triple nextPCReg).bind fun next => ?_
  cases opCode with
  | add | sub =>
    refine straight_triple _ rfl ((read_triple (gp rs)).bind fun a => ?_)
    exact (read_triple (gp rt)).bind fun b => trapping_triple rd _ _
  | addi => exact straight_triple _ rfl ((read_triple (gp rs)).bind fun a => trapping_triple rt _ _)
  | addu | and | nor | or | sllv | slt | sltu | srav | srlv | subu | xor =>
    exact straight_triple _ rfl (alu_triple rd _ _ _)
  | addiu | andi | ori | slti | sltiu | xori => exact straight_triple _ rfl (aluImm_triple rt _ _)
  | sll | sra | srl => exact straight_triple _ rfl (aluImm_triple rd _ _)
  | lui => exact straight_triple _ rfl (setGpr_triple rt _)
  | beq | bne =>
    refine .pre ?_ fun m hm => hm.kept none
    exact (read_triple (gp rs)).bind fun a => (read_triple (gp rt)).bind fun b =>
      branch_triple _ _ rfl
  | bgez | bgtz | blez | bltz =>
    refine .pre ?_ fun m hm => hm.kept none
    exact (read_triple (gp rs)).bind fun a => branch_triple _ _ rfl
  | bgezal | bltzal =>
    exact (link_triple 31).bind fun _ => (read_triple (gp rs)).bind fun a => branch_triple _ _ rfl
  | j => exact (goto_triple _ rfl).pre fun m hm => hm.kept none
  | jal => exact (link_triple 31).bind fun _ => goto_triple _ rfl
  | jr =>
    refine .pre ?_ fun m hm => hm.kept none
    exact (read_triple (gp rs)).bind fun a => goto_triple _ rfl
  | jalr =>
    exact (link_triple rd).bind fun _ => (read_triple (gp rs)).bind fun a => goto_triple _ rfl
  | div =>
    refine straight_triple _ rfl ((operand_triple rs).bind fun a => ?_)
    refine .given (fun _ hm => hm.2) ?_
    rintro rfl
    refine .pre ?_ fun _ hm => hm.1
    refine (operand_triple rt).bind fun b => .given (fun _ hm => hm.2) ?_
    rintro rfl
    exact (divSigned_triple fun h => ⟨rfl, h⟩).pre fun _ hm => hm.1
  | divu =>
    refine straight_triple _ rfl ((read_triple (gp rs)).bind fun a => ?_)
    exact (read_triple (gp rt)).bind fun b => divUnsigned_triple a b
  | mult | multu =>
    refine straight_triple _ rfl ((read_triple (gp rs)).bind fun a => ?_)
    exact (read_triple (gp rt)).bind fun b => setHiLo_triple _ _
  | mfhi => exact straight_triple _ rfl ((read_triple hiReg).bind fun v => setGpr_triple rd v)
  | mflo => exact straight_triple _ rfl ((read_triple loReg).bind fun v => setGpr_triple rd v)
  | mthi =>
    refine .pre ?_ fun m hm => hm.kept none
    refine straight_triple _ rfl ((read_triple (gp rs)).bind fun v => ?_)
    exact setSpecial_triple v (.inl rfl)
  | mtlo =>
    refine .pre ?_ fun m hm => hm.kept none
    refine straight_triple _ rfl ((read_triple (gp rs)).bind fun v => ?_)
    exact setSpecial_triple v (.inr rfl)
  | lb | lbu => exact loadByte_triple _ _ rfl
  | lh | lhu => exact loadHalf_triple _ _ rfl
  | lw => exact loadWord_triple _ rfl
  | lwl | lwr => exact loadUnaligned_triple _ _ rfl
  | sb => exact stored_triple _ rfl (storeReg_triple (.inl rfl))
  | sh => exact stored_triple _ rfl (storeReg_triple (.inr (.inl rfl)))
  | sw => exact stored_triple _ rfl (storeReg_triple (.inr (.inr rfl)))
  | swl | swr => exact stored_triple _ rfl (storeUnaligned_triple _)
  | syscall | unimp | res => exact raiseException_triple _ _
  | rfe => exact absurd rfl hi

end Programs

/-- No entry of the tables is `OP_RFE`. -/
theorem decode_ne_rfe (value : Word) : (decode value).opCode ≠ .rfe := by
  have hspecial : ∀ k : Fin 64, specialTable.get k ≠ .rfe := by decide
  have hop : ∀ k : Fin 64, (opTable.get k).opCode ≠ .op .rfe := by decide
  have hbcond : bcond value ≠ .rfe := by
    unfold bcond
    dsimp only
    split_ifs <;> decide
  unfold decode
  dsimp only
  split
  · exact hspecial _
  · exact hbcond
  · rename_i opCode h
    rintro rfl
    exact hop _ h

/-! ## The whole instruction -/

/-- The address of the exception that the machine may raise. -/
def faultAddress (m : Machine) : Word :=
  match fetched m with
  | none => m.registers pcReg
  | some i => i.address m.registers

/-- The next instruction is a division that the host traps. -/
def Divides (m : Machine) : Prop := ∃ i, fetched m = some i ∧ i.Divides m.registers

/-- What an instruction that returns has done. -/
structure Executed (m : Machine) (i : Instruction) (n : Next) (m' : Machine) : Prop where
  fetched : fetched m = some i
  effect : ∃ m₂, Effected m i n m₂ ∧ m' = { m₂ with registers := retired m₂.registers n }

theorem readMem_of_fetched {m : Machine} {i : Instruction} (h : fetched m = some i) :
    ∃ raw m₁, readMem (m.registers pcReg) 4 m = .ok raw m₁ ∧ decode raw = i := by
  unfold fetched Memory.word at h
  obtain ⟨raw, hraw, hi⟩ := Option.map_eq_some_iff.mp h
  cases hrun : translate (m.registers pcReg) 4 false m.memory with
  | error e mem =>
    rw [hrun] at hraw
    cases hraw
  | ok found mem =>
    rw [hrun] at hraw
    cases found with
    | error e => cases hraw
    | ok pa =>
      dsimp only at hraw
      cases hf : fetch pa 4 mem with
      | error e mem' =>
        rw [hf] at hraw
        cases hraw
      | ok w mem' =>
        rw [hf] at hraw
        cases hraw
        refine ⟨raw, { m with memory := mem' }, ?_, hi⟩
        rw [readMem_translated hrun]
        unfold onMemory
        dsimp only
        rw [hf]

theorem retire_triple {m₀ : Machine} {addr : Word} {divides : Prop} (m : Machine) (n : Next)
    (hload : m.registers loadReg = m₀.registers loadReg) :
    Triple (· = m) (retire n) (fun _ s => s = { m with registers := retired m.registers n })
      (Stops m₀ addr divides) := by
  unfold retire
  refine ((delayedLoad_triple m _ _).errors ?_).bind fun _ => ?_
  · rintro e s ⟨rfl, h⟩
    show numTotalRegs ≤ (m₀.registers loadReg).toNat
    rw [← hload]
    exact h
  · exact .returns fun s hs => ⟨(), _, rfl, by rw [hs]; rfl⟩

theorem oneInstruction_triple (m : Machine) :
    Triple (· = m) oneInstruction (fun _ s => ∃ i n, Executed m i n s)
      (Stops m m.faultAddress m.Divides) := by
  have hquiet : ∀ s, s = m → Quiet m s := by
    rintro s rfl
    exact ⟨rfl, .refl _⟩
  unfold oneInstruction
  refine Triple.bind (Q := fun pc s => s = m ∧ pc = m.registers pcReg) ?_ fun pc => ?_
  · exact .returns fun s hs => ⟨_, s, rfl, hs, by rw [hs]⟩
  refine .given (fun _ hs => hs.2) ?_
  rintro rfl
  refine .pre ?_ fun s hs => hs.1
  have hread : Runs m (m.registers pcReg) False (readMem (m.registers pcReg) 4)
      (fun _ s => Quiet m s) := readMem_triple _ (.inr (.inr rfl))
  refine ((hread.pre hquiet).run.errors ?_).bind fun raw => ?_
  · rintro e s ⟨hstop, hrun⟩
    have hnone : fetched m = none := by
      by_contra hne
      obtain ⟨i, hi⟩ := Option.ne_none_iff_exists'.mp hne
      obtain ⟨raw, m₁, hok, _⟩ := readMem_of_fetched hi
      exact nomatch hrun.symm.trans hok
    have haddr : m.faultAddress = m.registers pcReg := by
      unfold faultAddress
      rw [hnone]
    rw [haddr]
    cases e with
    | hostDivide => exact hstop.elim
    | exception | assertion | badIndex => exact hstop
  refine .given (fun _ hs => fetched_of_readMem hs.2) fun hi => ?_
  have haddr : m.faultAddress = (decode raw).address m.registers := by
    unfold faultAddress
    rw [hi]
  refine (((execute_triple (decode_ne_rfe raw)).pre fun _ hs => hs.1).errors ?_).bind fun n => ?_
  · intro e s hstop
    rw [haddr]
    cases e with
    | hostDivide => exact ⟨_, hi, hstop⟩
    | exception | assertion | badIndex => exact hstop
  · refine .each fun m₂ hm₂ => ?_
    exact (retire_triple m₂ n (hm₂.registers _ (loadReg_kept _))).post fun _ s hs =>
      ⟨_, n, hi, m₂, hm₂, hs⟩

end Machine
end Nachos
