import Nachos.Machine.DelayedLoad
import Mathlib.Data.Set.Basic

/-!
# One instruction run from two register files

Two machines with the same memory and different registers execute the same
instruction.  A register is either untouched, and holds what it held at the
start, or both runs have written it, and wrote the same value.  For that the
registers the instruction reads have to be equal at the start.
-/

namespace Nachos
namespace Machine

open Lib

/-- The two machines started from the register files `r` and `r'`; the registers
in `U` are untouched and the others are equal. -/
structure Parallel (r r' : Registers) (U : Set Reg) (m m' : Machine) : Prop where
  memory : m.memory = m'.memory
  left : ∀ j, j ∈ U → m.registers j = r j
  right : ∀ j, j ∈ U → m'.registers j = r' j
  written : ∀ j, j ∉ U → m.registers j = m'.registers j

/-- What the two register files have in common for every instruction. -/
structure Comparable (r r' : Registers) : Prop where
  hi : r hiReg = r' hiReg
  lo : r loReg = r' loReg
  pc : r pcReg = r' pcReg
  nextPC : r nextPCReg = r' nextPCReg
  load : (r loadReg).toNat < numTotalRegs
  load' : (r' loadReg).toNat < numTotalRegs

/-- The registers an instruction that writes `d` leaves alone for certain. -/
def kept (d : Option GPReg) : Set Reg :=
  { j | j ≠ hiReg ∧ j ≠ loReg ∧ ∀ g, d = some g → j ≠ gp g }

/-- The value an unaligned load into `rt` starts from. -/
def pendingValue (r : Registers) (rt : GPReg) : Word :=
  if r loadReg = regNo rt then r loadValueReg else r (gp rt)

/-- The load that the instruction starts, if any. -/
def Next.Starts (n : Next) (i : Instruction) : Prop :=
  n.nextLoadReg = 0 ∨ i.dest = none ∧ n.nextLoadReg = regNo i.rt

theorem gp_val (g : GPReg) : (gp g).val = g.val := rfl

theorem gp_inj {g h : GPReg} (hgh : gp g = gp h) : g = h := by
  apply Fin.ext
  rw [← gp_val g, hgh, gp_val]

theorem regNo_toNat (g : GPReg) : (regNo g).toNat = g.val := by
  show (BitVec.ofNat 32 g.val).toNat = g.val
  rw [BitVec.toNat_ofNat]
  have := g.isLt
  omega

theorem gp_ne_special {g : GPReg} {j : Reg} (hj : 32 ≤ j.val) : j ≠ gp g := by
  intro h
  have hlt := g.isLt
  rw [h, gp_val] at hj
  omega

theorem Parallel.start {m m' : Machine} (h : m.memory = m'.memory) :
    Parallel m.registers m'.registers Set.univ m m' :=
  ⟨h, fun _ _ => rfl, fun _ _ => rfl, fun j hj => absurd (Set.mem_univ j) hj⟩

variable {r r' : Registers} {U V : Set Reg} {α β : Type}

/-- Registers that start equal may be counted as written. -/
theorem Parallel.mono {m m' : Machine} (h : Parallel r r' U m m') (hVU : V ⊆ U)
    (heq : ∀ j, j ∈ U → j ∉ V → r j = r' j) : Parallel r r' V m m' := by
  refine ⟨h.memory, fun j hj => h.left j (hVU hj), fun j hj => h.right j (hVU hj), ?_⟩
  intro j hj
  by_cases hU : j ∈ U
  · rw [h.left j hU, h.right j hU]
    exact heq j hU hj
  · exact h.written j hU

theorem Parallel.read {m m' : Machine} (h : Parallel r r' U m m') {j : Reg} (hj : r j = r' j) :
    m.registers j = m'.registers j := by
  by_cases hU : j ∈ U
  · rw [h.left j hU, h.right j hU]
    exact hj
  · exact h.written j hU

theorem Parallel.write {m m' : Machine} (h : Parallel r r' U m m') (j : Reg) (v : Word) :
    Parallel r r' (U \ {j})
      { m with registers := fun k => if k = j then v else m.registers k }
      { m' with registers := fun k => if k = j then v else m'.registers k } := by
  refine ⟨h.memory, ?_, ?_, ?_⟩
  · intro k hk
    show (if k = j then v else m.registers k) = r k
    rw [if_neg (show k ≠ j from hk.2)]
    exact h.left k hk.1
  · intro k hk
    show (if k = j then v else m'.registers k) = r' k
    rw [if_neg (show k ≠ j from hk.2)]
    exact h.right k hk.1
  · intro k hk
    show (if k = j then v else m.registers k) = if k = j then v else m'.registers k
    by_cases hkj : k = j
    · rw [if_pos hkj, if_pos hkj]
    · rw [if_neg hkj, if_neg hkj]
      exact h.written k fun hU => hk ⟨hU, hkj⟩

/-! ## Registers and memory -/

theorem agree_reg {j : Reg} (hj : r j = r' j) :
    Agree (Parallel r r' U) (reg j) (fun _ => Parallel r r' U) :=
  fun _ _ h => ⟨h.read hj, h⟩

theorem agree_setReg (j : Reg) (v : Word) :
    Agree (Parallel r r' U) (setReg j v) (fun _ => Parallel r r' (U \ {j})) :=
  fun _ _ h => ⟨rfl, h.write j v⟩

theorem agree_onMemory (x : MemSim α) :
    Agree (Parallel r r' U) (onMemory x) (fun _ => Parallel r r' U) := by
  intro m m' h
  unfold onMemory
  rw [h.memory]
  cases x m'.memory with
  | ok a mem => exact ⟨rfl, rfl, h.left, h.right, h.written⟩
  | error e mem => rfl

section Programs

variable (hc : Comparable r r')
include hc

theorem agree_raise (which : ExceptionType) (a : Word) {Q : α → Machine → Machine → Prop}
    (hU : loadReg ∈ U) : Agree (Parallel r r' U) (raiseException which a) Q := by
  intro m m' h
  have hm : (m.registers loadReg).toNat < numTotalRegs := by
    rw [h.left loadReg hU]
    exact hc.load
  have hm' : (m'.registers loadReg).toNat < numTotalRegs := by
    rw [h.right loadReg hU]
    exact hc.load'
  rw [raiseException_run hm, raiseException_run hm']

theorem agree_readMem (addr : Word) (size : Nat) (hU : loadReg ∈ U) :
    Agree (Parallel r r' U) (readMem addr size) (fun _ => Parallel r r' U) := by
  unfold readMem
  refine (agree_onMemory _).bind fun found => ?_
  cases found with
  | error e => exact agree_raise hc e addr hU
  | ok physicalAddress => exact agree_onMemory _

theorem agree_writeMem (addr : Word) (size : Nat) (value : Word) (hU : loadReg ∈ U) :
    Agree (Parallel r r' U) (writeMem addr size value) (fun _ => Parallel r r' U) := by
  unfold writeMem
  refine (agree_onMemory _).bind fun found => ?_
  cases found with
  | error e => exact agree_raise hc e addr hU
  | ok physicalAddress => exact agree_onMemory _

/-! ## Families of opcodes

`After d` is the relation once the register `d` is written, and `After none` the
one an instruction starts from. -/

omit hc in
theorem loadReg_kept (d : Option GPReg) : loadReg ∈ kept d :=
  ⟨by decide, by decide, fun _ _ => gp_ne_special (by decide)⟩

omit hc in
theorem gp_kept {d : Option GPReg} {g : GPReg} (h : d ≠ some g) : gp g ∈ kept d := by
  refine ⟨(gp_ne_special (by decide)).symm, (gp_ne_special (by decide)).symm, ?_⟩
  intro d' hd hg
  exact h (hd.trans (congrArg some (gp_inj hg).symm))

theorem Parallel.close {m m' : Machine} {d : Option GPReg} (h : Parallel r r' U m m')
    (hU : kept d ⊆ U) (hd : ∀ g, d = some g → gp g ∉ U) : Parallel r r' (kept d) m m' := by
  refine h.mono hU fun j hj hk => ?_
  by_cases hhi : j = hiReg
  · rw [hhi]; exact hc.hi
  by_cases hlo : j = loReg
  · rw [hlo]; exact hc.lo
  exact absurd ⟨hhi, hlo, fun g hg hjg => hd g hg (hjg ▸ hj)⟩ hk

/-- The state before an instruction and the one after it. -/
abbrev After (r r' : Registers) (d : Option GPReg) : Machine → Machine → Prop :=
  Parallel r r' (kept d)

/-- What an instruction leaves for `retire`. -/
abbrev Done (r r' : Registers) (i : Instruction) (n : Next) (m m' : Machine) : Prop :=
  After r r' i.dest m m' ∧ n.Starts i

theorem agree_setGpr (d : GPReg) (v : Word) :
    Agree (After r r' none) (setGpr d v) (fun _ => After r r' (some d)) := by
  refine (agree_setReg (gp d) v).post fun _ m m' h => h.close hc ?_ ?_
  · intro j hj
    exact ⟨⟨hj.1, hj.2.1, fun _ hg => nomatch hg⟩, hj.2.2 d rfl⟩
  · intro g hg hj
    cases hg
    exact hj.2 rfl

omit hc in
theorem agree_gpr {g : GPReg} (hg : r (gp g) = r' (gp g)) :
    Agree (Parallel r r' U) (gpr g) (fun _ => Parallel r r' U) := agree_reg hg

theorem agree_alu {a b : GPReg} (d : GPReg) (f : Word → Word → Word)
    (ha : r (gp a) = r' (gp a)) (hb : r (gp b) = r' (gp b)) :
    Agree (After r r' none) (alu d a b f) (fun _ => After r r' (some d)) := by
  unfold alu
  refine (agree_gpr ha).bind fun x => ?_
  refine (agree_gpr hb).bind fun y => ?_
  exact agree_setGpr hc d (f x y)

theorem agree_aluImm {a : GPReg} (d : GPReg) (f : Word → Word) (ha : r (gp a) = r' (gp a)) :
    Agree (After r r' none) (aluImm d a f) (fun _ => After r r' (some d)) := by
  unfold aluImm
  refine (agree_gpr ha).bind fun x => ?_
  exact agree_setGpr hc d (f x)

theorem agree_trapping (d : GPReg) (result : Word) (overflow : Bool) :
    Agree (After r r' none) (trapping d result overflow) (fun _ => After r r' (some d)) := by
  unfold trapping
  refine Agree.ite (fun _ => ?_) (fun _ => ?_)
  · exact agree_raise hc _ _ (loadReg_kept none)
  · exact agree_setGpr hc d result

theorem agree_setSpecial {j : Reg} (v : Word) (hj : j = hiReg ∨ j = loReg) :
    Agree (After r r' none) (setReg j v) (fun _ => After r r' none) := by
  refine (agree_setReg j v).post fun _ m m' h => h.close hc ?_ (fun _ hg => nomatch hg)
  intro k hk
  refine ⟨hk, fun hkj => ?_⟩
  have hkj : k = j := hkj
  rcases hj with hj | hj
  · exact hk.1 (hkj.trans hj)
  · exact hk.2.1 (hkj.trans hj)

theorem agree_setHiLo (hi lo : Word) :
    Agree (After r r' none) (setHiLo hi lo) (fun _ => After r r' none) := by
  unfold setHiLo
  refine (agree_setSpecial hc lo (.inr rfl)).bind fun _ => ?_
  exact agree_setSpecial hc hi (.inl rfl)

theorem agree_divSigned (a b : Word) :
    Agree (After r r' none) (divSigned a b) (fun _ => After r r' none) := by
  unfold divSigned
  refine Agree.ite (fun _ => agree_setHiLo hc 0 0) fun _ => ?_
  exact Agree.ite (fun _ => Agree.throw) fun _ => agree_setHiLo hc _ _

theorem agree_divUnsigned (a b : Word) :
    Agree (After r r' none) (divUnsigned a b) (fun _ => After r r' none) := by
  unfold divUnsigned
  exact Agree.ite (fun _ => agree_setHiLo hc 0 0) fun _ => agree_setHiLo hc _ _

theorem agree_link (d : GPReg) :
    Agree (After r r' none) (link d) (fun _ => After r r' (some d)) := by
  unfold link
  refine (agree_reg hc.nextPC).bind fun next => ?_
  exact agree_setGpr hc d _

variable {i : Instruction}

omit hc in
theorem agree_straight {P : Machine → Machine → Prop} {x : Sim Unit} (pcAfter : Word)
    (hx : Agree P x (fun _ => After r r' i.dest)) :
    Agree P (straight pcAfter x) (Done r r' i) := by
  unfold straight
  exact hx.bind fun _ => Agree.pure fun _ _ h => ⟨h, .inl rfl⟩

omit hc in
theorem agree_goto {d : Option GPReg} (pcAfter : Word) (hd : i.dest = d) :
    Agree (After r r' d) (pure { pcAfter } : Sim Next) (Done r r' i) :=
  Agree.pure fun _ _ h => ⟨hd ▸ h, .inl rfl⟩

theorem agree_branch {d : Option GPReg} (pcAfter : Word) (taken : Bool) (hd : i.dest = d) :
    Agree (After r r' d) (branch i pcAfter taken) (Done r r' i) := by
  unfold branch
  exact (agree_reg hc.nextPC).bind fun next => agree_goto _ hd

omit hc in
theorem agree_jump {d : Option GPReg} (pcAfter : Word) (hd : i.dest = d) :
    Agree (After r r' d) (jump i pcAfter) (Done r r' i) := agree_goto _ hd

/-! ## Loads and stores -/

omit hc in
theorem agree_effective (hs : r (gp i.rs) = r' (gp i.rs)) :
    Agree (Parallel r r' U) (effective i) (fun _ => Parallel r r' U) := by
  unfold effective
  exact (agree_gpr hs).bind fun _ => Agree.pure fun _ _ h => h

omit hc in
/-- A load that was started is left to `retire`. -/
theorem agree_started {n : Next} (hn : n.nextLoadReg = regNo i.rt) (hd : i.dest = none) :
    Agree (After r r' none) (pure n : Sim Next) (Done r r' i) := by
  refine Agree.pure fun _ _ h => ⟨?_, .inr ⟨hd, hn⟩⟩
  rw [After, hd]
  exact h

theorem agree_loadByte (pcAfter : Word) (signed : Bool) (hs : r (gp i.rs) = r' (gp i.rs))
    (hd : i.dest = none) :
    Agree (After r r' none) (loadByte i pcAfter signed) (Done r r' i) := by
  unfold loadByte
  refine (agree_effective hs).bind fun tmp => ?_
  refine (agree_readMem hc tmp 1 (loadReg_kept none)).bind fun value => ?_
  exact agree_started rfl hd

theorem agree_loadHalf (pcAfter : Word) (signed : Bool) (hs : r (gp i.rs) = r' (gp i.rs))
    (hd : i.dest = none) :
    Agree (After r r' none) (loadHalf i pcAfter signed) (Done r r' i) := by
  unfold loadHalf
  refine (agree_effective hs).bind fun tmp => ?_
  refine Agree.ite (fun _ => agree_raise hc _ _ (loadReg_kept none)) fun _ => ?_
  refine (agree_readMem hc tmp 2 (loadReg_kept none)).bind fun value => ?_
  exact agree_started rfl hd

theorem agree_loadWord (pcAfter : Word) (hs : r (gp i.rs) = r' (gp i.rs)) (hd : i.dest = none) :
    Agree (After r r' none) (loadWord i pcAfter) (Done r r' i) := by
  unfold loadWord
  refine (agree_effective hs).bind fun tmp => ?_
  refine Agree.ite (fun _ => agree_raise hc _ _ (loadReg_kept none)) fun _ => ?_
  refine (agree_readMem hc tmp 4 (loadReg_kept none)).bind fun value => ?_
  exact agree_started rfl hd

omit hc in
theorem forwarded_run (rt : GPReg) (m : Machine) :
    forwarded rt m = .ok (pendingValue m.registers rt) m := by
  unfold forwarded pendingValue
  rw [bind_run (show reg loadReg m = .ok (m.registers loadReg) m from rfl)]
  by_cases h : m.registers loadReg = regNo rt
  · rw [if_pos h, if_pos h]; rfl
  · rw [if_neg h, if_neg h]; rfl

omit hc in
theorem pendingValue_congr {s : Registers} {rt : GPReg} (hl : s loadReg = r loadReg)
    (hv : s loadValueReg = r loadValueReg) (hg : s (gp rt) = r (gp rt)) :
    pendingValue s rt = pendingValue r rt := by
  unfold pendingValue
  rw [hl, hv, hg]

omit hc in
theorem agree_forwarded {rt : GPReg} (hf : pendingValue r rt = pendingValue r' rt) :
    Agree (After r r' none) (forwarded rt) (fun _ => After r r' none) := by
  intro m m' h
  rw [forwarded_run, forwarded_run]
  have hload := loadReg_kept none
  have hvalue : loadValueReg ∈ kept none :=
    ⟨by decide, by decide, fun _ hg => nomatch hg⟩
  have hgp : gp rt ∈ kept none := gp_kept (fun hg => nomatch hg)
  refine ⟨?_, h⟩
  calc pendingValue m.registers rt
      = pendingValue r rt :=
        pendingValue_congr (h.left _ hload) (h.left _ hvalue) (h.left _ hgp)
    _ = pendingValue r' rt := hf
    _ = pendingValue m'.registers rt :=
        (pendingValue_congr (h.right _ hload) (h.right _ hvalue) (h.right _ hgp)).symm

theorem agree_loadUnaligned (pcAfter : Word) (merge : Word → Word → Word → Word)
    (hs : r (gp i.rs) = r' (gp i.rs)) (hf : pendingValue r i.rt = pendingValue r' i.rt)
    (hd : i.dest = none) :
    Agree (After r r' none) (loadUnaligned i pcAfter merge) (Done r r' i) := by
  unfold loadUnaligned
  refine (agree_effective hs).bind fun tmp => ?_
  refine (agree_readMem hc _ 4 (loadReg_kept none)).bind fun value => ?_
  refine (agree_forwarded hf).bind fun old => ?_
  exact agree_started rfl hd

theorem agree_storeReg (size : Nat) (hs : r (gp i.rs) = r' (gp i.rs))
    (ht : r (gp i.rt) = r' (gp i.rt)) :
    Agree (After r r' none) (storeReg i size) (fun _ => After r r' none) := by
  unfold storeReg
  refine (agree_effective hs).bind fun tmp => ?_
  refine (agree_gpr ht).bind fun v => ?_
  exact agree_writeMem hc tmp size v (loadReg_kept none)

theorem agree_storeUnaligned (split : Word → Word → Word → Word)
    (hs : r (gp i.rs) = r' (gp i.rs)) (ht : r (gp i.rt) = r' (gp i.rt)) :
    Agree (After r r' none) (storeUnaligned i split) (fun _ => After r r' none) := by
  unfold storeUnaligned
  refine (agree_effective hs).bind fun tmp => ?_
  refine (agree_readMem hc _ 4 (loadReg_kept none)).bind fun value => ?_
  refine (agree_gpr ht).bind fun new => ?_
  exact agree_writeMem hc _ 4 _ (loadReg_kept none)

/-! ## The switch -/

/-- The registers the instruction reads are equal in the two files. -/
structure Reads (r r' : Registers) (i : Instruction) : Prop where
  sources : ∀ g, g ∈ i.sources → r (gp g) = r' (gp g)
  merged : i.opCode = .lwl ∨ i.opCode = .lwr → pendingValue r i.rt = pendingValue r' i.rt

theorem execute_agree {i : Instruction} (hi : Reads r r' i) :
    Agree (After r r' none) (execute i) (Done r r' i) := by
  obtain ⟨value, opCode, rs, rt, rd, extra⟩ := i
  obtain ⟨hsrc, hmerge⟩ := hi
  unfold execute
  refine (agree_reg hc.nextPC).bind fun next => ?_
  cases opCode with
  | add | sub =>
    have hs := hsrc rs (.head _)
    have ht := hsrc rt (.tail _ (.head _))
    refine agree_straight _ ((agree_gpr hs).bind fun a => (agree_gpr ht).bind fun b => ?_)
    exact agree_trapping hc rd _ _
  | addi =>
    refine agree_straight _ ((agree_gpr (hsrc rs (.head _))).bind fun a => ?_)
    exact agree_trapping hc rt _ _
  | addu | and | nor | or | sllv | slt | sltu | srav | srlv | subu | xor =>
    exact agree_straight _
      (agree_alu hc rd _ (hsrc rs (.head _)) (hsrc rt (.tail _ (.head _))))
  | addiu | andi | ori | slti | sltiu | xori =>
    exact agree_straight _ (agree_aluImm hc rt _ (hsrc rs (.head _)))
  | sll | sra | srl => exact agree_straight _ (agree_aluImm hc rd _ (hsrc rt (.head _)))
  | lui => exact agree_straight _ (agree_setGpr hc rt _)
  | beq | bne =>
    have hs := hsrc rs (.head _)
    have ht := hsrc rt (.tail _ (.head _))
    exact (agree_gpr hs).bind fun a => (agree_gpr ht).bind fun b => agree_branch hc _ _ rfl
  | bgez | bgtz | blez | bltz =>
    exact (agree_gpr (hsrc rs (.head _))).bind fun a => agree_branch hc _ _ rfl
  | bgezal | bltzal =>
    -- The link register is written before `rs` is read.
    refine (agree_link hc 31).bind fun _ => ?_
    exact (agree_gpr (hsrc rs (.head _))).bind fun a => agree_branch hc _ _ rfl
  | j => exact agree_jump _ rfl
  | jal => exact (agree_link hc 31).bind fun _ => agree_jump _ rfl
  | jr => exact (agree_gpr (hsrc rs (.head _))).bind fun a => agree_goto _ rfl
  | jalr =>
    refine (agree_link hc rd).bind fun _ => ?_
    exact (agree_gpr (hsrc rs (.head _))).bind fun a => agree_goto _ rfl
  | div =>
    have hs := hsrc rs (.head _)
    have ht := hsrc rt (.tail _ (.head _))
    refine agree_straight _ ((agree_gpr hs).bind fun a => (agree_gpr ht).bind fun b => ?_)
    exact agree_divSigned hc a b
  | divu =>
    have hs := hsrc rs (.head _)
    have ht := hsrc rt (.tail _ (.head _))
    refine agree_straight _ ((agree_gpr hs).bind fun a => (agree_gpr ht).bind fun b => ?_)
    exact agree_divUnsigned hc a b
  | mult | multu =>
    have hs := hsrc rs (.head _)
    have ht := hsrc rt (.tail _ (.head _))
    refine agree_straight _ ((agree_gpr hs).bind fun a => (agree_gpr ht).bind fun b => ?_)
    exact agree_setHiLo hc _ _
  | mfhi => exact agree_straight _ ((agree_reg hc.hi).bind fun v => agree_setGpr hc rd v)
  | mflo => exact agree_straight _ ((agree_reg hc.lo).bind fun v => agree_setGpr hc rd v)
  | mthi =>
    refine agree_straight _ ((agree_gpr (hsrc rs (.head _))).bind fun v => ?_)
    exact agree_setSpecial hc v (.inl rfl)
  | mtlo =>
    refine agree_straight _ ((agree_gpr (hsrc rs (.head _))).bind fun v => ?_)
    exact agree_setSpecial hc v (.inr rfl)
  | lb | lbu => exact agree_loadByte hc _ _ (hsrc rs (.head _)) rfl
  | lh | lhu => exact agree_loadHalf hc _ _ (hsrc rs (.head _)) rfl
  | lw => exact agree_loadWord hc _ (hsrc rs (.head _)) rfl
  | lwl => exact agree_loadUnaligned hc _ _ (hsrc rs (.head _)) (hmerge (.inl rfl)) rfl
  | lwr => exact agree_loadUnaligned hc _ _ (hsrc rs (.head _)) (hmerge (.inr rfl)) rfl
  | sb | sh | sw =>
    exact agree_straight _
      (agree_storeReg hc _ (hsrc rs (.head _)) (hsrc rt (.tail _ (.head _))))
  | swl | swr =>
    exact agree_straight _
      (agree_storeUnaligned hc _ (hsrc rs (.head _)) (hsrc rt (.tail _ (.head _))))
  | syscall | unimp | res => exact agree_raise hc _ _ (loadReg_kept none)
  | rfe => exact Agree.throw

end Programs

end Machine
end Nachos
