import Nachos.Lib.WriteLog
import Nachos.Machine.Host

/-!
# The memory of bytes

Loads and stores of all widths work on one little-endian memory of bytes: what a
load delivers are the bytes that the stores before it have put there last.
-/

namespace Nachos
namespace Machine

open Lib WordBytes

/-- The bytes of an integer of this size. -/
def Width (size : Nat) : Prop := size = 1 ∨ size = 2 ∨ size = 4

/-- The bytes of main memory from an address on. -/
def Memory.bytesAt (m : Memory) (pa : Nat) : Nat → BitVec 8 := fun k =>
  (m.physical (pa + k)).toBitVec

/-! ## Reading and writing -/

section Access

variable {m m' : Memory} {addr value : Word} {size pa : Nat} {writing : Bool} {slot : Slot}

theorem Found.locate (hf : Found m addr size writing slot pa) (hsize : 0 < size)
    (hone : m.OneTable) : m.locate addr = some pa := by
  have hbyte : Found m addr 1 false slot pa := by
    refine ⟨hf.lookup, hf.reading.maps, ?_⟩
    have hpage := hf.inPage
    omega
  have hin := (hf.bytes (a := pa) (Nat.le_refl pa) (by omega)).1
  rw [Memory.locate, translate_run hone hbyte (by omega) (by omega)]

theorem Found.inMemory (hf : Found m addr size writing slot pa) (hsize : 0 < size) :
    pa + size ≤ memorySize := by
  have hlast := (hf.bytes (a := pa + size - 1) (by omega) (by omega)).1
  omega

theorem fetch_width (m : Memory) (hsize : Width size) (hin : pa + size ≤ memorySize) :
    fetch pa size m = .ok (extended (size = 1) size (m.bytesAt pa)) m := by
  rcases hsize with rfl | rfl | rfl
  · unfold fetch
    rw [if_pos rfl, bind_run (byteAt_run m (a := pa) (by omega)), extended_one]
    rfl
  · unfold fetch
    rw [if_neg (by decide), if_pos rfl, bind_run (byteAt_run m (a := pa + 1) (by omega)),
      bind_run (byteAt_run m (a := pa) (by omega)), extended_two]
    rfl
  · rw [fetch_run m hin, extended_four]
    rfl

theorem raiseException_not_ok {α : Type} {which : ExceptionType} {m m' : Machine} {a : α} :
    (raiseException which addr : Sim α) m ≠ .ok a m' := by
  intro hrun
  have htriple : Triple (Quiet m) (raiseException which addr) (fun (_ : α) _ => False)
      (Stops m addr False) := raiseException_triple which addr
  exact htriple.ok ⟨rfl, .refl _⟩ hrun

/-- An access that returns has translated its address. -/
theorem onMemory_translate {m m₁ : Machine} {found : Except ExceptionType Nat}
    (hsize : Width size) (h : onMemory (translate addr size writing) m = .ok found m₁) :
    (∃ e, found = .error e) ∨ ∃ slot pa, found = .ok pa ∧
      Found m.memory addr size writing slot pa ∧ m.memory.OneTable ∧
        m₁ = { m with memory := m.memory.touch slot writing } := by
  unfold onMemory at h
  cases hrun : translate addr size writing m.memory with
  | error e mem =>
    rw [hrun] at h
    cases h
  | ok result mem =>
    rw [hrun] at h
    cases h
    cases found with
    | error e => exact .inl ⟨e, rfl⟩
    | ok pa =>
      obtain ⟨slot, hfound, hmem⟩ := (translate_triple m.memory addr writing hsize).ok rfl hrun
      exact .inr ⟨slot, pa, rfl, hfound, oneTable_of_translate hrun, by rw [hmem]⟩

/-- `ReadMem` that returns has read at the translation of its address. -/
theorem readMem_ok {m m' : Machine} (hsize : Width size)
    (h : readMem addr size m = .ok value m') : ∃ pa, m.memory.locate addr = some pa ∧
      m'.registers = m.registers ∧ Used m.memory m'.memory ∧
        value = extended (size = 1) size (m.memory.bytesAt pa) := by
  have hpos : 0 < size := by
    rcases hsize with rfl | rfl | rfl <;> decide
  unfold readMem at h
  obtain ⟨found, m₁, htranslate, h⟩ := bind_ok.mp h
  rcases onMemory_translate hsize htranslate with ⟨e, rfl⟩ | ⟨slot, pa, rfl, hfound, hone, rfl⟩
  · exact absurd h raiseException_not_ok
  · have hrun := fetch_width (m.memory.touch slot false) hsize (hfound.inMemory hpos)
    unfold onMemory at h
    dsimp only at h
    rw [hrun] at h
    cases h
    refine ⟨pa, hfound.locate hpos hone, rfl, .touch m.memory slot, ?_⟩
    have hbytes : (m.memory.touch slot false).bytesAt pa = m.memory.bytesAt pa :=
      funext fun k => by
        unfold Memory.bytesAt
        rw [physical_congr (m.memory.touch_mainMemory slot false)]
    rw [hbytes]

/-- `WriteMem` that returns has written at the translation of its address, and nowhere else. -/
theorem writeMem_ok {m m' : Machine} (hsize : Width size)
    (h : writeMem addr size value m = .ok () m') : ∃ pa, m.memory.locate addr = some pa ∧
      pa + size ≤ memorySize ∧ m'.registers = m.registers ∧
        ∀ a, m'.memory.physical a =
          if pa ≤ a ∧ a < pa + size then byteOf value (a - pa) else m.memory.physical a := by
  have hpos : 0 < size := by
    rcases hsize with rfl | rfl | rfl <;> decide
  unfold writeMem at h
  obtain ⟨found, m₁, htranslate, h⟩ := bind_ok.mp h
  rcases onMemory_translate hsize htranslate with ⟨e, rfl⟩ | ⟨slot, pa, rfl, hfound, hone, rfl⟩
  · exact absurd h raiseException_not_ok
  · have hin := hfound.inMemory hpos
    have hrun : store pa size value (m.memory.touch slot true) =
        .ok () ((m.memory.touch slot true).write pa value size) :=
      (congrFun (if_pos hsize) _).trans (storeBytes_run _ value hin)
    unfold onMemory at h
    dsimp only at h
    rw [hrun] at h
    cases h
    refine ⟨pa, hfound.locate hpos hone, hin, rfl, fun a => ?_⟩
    dsimp only
    rw [physical_write _ value hin, physical_congr (m.memory.touch_mainMemory slot true)]

end Access

/-! ## Instructions -/

/-- The width of a store of whole registers or their low parts. -/
def OpCode.storeSize : OpCode → Option Nat
  | .sb => some 1
  | .sh => some 2
  | .sw => some 4
  | _ => none

/-- The width of a load, and whether it extends the sign. -/
def OpCode.loadSize : OpCode → Option (Nat × Bool)
  | .lb => some (1, true)
  | .lbu => some (1, false)
  | .lh => some (2, true)
  | .lhu => some (2, false)
  | .lw => some (4, false)
  | _ => none

/-- The bytes that the instruction stores, low bytes first, at the translation of its address. -/
def Instruction.writes (i : Instruction) (m : Machine) : List (Write UInt8) :=
  match i.opCode.storeSize, m.memory.locate (m.registers (gp i.rs) + i.extra) with
  | some size, some pa => [⟨pa, (List.range size).map (byteOf (m.registers (gp i.rt)))⟩]
  | _, _ => []

section Instructions

variable {m m₂ m' : Machine} {i : Instruction} {n : Next} {size : Nat} {signed : Bool}

theorem OpCode.storeSize_width {op : OpCode} (h : op.storeSize = some size) : Width size := by
  unfold storeSize at h
  split at h
  · cases h
    exact .inl rfl
  · cases h
    exact .inr (.inl rfl)
  · cases h
    exact .inr (.inr rfl)
  · cases h

theorem straight_ok {pcAfter : Word} {x : Sim Unit} (h : straight pcAfter x m = .ok n m₂) :
    x m = .ok () m₂ := by
  unfold straight at h
  obtain ⟨_, m₁, hx, h⟩ := bind_ok.mp h
  cases h
  exact hx

theorem storeReg_ok (h : storeReg i size m = .ok () m₂) :
    writeMem (m.registers (gp i.rs) + i.extra) size (m.registers (gp i.rt)) m = .ok () m₂ := by
  unfold storeReg effective at h
  obtain ⟨tmp, m₁, htmp, h⟩ := bind_ok.mp h
  cases htmp
  obtain ⟨v, m₁, hv, h⟩ := bind_ok.mp h
  cases hv
  exact h

theorem execute_store (hsize : i.opCode.storeSize = some size) (h : execute i m = .ok n m₂) :
    writeMem (m.registers (gp i.rs) + i.extra) size (m.registers (gp i.rt)) m = .ok () m₂ := by
  obtain ⟨value, opCode, rs, rt, rd, extra⟩ := i
  unfold execute at h
  obtain ⟨next, m₁, hnext, h⟩ := bind_ok.mp h
  cases hnext
  cases opCode with
  | sb | sh | sw =>
    cases hsize
    exact storeReg_ok (straight_ok h)
  | _ => cases hsize

theorem effective_ok {tmp : Word} (h : effective i m = .ok tmp m₂) :
    tmp = m.registers (gp i.rs) + i.extra ∧ m₂ = m := by
  unfold effective at h
  obtain ⟨base, m₁, hbase, h⟩ := bind_ok.mp h
  cases hbase
  cases h
  exact ⟨rfl, rfl⟩

/-- A load that returns has started to deliver the bytes at the translation of its address. -/
structure Loaded (m : Machine) (i : Instruction) (size : Nat) (signed : Bool) (n : Next)
    (m₂ : Machine) : Prop where
  register : n.nextLoadReg = regNo i.rt
  value : ∃ pa, m.memory.locate (m.registers (gp i.rs) + i.extra) = some pa ∧
    n.nextLoadValue = extended signed size (m.memory.bytesAt pa)
  registers : m₂.registers = m.registers
  memory : Used m.memory m₂.memory

theorem loadByte_ok {pcAfter : Word} (h : loadByte i pcAfter signed m = .ok n m₂) :
    Loaded m i 1 signed n m₂ := by
  unfold loadByte at h
  obtain ⟨tmp, m₁, htmp, h⟩ := bind_ok.mp h
  obtain ⟨rfl, rfl⟩ := effective_ok htmp
  obtain ⟨value, m₃, hread, h⟩ := bind_ok.mp h
  cases h
  obtain ⟨pa, hlocate, hregs, hused, hvalue⟩ := readMem_ok (.inl rfl) hread
  refine ⟨rfl, ⟨pa, hlocate, ?_⟩, hregs, hused⟩
  rw [extended_one] at hvalue ⊢
  have hlow : value.setWidth 8 = m₁.memory.bytesAt pa 0 := by
    rw [hvalue, setWidth_extend (by decide)]
  exact extend_eq (by decide) (by decide) hlow signed

theorem loadHalf_ok {pcAfter : Word} (h : loadHalf i pcAfter signed m = .ok n m₂) :
    Loaded m i 2 signed n m₂ := by
  unfold loadHalf at h
  obtain ⟨tmp, m₁, htmp, h⟩ := bind_ok.mp h
  obtain ⟨rfl, rfl⟩ := effective_ok htmp
  split at h
  · exact absurd h raiseException_not_ok
  · obtain ⟨value, m₃, hread, h⟩ := bind_ok.mp h
    cases h
    obtain ⟨pa, hlocate, hregs, hused, hvalue⟩ := readMem_ok (.inr (.inl rfl)) hread
    refine ⟨rfl, ⟨pa, hlocate, ?_⟩, hregs, hused⟩
    rw [extended_two] at hvalue ⊢
    have hlow : value.setWidth 16 = m₁.memory.bytesAt pa 1 ++ m₁.memory.bytesAt pa 0 := by
      rw [hvalue, setWidth_extend (by decide)]
    exact extend_eq (by decide) (by decide) hlow signed

theorem loadWord_ok {pcAfter : Word} (h : loadWord i pcAfter m = .ok n m₂) :
    Loaded m i 4 false n m₂ := by
  unfold loadWord at h
  obtain ⟨tmp, m₁, htmp, h⟩ := bind_ok.mp h
  obtain ⟨rfl, rfl⟩ := effective_ok htmp
  split at h
  · exact absurd h raiseException_not_ok
  · obtain ⟨value, m₃, hread, h⟩ := bind_ok.mp h
    cases h
    obtain ⟨pa, hlocate, hregs, hused, hvalue⟩ := readMem_ok (.inr (.inr rfl)) hread
    exact ⟨rfl, ⟨pa, hlocate, hvalue⟩, hregs, hused⟩

theorem execute_load (hsize : i.opCode.loadSize = some (size, signed))
    (h : execute i m = .ok n m₂) : Loaded m i size signed n m₂ := by
  obtain ⟨value, opCode, rs, rt, rd, extra⟩ := i
  unfold execute at h
  obtain ⟨next, m₁, hnext, h⟩ := bind_ok.mp h
  cases hnext
  cases opCode with
  | lb | lbu =>
    cases hsize
    exact loadByte_ok h
  | lh | lhu =>
    cases hsize
    exact loadHalf_ok h
  | lw =>
    cases hsize
    exact loadWord_ok h
  | _ => cases hsize

/-- An instruction that returns has gone through its `switch`, with use bits set by the fetch. -/
theorem oneInstruction_parts (hi : fetched m = some i) (h : oneInstruction m = .ok () m') :
    ∃ mem n m₂, Used m.memory mem ∧ execute i { m with memory := mem } = .ok n m₂ ∧
      m' = { m₂ with registers := retired m₂.registers n } := by
  obtain ⟨mem, hused, hrun⟩ := oneInstruction_of_fetched hi
  rw [hrun] at h
  obtain ⟨n, m₂, hexecute, hretire⟩ := bind_ok.mp h
  have htriple : Triple (· = m₂) (retire n)
      (fun _ s => s = { m₂ with registers := retired m₂.registers n }) (Stops m₂ 0 False) :=
    retire_triple m₂ n rfl
  have hregs := htriple.ok rfl hretire
  exact ⟨mem, n, m₂, hused, hexecute, hregs⟩

theorem locate_same {m m' : Memory} (hsame : SameTables m m') {addr : Word} {pa : Nat}
    (h : m'.locate addr = some pa) : m.locate addr = some pa := by
  unfold Memory.locate at h
  split at h
  · rename_i found mem hrun
    cases h
    obtain ⟨slot, hfound, -⟩ := (translate_triple m' addr false (.inl rfl)).ok rfl hrun
    have hone := hsame.oneTable.mp (oneTable_of_translate hrun)
    exact (hfound.same hsame).locate Nat.one_pos hone
  · cases h

theorem Used.bytesAt {m m' : Memory} (h : Used m m') (pa : Nat) : m'.bytesAt pa = m.bytesAt pa :=
  funext fun k => by
    unfold Memory.bytesAt
    rw [physical_congr h.mainMemory]

/-- What the write of a store puts in each cell. -/
theorem cell_stored (value : Word) (size pa a : Nat) :
    (⟨pa, (List.range size).map (byteOf value)⟩ : Write UInt8).cell a =
      if pa ≤ a ∧ a < pa + size then some (byteOf value (a - pa)) else none := by
  unfold Write.cell
  dsimp only
  by_cases hle : pa ≤ a
  · rw [if_pos hle, List.getElem?_map]
    by_cases hlt : a < pa + size
    · rw [if_pos ⟨hle, hlt⟩, List.getElem?_range (by omega)]
      rfl
    · rw [if_neg fun hin => hlt hin.2, List.getElem?_eq_none (by simp; omega)]
      rfl
  · rw [if_neg hle, if_neg fun hin => hle hin.1]

/-- What one instruction does to the bytes of main memory. -/
theorem physical_step (hi : fetched m = some i) (hright : i.opCode ≠ .swr)
    (hleft : i.opCode ≠ .swl) (h : oneInstruction m = .ok () m') (a : Nat) :
    m'.memory.physical a = (i.writes m).foldl Write.apply m.memory.physical a := by
  cases hsize : i.opCode.storeSize with
  | some size =>
    obtain ⟨mem, n, m₂, hused, hexecute, rfl⟩ := oneInstruction_parts hi h
    obtain ⟨pa, hlocate, hin, hregs, hbytes⟩ :=
      writeMem_ok (OpCode.storeSize_width hsize) (execute_store hsize hexecute)
    have hwrites : i.writes m =
        [⟨pa, (List.range size).map (byteOf (m.registers (gp i.rt)))⟩] := by
      unfold Instruction.writes
      rw [hsize, locate_same hused.toSameTables hlocate]
    rw [hwrites]
    show m₂.memory.physical a = (Write.cell _ a).getD (m.memory.physical a)
    rw [hbytes, cell_stored, physical_congr hused.mainMemory]
    by_cases hcover : pa ≤ a ∧ a < pa + size
    · rw [if_pos hcover, if_pos hcover]
      rfl
    · rw [if_neg hcover, if_neg hcover]
      rfl
  | none =>
    obtain ⟨i', n, hfetched, m₂, heffect, rfl⟩ := (oneInstruction_triple m).ok rfl h
    rw [hi] at hfetched
    cases hfetched
    have hwrites : i.writes m = [] := by
      unfold Instruction.writes
      rw [hsize]
    have hstores : i.stores = false := by
      unfold Instruction.stores
      revert hsize hright hleft
      cases i.opCode <;> decide
    rcases heffect.memory with hused | ⟨hyes, -⟩
    · rw [hwrites]
      exact physical_congr hused.mainMemory a
    · rw [hstores] at hyes
      cases hyes

end Instructions

/-! ## Runs -/

/-- Instructions that are executed one after the other, with all that they have stored.  SWL
and SWR, which store a part of a word, are not among them. -/
inductive Run (h : Host) (m₀ : Machine) : List (Write UInt8) → Machine → Prop
  | refl : Run h m₀ [] m₀
  | step {log : List (Write UInt8)} {m m' : Machine} {i : Instruction} (hrun : Run h m₀ log m)
      (hi : fetched m = some i) (hright : i.opCode ≠ .swr) (hleft : i.opCode ≠ .swl)
      (hone : h.oneInstruction m = .ok () m') : Run h m₀ (log ++ i.writes m) m'

/-- The value gets to the register with the next instruction, or when the machine is
interrupted before it, or stopped in it by an exception.  Register 0 stays 0. -/
structure Delivers (h : Host) (m : Machine) (rt : GPReg) (value : Word) : Prop where
  next : ∀ m', h.oneInstruction m = .ok () m' →
    m'.registers (gp rt) = if rt = 0 then 0 else value
  interrupted : ∀ a b m', delayedLoad a b m = .ok () m' →
    m'.registers (gp rt) = if rt = 0 then 0 else value
  stopped : ∀ e m', h.oneInstruction m = .error (.exception e) m' →
    m'.registers (gp rt) = if rt = 0 then 0 else value

section Runs

variable {h : Host} {m₀ m m' : Machine} {log : List (Write UInt8)} {i : Instruction}
  {rt : GPReg} {value : Word}

/-- Main memory after a run: each byte is the one stored last. -/
theorem Run.physical (hrun : Run h m₀ log m) (a : Nat) :
    m.memory.physical a = (Write.latest log a).getD (m₀.memory.physical a) := by
  rw [← Write.foldl_apply]
  induction hrun generalizing a with
  | refl => rfl
  | step hrun hi hright hleft hone ih =>
    rw [h.oneInstruction_eq] at hone
    rw [physical_step hi hright hleft hone, List.foldl_append]
    exact congrArg (fun store => List.foldl Write.apply store _ a) (funext ih)

theorem loaded_value {r : Registers} (hreg : r loadReg = regNo rt) (hvalue : r loadValueReg = value)
    (a b : Word) : loaded r a b (gp rt) = if rt = 0 then 0 else value := by
  by_cases hzero : rt = 0
  · rw [if_pos hzero, hzero]
    rfl
  · rw [if_neg hzero, loaded_gp hreg hzero, hvalue]

theorem delivers (hreg : m.registers loadReg = regNo rt) (hvalue : m.registers loadValueReg = value) :
    Delivers h m rt value := by
  refine ⟨fun m' hone => ?_, fun a b m' hload => ?_, fun e m' hone => ?_⟩
  · rw [h.oneInstruction_eq] at hone
    obtain ⟨i, n, -, m₂, heffect, rfl⟩ := (oneInstruction_triple m).ok rfl hone
    have hreg₂ := (heffect.registers _ (loadReg_kept _)).trans hreg
    have hvalue₂ := (heffect.registers _ (loadValueReg_kept _)).trans hvalue
    exact (retired_gp n).trans (loaded_value hreg₂ hvalue₂ _ _)
  · have hregs := (delayedLoad_triple m a b).ok rfl hload
    rw [hregs]
    exact loaded_value hreg hvalue a b
  · rw [h.oneInstruction_eq] at hone
    obtain ⟨hregs, -⟩ := (oneInstruction_triple m).error rfl hone
    rw [hregs]
    exact loaded_value
      (r := fun j => if j = badVAddrReg then m.faultAddress else m.registers j) hreg hvalue 0 0

theorem Host.narrow_extended {size : Nat} (hsize : Width size) (b : Nat → BitVec 8) :
    h.narrow size (extended (size = 1) size b) = extended (size = 1 && h.charSigned) size b := by
  by_cases hone : size = 1
  · subst hone
    rw [decide_eq_true rfl, Bool.true_and, extended_one, if_pos rfl, extended_one]
    exact h.narrow_char ⟨b 0⟩
  · rw [decide_eq_false hone, Bool.false_and]
    exact if_neg fun hnarrow => hone hnarrow.1

theorem Host.readMem_ok {addr : Word} {size : Nat} (hsize : Width size)
    (hread : h.readMem addr size m = .ok value m') : ∃ pa, m.memory.locate addr = some pa ∧
      m'.registers = m.registers ∧ m'.memory.mainMemory = m.memory.mainMemory ∧
        value = extended (size = 1 && h.charSigned) size (m.memory.bytesAt pa) := by
  rw [h.readMem_eq] at hread
  obtain ⟨v, m₁, hread, hvalue⟩ := bind_ok.mp hread
  cases hvalue
  obtain ⟨pa, hlocate, hregs, hused, rfl⟩ := Machine.readMem_ok hsize hread
  exact ⟨pa, hlocate, hregs, hused.mainMemory, h.narrow_extended hsize _⟩

theorem Host.readMem_error {addr : Word} {size : Nat} {e : Stop}
    (hread : h.readMem addr size m = .error e m') : Machine.readMem addr size m = .error e m' := by
  rw [h.readMem_eq] at hread
  cases hrun : Machine.readMem addr size m with
  | ok v m₁ =>
    rw [bind_run hrun] at hread
    cases hread
  | error e₁ m₁ =>
    rw [bind_error hrun] at hread
    exact hread

/-- On every host memory is one little-endian memory of bytes: `WriteMem` puts the low bytes of
the value at the translation of its address and changes no other byte; `ReadMem` composes them,
a `char` with its sign; neither changes a byte when it raises an exception; and after any run a
load delivers, sign- or zero-extended, the bytes that were stored last. -/
theorem bytes_exact (h : Host) :
    (∀ (m m' : Machine) (addr value : Word) (size : Nat), Width size →
      h.writeMem addr size value m = .ok () m' → ∃ pa, m.memory.locate addr = some pa ∧
        pa + size ≤ memorySize ∧ m'.registers = m.registers ∧
          ∀ a, m'.memory.physical a =
            if pa ≤ a ∧ a < pa + size then byteOf value (a - pa) else m.memory.physical a) ∧
    (∀ (m m' : Machine) (addr value : Word) (size : Nat), Width size →
      h.readMem addr size m = .ok value m' → ∃ pa, m.memory.locate addr = some pa ∧
        m'.registers = m.registers ∧ m'.memory.mainMemory = m.memory.mainMemory ∧
          value = extended (size = 1 && h.charSigned) size (m.memory.bytesAt pa)) ∧
    (∀ (m m' : Machine) (addr value : Word) (size : Nat) (e : ExceptionType), Width size →
      h.readMem addr size m = .error (.exception e) m' ∨
        h.writeMem addr size value m = .error (.exception e) m' →
        m'.memory.mainMemory = m.memory.mainMemory) ∧
    ∀ (m₀ m m' : Machine) (log : List (Write UInt8)) (i : Instruction) (size : Nat)
      (signed : Bool), Run h m₀ log m → fetched m = some i →
      i.opCode.loadSize = some (size, signed) → h.oneInstruction m = .ok () m' →
        ∃ pa, m.memory.locate (m.registers (gp i.rs) + i.extra) = some pa ∧
          Delivers h m' i.rt (extended signed size fun k =>
            ((Write.latest log (pa + k)).getD (m₀.memory.physical (pa + k))).toBitVec) := by
  refine ⟨fun m m' addr value size hsize hwrite => ?_, fun m m' addr value size hsize hread => ?_,
    fun m m' addr value size e hsize hstop => ?_,
    fun m₀ m m' log i size signed hrun hi hload hone => ?_⟩
  · rw [h.writeMem_eq] at hwrite
    exact writeMem_ok hsize hwrite
  · exact h.readMem_ok hsize hread
  · rcases hstop with hread | hwrite
    · have hrun := Host.readMem_error hread
      have htriple : Triple (Quiet m) (readMem addr size) (fun _ s => Quiet m s)
          (Stops m addr False) := readMem_triple addr hsize
      exact (htriple.error ⟨rfl, .refl _⟩ hrun).2.mainMemory
    · rw [h.writeMem_eq] at hwrite
      have htriple : Triple (Quiet m) (writeMem addr size value) (fun _ s => Written m addr s)
          (Stops m addr False) := writeMem_triple addr value hsize
      exact (htriple.error ⟨rfl, .refl _⟩ hwrite).2.mainMemory
  · rw [h.oneInstruction_eq] at hone
    obtain ⟨mem, n, m₂, hused, hexecute, rfl⟩ := oneInstruction_parts hi hone
    obtain ⟨hregister, ⟨pa, hlocate, hvalue⟩, hregs, -⟩ := execute_load hload hexecute
    refine ⟨pa, locate_same hused.toSameTables hlocate, delivers hregister ?_⟩
    have hbytes : mem.bytesAt pa = fun k =>
        ((Write.latest log (pa + k)).getD (m₀.memory.physical (pa + k))).toBitVec := by
      rw [hused.bytesAt]
      exact funext fun k => congrArg UInt8.toBitVec (hrun.physical (pa + k))
    exact hvalue.trans (congrArg (extended signed size) hbytes)

end Runs

end Machine
end Nachos
