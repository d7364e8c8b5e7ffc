import Nachos.FileSys.Disk
import Nachos.Machine.Decode
import Mathlib.Algebra.GroupWithZero.Nat
import Mathlib.Data.List.FinRange

/-!
# The simulated machine and its memory

The registers, main memory and translation tables of class `Machine`, with
`Translate`, `ReadMem`, `WriteMem`, `DelayedLoad` and `RaiseException`.

A routine of the simulator is a program in `Sim`.  `RaiseException` enters the
kernel, and every routine that raised an exception returns at once, so it is
where the program stops; the state it stops in is the one `ExceptionHandler`
finds.  The other ways to stop are failures of the simulator itself.

The host is little-endian, so `WordToHost`, `ShortToHost` and their inverses
change nothing, and its `char` is signed.
-/

namespace Nachos
namespace Machine

/-- `PageSize` is `SectorSize`. -/
abbrev pageSize : Nat := FileSys.sectorSize

abbrev numPhysPages : Nat := 64

abbrev memorySize : Nat := numPhysPages * pageSize

abbrev tlbSize : Nat := 4

abbrev numTotalRegs : Nat := 40

instance neZeroTotalRegs : NeZero numTotalRegs := ⟨by decide⟩

/-- An index into `registers`. -/
abbrev Reg := Fin numTotalRegs

abbrev hiReg : Reg := 32
abbrev loReg : Reg := 33
abbrev pcReg : Reg := 34
abbrev nextPCReg : Reg := 35
abbrev prevPCReg : Reg := 36
abbrev loadReg : Reg := 37
abbrev loadValueReg : Reg := 38
abbrev badVAddrReg : Reg := 39

abbrev Registers := Reg → Word

/-- The general registers come first in `registers`. -/
def gp (r : GPReg) : Reg := r.castLE (by decide)

/-- What an exception is raised for.  `NoException` is no member: it is how
`Translate` says that it succeeded. -/
inductive ExceptionType
  | syscall | pageFault | readOnly | busError | addressError | overflow | illegalInstr
  deriving DecidableEq, Repr

/-- What stops a routine of the simulator. -/
inductive Stop
  | exception (which : ExceptionType)
  /-- an `ASSERT` failed -/
  | assertion
  /-- an index outside `registers` or `mainMemory` -/
  | badIndex
  /-- a division that the host processor traps -/
  | hostDivide
  deriving DecidableEq, Repr

structure TranslationEntry where
  virtualPage : Word
  physicalPage : Word
  valid : Bool
  readOnly : Bool
  use : Bool
  dirty : Bool

/-- Where `new TranslationEntry[n]` put a page table.  The table belongs to an
address space and the machine only points at it. -/
abbrev TableId := Nat

structure Memory where
  mainMemory : Fin memorySize → UInt8
  tlb : Option (Fin tlbSize → TranslationEntry)
  pageTables : TableId → Nat → TranslationEntry
  currentPageTable : Option TableId
  currentPageTableSize : Nat

end Machine

structure Machine where
  registers : Machine.Registers
  memory : Machine.Memory

namespace Machine

/-- A routine that works on registers and memory. -/
abbrev Sim := EStateM Stop Machine

def assert {σ : Type} (c : Prop) [Decidable c] : EStateM Stop σ Unit :=
  if c then pure () else throw .assertion

/-! ## Translation -/

/-- The entry that `Translate` found. -/
inductive Slot
  | page (table : TableId) (vpn : Nat)
  | tlb (i : Fin tlbSize)

def TranslationEntry.touch (e : TranslationEntry) (writing : Bool) : TranslationEntry :=
  { e with use := true, dirty := e.dirty || writing }

namespace Memory

def entry (m : Memory) : Slot → Option TranslationEntry
  | .page table vpn => some (m.pageTables table vpn)
  | .tlb i => m.tlb.map (· i)

/-- The search of the page table, or of the TLB when there is one. -/
def lookup (m : Memory) (vpn : Nat) : Except ExceptionType Slot :=
  match m.tlb, m.currentPageTable with
  | none, some table =>
    if m.currentPageTableSize ≤ vpn then .error .addressError
    else if (m.pageTables table vpn).valid then .ok (.page table vpn)
    else .error .pageFault
  | some tlb, _ =>
    match (List.finRange tlbSize).find? fun i => (tlb i).valid ∧ (tlb i).virtualPage.toNat = vpn with
    | some i => .ok (.tlb i)
    | none => .error .pageFault
  | none, none => .error .pageFault

/-- Sets the use bit, and the dirty bit when writing. -/
def touch (m : Memory) (slot : Slot) (writing : Bool) : Memory :=
  match slot with
  | .page table vpn =>
    { m with pageTables := fun t n =>
        if t = table ∧ n = vpn then (m.pageTables t n).touch writing else m.pageTables t n }
  | .tlb i =>
    { m with tlb := m.tlb.map fun tlb j =>
        if j = i then (tlb j).touch writing else tlb j }

end Memory

/-- A routine that works on the memory only. -/
abbrev MemSim := EStateM Stop Memory

/-- `Machine::Translate`: the exception, or the physical address. -/
def translate (virtAddr : Word) (size : Nat) (writing : Bool) :
    MemSim (Except ExceptionType Nat) := do
  if (size = 4 ∧ virtAddr &&& 3 ≠ 0) ∨ (size = 2 ∧ virtAddr &&& 1 ≠ 0) then
    return .error .addressError
  else
    let m ← get
    assert (m.tlb.isNone ∨ m.currentPageTable.isNone)
    assert (m.tlb.isSome ∨ m.currentPageTable.isSome)
    let vpn := virtAddr.toNat / pageSize
    let offset := virtAddr.toNat % pageSize
    match m.lookup vpn with
    | .error e => return .error e
    | .ok slot =>
      match m.entry slot with
      | none => throw .badIndex
      | some entry =>
        if entry.readOnly && writing then return .error .readOnly
        else if numPhysPages ≤ entry.physicalPage.toNat then return .error .busError
        else
          set (m.touch slot writing)
          let physAddr := entry.physicalPage.toNat * pageSize + offset
          assert (physAddr + size ≤ memorySize)
          return .ok physAddr

/-! ## Physical memory -/

def byteAt (a : Nat) : MemSim UInt8 := do
  let m ← get
  if h : a < memorySize then return m.mainMemory ⟨a, h⟩ else throw .badIndex

def setByteAt (a : Nat) (b : UInt8) : MemSim Unit := do
  let m ← get
  if a < memorySize then
    set { m with mainMemory := fun j => if j.val = a then b else m.mainMemory j }
  else throw .badIndex

/-- The data of `ReadMem`: one byte is a `char` and is sign-extended, two are an
`unsigned short`, four a word. -/
def fetch (a : Nat) (size : Nat) : MemSim Word := do
  if size = 1 then return (← byteAt a).toBitVec.signExtend 32
  else if size = 2 then
    return ((← byteAt (a + 1)).toBitVec ++ (← byteAt a).toBitVec).zeroExtend 32
  else if size = 4 then
    return ((← byteAt (a + 3)).toBitVec ++ (← byteAt (a + 2)).toBitVec
      ++ (← byteAt (a + 1)).toBitVec ++ (← byteAt a).toBitVec)
  else throw .assertion

/-- Byte `k` of a word in memory. -/
def byteOf (value : Word) (k : Nat) : UInt8 := ⟨value.extractLsb' (8 * k) 8⟩

def storeBytes (a : Nat) (value : Word) : Nat → MemSim Unit
  | 0 => return
  | n + 1 => do
    storeBytes a value n
    setByteAt (a + n) (byteOf value n)

/-- The assignment of `WriteMem`. -/
def store (a : Nat) (size : Nat) (value : Word) : MemSim Unit :=
  if size = 1 ∨ size = 2 ∨ size = 4 then storeBytes a value size else throw .assertion

/-! ## Registers -/

def reg (i : Reg) : Sim Word := fun m => .ok (m.registers i) m

def setReg (i : Reg) (v : Word) : Sim Unit := fun m =>
  .ok () { m with registers := fun j => if j = i then v else m.registers j }

/-- An assignment to `registers[i]` where `i` is itself a machine word. -/
def setRegAt (i : Word) (v : Word) : Sim Unit :=
  if h : i.toNat < numTotalRegs then setReg ⟨i.toNat, h⟩ v else throw .badIndex

def onMemory {α : Type} (x : MemSim α) : Sim α := fun m =>
  match x m.memory with
  | .ok a mem => .ok a { m with memory := mem }
  | .error e mem => .error e { m with memory := mem }

/-- `Machine::DelayedLoad`. -/
def delayedLoad (nextReg nextValue : Word) : Sim Unit := do
  setRegAt (← reg loadReg) (← reg loadValueReg)
  setReg loadReg nextReg
  setReg loadValueReg nextValue
  setReg 0 0

/-- `Machine::RaiseException`, up to the call of `ExceptionHandler`. -/
def raiseException {α : Type} (which : ExceptionType) (badVAddr : Word) : Sim α := do
  setReg badVAddrReg badVAddr
  delayedLoad 0 0
  throw (.exception which)

/-- `Machine::ReadMem`. -/
def readMem (addr : Word) (size : Nat) : Sim Word := do
  match ← onMemory (translate addr size false) with
  | .error e => raiseException e addr
  | .ok physicalAddress => onMemory (fetch physicalAddress size)

/-- `Machine::WriteMem`. -/
def writeMem (addr : Word) (size : Nat) (value : Word) : Sim Unit := do
  match ← onMemory (translate addr size true) with
  | .error e => raiseException e addr
  | .ok physicalAddress => onMemory (store physicalAddress size value)

end Machine
end Nachos
