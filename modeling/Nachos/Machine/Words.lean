import Nachos.Lib.WordBytes
import Nachos.Machine.Effect

/-!
# Words and bytes in virtual memory

An aligned word that `Translate` reaches is four bytes of one frame.  This module
says what `ReadMem` and `WriteMem` do with it, in terms of the bytes at its
virtual addresses.
-/

namespace Nachos
namespace Machine

open Lib WordBytes

/-! ## Bytes -/

namespace Memory

/-- The byte of main memory at a physical address. -/
def physical (m : Memory) (a : Nat) : UInt8 :=
  if h : a < memorySize then m.mainMemory ⟨a, h⟩ else 0

/-- The word of main memory at a physical address. -/
def wordAt (m : Memory) (pa : Nat) : Word := ofBytes fun k => (m.physical (pa + k)).toBitVec

/-- Where `Translate` finds the byte at a virtual address. -/
def locate (m : Memory) (addr : Word) : Option Nat :=
  match translate addr 1 false m with
  | .ok (.ok pa) _ => some pa
  | _ => none

/-- The byte at a virtual address. -/
def byte (m : Memory) (addr : Word) : Option UInt8 := (m.locate addr).map m.physical

/-- `Translate` gets to the word at `addr` and finds it at `pa`. -/
structure Reaches (m : Memory) (addr : Word) (writing : Bool) (pa : Nat) : Prop where
  aligned : addr.toNat % 4 = 0
  oneTable : m.OneTable
  found : ∃ slot, Found m addr 4 writing slot pa

end Memory

section Reach

variable {m m' : Memory} {addr : Word} {size pa : Nat} {writing : Bool} {slot : Slot}

theorem and_three (addr : Word) : (addr &&& 3).toNat = addr.toNat % 4 := by
  rw [BitVec.toNat_and]
  exact Nat.and_two_pow_sub_one_eq_mod addr.toNat 2

theorem and_three_eq (addr : Word) {j : Nat} (hj : j < 4) :
    addr &&& 3 = BitVec.ofNat 32 j ↔ addr.toNat % 4 = j := by
  have hmod : j % 4294967296 = j := Nat.mod_eq_of_lt (by omega)
  rw [← BitVec.toNat_inj, and_three, BitVec.toNat_ofNat, show 2 ^ 32 = 4294967296 from rfl, hmod]

/-- `Translate` behind its first check and its assertions. -/
theorem translate_checked (hone : m.OneTable)
    (haligned : ¬ ((size = 4 ∧ addr &&& 3 ≠ 0) ∨ (size = 2 ∧ addr &&& 1 ≠ 0))) :
    translate addr size writing m =
      (match m.lookup (addr.toNat / pageSize) with
      | .error e => return .error e
      | .ok slot =>
        match m.entry slot with
        | none => throw .badIndex
        | some entry =>
          if entry.readOnly && writing then return .error .readOnly
          else if numPhysPages ≤ entry.physicalPage.toNat then return .error .busError
          else do
            set (m.touch slot writing)
            let physAddr := entry.physicalPage.toNat * pageSize + addr.toNat % pageSize
            assert (physAddr + size ≤ memorySize)
            return .ok physAddr : MemSim (Except ExceptionType Nat)) m := by
  obtain ⟨htable, htable'⟩ := m.oneTable_iff.mp hone
  have hreturn : ∀ s : Memory, (pure () : MemSim Unit) s = .ok () s := fun s => rfl
  unfold translate assert
  rw [if_neg haligned, bind_run (show (get : MemSim Memory) m = .ok m m from rfl),
    if_pos htable, bind_run (hreturn m), if_pos htable']
  exact bind_run (hreturn m)

theorem translate_run (hone : m.OneTable) (hf : Found m addr size writing slot pa)
    (haligned : ¬ ((size = 4 ∧ addr &&& 3 ≠ 0) ∨ (size = 2 ∧ addr &&& 1 ≠ 0)))
    (hin : pa + size ≤ memorySize) :
    translate addr size writing m = .ok (.ok pa) (m.touch slot writing) := by
  obtain ⟨e, hactive, hmapping, hvalid, hwritable, hframe, rfl⟩ := hf.maps
  obtain ⟨entry, hentry, rfl⟩ := Option.map_eq_some_iff.mp hmapping
  have hread : ¬ (entry.readOnly && writing) = true := by
    intro h
    rw [Bool.and_eq_true] at h
    exact Bool.false_ne_true ((hwritable h.2).symm.trans h.1)
  have hbus : ¬ numPhysPages ≤ entry.physicalPage.toNat := Nat.not_le.mpr hframe
  have hreturn : ∀ s : Memory, (pure () : MemSim Unit) s = .ok () s := fun s => rfl
  rw [translate_checked hone haligned, hf.lookup]
  unfold assert
  dsimp only
  rw [hentry]
  dsimp only
  rw [if_neg hread, if_neg hbus,
    bind_run (show (set (m.touch slot writing) : MemSim PUnit) m = .ok ⟨⟩ _ from rfl),
    if_pos (show entry.physicalPage.toNat * pageSize + addr.toNat % pageSize + size ≤ memorySize
      from hin), bind_run (hreturn _)]
  rfl

/-- `Translate` asserts that there is one table before it returns an address. -/
theorem oneTable_of_translate {mem : Memory}
    (h : translate addr size writing m = .ok (.ok pa) mem) : m.OneTable := by
  unfold translate at h
  split at h
  · cases h
  · obtain ⟨_, _, hget, h⟩ := bind_ok.mp h
    cases hget
    obtain ⟨_, m₁, hone, h⟩ := bind_ok.mp h
    obtain ⟨_, m₂, hsome, h⟩ := bind_ok.mp h
    unfold assert at hone hsome
    split at hone
    · rename_i hnone
      split at hsome
      · rename_i hany
        exact m.oneTable_iff.mpr ⟨hnone, hany⟩
      · cases hsome
    · cases hone

/-- What can be written can be read. -/
theorem Found.reading (hf : Found m addr size writing slot pa) :
    Found m addr size false slot pa := by
  obtain ⟨e, hactive, hmapping, hvalid, -, hrest⟩ := hf.maps
  exact ⟨hf.lookup, ⟨e, hactive, hmapping, hvalid, fun h => absurd h Bool.false_ne_true, hrest⟩,
    hf.inPage⟩

namespace Memory.Reaches

theorem reading (h : m.Reaches addr writing pa) : m.Reaches addr false pa := by
  obtain ⟨slot, hf⟩ := h.found
  exact ⟨h.aligned, h.oneTable, slot, hf.reading⟩

theorem same (h : m.Reaches addr writing pa) (hsame : SameTables m m') :
    m'.Reaches addr writing pa := by
  obtain ⟨slot, hf⟩ := h.found
  exact ⟨h.aligned, hsame.oneTable.mpr h.oneTable, slot, hf.same hsame.symm⟩

theorem inMemory (h : m.Reaches addr writing pa) : pa + 4 ≤ memorySize := by
  obtain ⟨slot, hf⟩ := h.found
  have hlast := (hf.bytes (a := pa + 3) (by omega) (by omega)).1
  omega

theorem unique {pa' : Nat} (h : m.Reaches addr writing pa) (h' : m.Reaches addr writing pa') :
    pa = pa' := by
  obtain ⟨slot, hf⟩ := h.found
  obtain ⟨slot', hf'⟩ := h'.found
  obtain rfl : slot = slot' := Except.ok.inj (hf.lookup.symm.trans hf'.lookup)
  obtain ⟨e, -, hmapping, -, -, -, rfl⟩ := hf.maps
  obtain ⟨e', -, hmapping', -, -, -, rfl⟩ := hf'.maps
  rw [hmapping, Option.some.injEq] at hmapping'
  rw [hmapping']

theorem translate (h : m.Reaches addr writing pa) :
    ∃ slot, translate addr 4 writing m = .ok (.ok pa) (m.touch slot writing) := by
  obtain ⟨slot, hf⟩ := h.found
  refine ⟨slot, translate_run h.oneTable hf ?_ h.inMemory⟩
  have hzero : addr &&& 3 = 0 := (and_three_eq addr (by decide)).mpr h.aligned
  rintro (⟨-, hne⟩ | ⟨hsize, -⟩)
  · exact hne hzero
  · exact absurd hsize (by decide)

/-- The bytes of the word, by their virtual addresses. -/
theorem locate (h : m.Reaches addr writing pa) {k : Nat} (hk : k < 4) :
    m.locate (addr + BitVec.ofNat 32 k) = some (pa + k) := by
  obtain ⟨slot, hf⟩ := h.reading.found
  have haligned := h.aligned
  have hlt := addr.isLt
  have hto : (addr + BitVec.ofNat 32 k).toNat = addr.toNat + k := by
    rw [BitVec.toNat_add, BitVec.toNat_ofNat]
    omega
  have hbyte : Found m (addr + BitVec.ofNat 32 k) 1 false slot (pa + k) := by
    obtain ⟨e, hactive, hmapping, hvalid, hwritable, hframe, hpa⟩ := hf.maps
    have hdiv : (addr + BitVec.ofNat 32 k).toNat / pageSize = addr.toNat / pageSize := by
      rw [hto]
      simp only [pageSize, FileSys.sectorSize]
      omega
    have hmod : (addr + BitVec.ofNat 32 k).toNat % pageSize = addr.toNat % pageSize + k := by
      rw [hto]
      simp only [pageSize, FileSys.sectorSize]
      omega
    refine ⟨by rw [hdiv]; exact hf.lookup,
      ⟨e, hactive, hmapping, hvalid, hwritable, hframe, by rw [hmod, hpa, Nat.add_assoc]⟩, ?_⟩
    rw [hmod]
    simp only [pageSize, FileSys.sectorSize]
    omega
  have hin := h.inMemory
  have hrun := translate_run h.oneTable hbyte (by omega) (by omega)
  rw [Memory.locate, hrun]

theorem byte (h : m.Reaches addr writing pa) {k : Nat} (hk : k < 4) :
    m.byte (addr + BitVec.ofNat 32 k) = some (m.physical (pa + k)) := by
  rw [Memory.byte, h.locate hk, Option.map_some]

end Memory.Reaches

/-- A word that can be read is reached. -/
theorem reaches_of_word (h : (m.word addr).isSome) (haligned : addr.toNat % 4 = 0) :
    ∃ pa, m.Reaches addr false pa := by
  unfold Memory.word at h
  cases hrun : translate addr 4 false m with
  | error e mem =>
    rw [hrun] at h
    cases h
  | ok found mem =>
    cases found with
    | error e =>
      rw [hrun] at h
      cases h
    | ok pa =>
      obtain ⟨slot, hfound, -⟩ := (translate_triple m addr false (.inr (.inr rfl))).ok rfl hrun
      exact ⟨pa, haligned, oneTable_of_translate hrun, slot, hfound⟩

end Reach

/-! ## Reading and writing words -/

section Access

variable {addr : Word} {pa : Nat} {writing : Bool}

theorem physical_congr {m m' : Memory} (h : m'.mainMemory = m.mainMemory) (a : Nat) :
    m'.physical a = m.physical a := by
  rw [Memory.physical, Memory.physical, h]

theorem wordAt_congr {m m' : Memory} (h : m'.mainMemory = m.mainMemory) (pa : Nat) :
    m'.wordAt pa = m.wordAt pa := by
  simp only [Memory.wordAt, physical_congr h]

theorem byteAt_run (m : Memory) {a : Nat} (ha : a < memorySize) :
    byteAt a m = .ok (m.physical a) m := by
  unfold byteAt Memory.physical
  rw [bind_run (show (get : MemSim Memory) m = .ok m m from rfl), dif_pos ha, dif_pos ha]
  rfl

theorem fetch_run (m : Memory) (hin : pa + 4 ≤ memorySize) :
    fetch pa 4 m = .ok (m.wordAt pa) m := by
  unfold fetch
  rw [if_neg (by decide), if_neg (by decide), if_pos rfl,
    bind_run (byteAt_run m (a := pa + 3) (by omega)),
    bind_run (byteAt_run m (a := pa + 2) (by omega)),
    bind_run (byteAt_run m (a := pa + 1) (by omega)), bind_run (byteAt_run m (a := pa) (by omega))]
  rfl

/-- `ReadMem` of a word that `Translate` reaches. -/
theorem readMem_run {m : Machine} (h : m.memory.Reaches addr writing pa) :
    ∃ mem, Used m.memory mem ∧
      readMem addr 4 m = .ok (m.memory.wordAt pa) { m with memory := mem } := by
  obtain ⟨slot, hrun⟩ := h.reading.translate
  refine ⟨m.memory.touch slot false, .touch m.memory slot, ?_⟩
  rw [readMem_translated hrun]
  unfold onMemory
  dsimp only
  rw [fetch_run _ h.inMemory, wordAt_congr (m.memory.touch_mainMemory slot false)]

/-- The memory with the first `n` bytes of the value at `pa`. -/
def Memory.write (m : Memory) (pa : Nat) (value : Word) (n : Nat) : Memory :=
  { m with mainMemory := fun a =>
      if pa ≤ a.val ∧ a.val < pa + n then byteOf value (a.val - pa) else m.mainMemory a }

theorem storeBytes_run (m : Memory) (value : Word) {n : Nat} (hin : pa + n ≤ memorySize) :
    storeBytes pa value n m = .ok () (m.write pa value n) := by
  induction n with
  | zero =>
    have hsame : m.write pa value 0 = m := by
      have hbytes : (m.write pa value 0).mainMemory = m.mainMemory :=
        funext fun a => if_neg (by omega)
      exact congrArg (fun bytes => ({ m with mainMemory := bytes } : Memory)) hbytes
    rw [hsame]
    rfl
  | succ n ih =>
    unfold storeBytes
    rw [bind_run (ih (by omega))]
    unfold setByteAt
    rw [bind_run (show (get : MemSim Memory) _ = .ok (m.write pa value n) _ from rfl),
      if_pos (show pa + n < memorySize by omega)]
    refine congrArg (fun bytes => (EStateM.Result.ok () ({ m with mainMemory := bytes } : Memory) :
      EStateM.Result Stop Memory Unit)) ?_
    funext a
    show (if a.val = pa + n then byteOf value n
      else if pa ≤ a.val ∧ a.val < pa + n then byteOf value (a.val - pa) else m.mainMemory a) = _
    by_cases hlast : a.val = pa + n
    · have hsub : a.val - pa = n := by omega
      rw [if_pos hlast, if_pos (by omega), hsub]
    · rw [if_neg hlast]
      by_cases hin : pa ≤ a.val ∧ a.val < pa + n
      · rw [if_pos hin, if_pos (by omega)]
      · rw [if_neg hin, if_neg (by omega)]

theorem physical_write (m : Memory) (value : Word) {n : Nat} (hin : pa + n ≤ memorySize) (a : Nat) :
    (m.write pa value n).physical a =
      if pa ≤ a ∧ a < pa + n then byteOf value (a - pa) else m.physical a := by
  rw [Memory.physical, Memory.physical]
  by_cases ha : a < memorySize
  · rw [dif_pos ha, dif_pos ha]
    rfl
  · rw [dif_neg ha, dif_neg ha, if_neg (by omega)]

/-- `WriteMem` of a word that `Translate` reaches. -/
theorem writeMem_run {m : Machine} (h : m.memory.Reaches addr true pa) (value : Word) :
    ∃ mem, SameTables m.memory mem ∧ (∀ a, mem.physical a =
        if pa ≤ a ∧ a < pa + 4 then byteOf value (a - pa) else m.memory.physical a) ∧
      writeMem addr 4 value m = .ok () { m with memory := mem } := by
  obtain ⟨slot, hrun⟩ := h.translate
  have htables := m.memory.touch_sameTables slot true
  refine ⟨(m.memory.touch slot true).write pa value 4,
    ⟨htables.tlb, htables.pageTables, htables.currentPageTable, htables.currentPageTableSize⟩,
    fun a => ?_, ?_⟩
  · rw [physical_write _ value h.inMemory, physical_congr (m.memory.touch_mainMemory slot true)]
  · rw [writeMem_translated value hrun]
    unfold onMemory store
    dsimp only
    rw [if_pos (.inr (.inr rfl)), storeBytes_run _ value h.inMemory]

end Access

end Machine
end Nachos
