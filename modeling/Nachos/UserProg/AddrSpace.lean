import Nachos.FileSys.BitMap
import Nachos.Threads.Kernel
import Nachos.UserProg.Noff

/-!
# Loading a program

The constructor of `AddrSpace` on an executable that is a file of the host.  It
goes by the header: the sizes of the segments are checked as one sum, and their
addresses are not checked.
-/

namespace Nachos
namespace UserProg

open Lib LittleEndian FileSys Machine

abbrev userStacksAreaSize : Nat := 1024

/-- Why the constructor does not return. -/
inductive LoadError
  /-- an `ASSERT` failed -/
  | abort
  /-- `std::bad_alloc` -/
  | badAlloc
  deriving DecidableEq

/-- An address space after its constructor.  `stored` are the bytes that went into
`mainMemory`, each with its index. -/
structure AddrSpace where
  noffH : NoffHeader
  pageTable : List TranslationEntry
  numPages : Nat
  stored : List (Int × UInt8)

/-- The value of an `int` as `unsigned int`. -/
def unsigned (x : Int) : Int := x % 4294967296

/-- `OpenFile::ReadAt` on a file of the host: `Lseek` asserts that it succeeds, and
as many bytes are read as there are. -/
def readAt (file : List UInt8) (numBytes position : Int) : Except LoadError (List UInt8) :=
  if position < 0 then throw .abort
  else pure ((file.drop position.toNat).take numBytes.toNat)

/-- The bytes of `into[0..]` after a read into `&mainMemory[virtualAddr]`. -/
def storedAt (virtualAddr : Int) (bytes : List UInt8) : List (Int × UInt8) :=
  bytes.mapIdx fun i b => (virtualAddr + i, b)

/-- Copying a segment into memory, if it is not empty. -/
def Segment.load (s : Segment) (file : List UInt8) : Except LoadError (List (Int × UInt8)) :=
  if s.size > 0 then do
    let bytes ← readAt file s.size s.inFileAddr
    return storedAt s.virtualAddr bytes
  else return []

/-- The page table, which maps every page to itself.  `virtualPage` is left as it
is. -/
def newPageTable (virtualPage : Nat → Word) (numPages : Nat) : List TranslationEntry :=
  (List.range numPages).map fun i =>
    { virtualPage := virtualPage i
      physicalPage := BitVec.ofNat 32 i
      valid := true
      readOnly := false
      use := false
      dirty := false }

/-- `AddrSpace::AddrSpace`.  What is not initialised holds `junk`. -/
def addrSpace (junk : Block) (virtualPage : Nat → Word) (executable : List UInt8) :
    Except LoadError AddrSpace :=
  let noffH := NoffHeader.ofBlock (fileBlock (executable.take headerSize) junk)
  if noffH.noffMagic ≠ noffMagicNumber then throw .abort
  else
    -- how big is the address space?
    let size := unsigned (noffH.code.size + noffH.initData.size + noffH.uninitData.size +
      userStacksAreaSize)
    let numPages := (divRoundUp size pageSize).toNat
    -- check we're not trying to run anything too big
    if numPages > numPhysPages then throw .badAlloc
    else do
      let pageTable := newPageTable virtualPage numPages
      -- then, copy in the code and data segments into memory
      let code ← noffH.code.load executable
      let initData ← noffH.initData.load executable
      -- catch NULL dereference
      let pageTable := pageTable.modify 0 fun e => { e with valid := false }
      return { noffH, pageTable, numPages, stored := code ++ initData }

namespace AddrSpace

/-- The address space as the thread system sees it. -/
def toThreads (space : AddrSpace) (pageTable : TableId) : Threads.AddrSpace :=
  { pageTable, numPages := space.numPages }

/-- The area for stacks starts here. -/
def stacksArea (space : AddrSpace) : Int := space.numPages * pageSize - userStacksAreaSize

/-- `InitRegisters` sets the stack pointer into the area for stacks. -/
theorem stackReg_initRegisters {space : AddrSpace} (h : 8 ≤ space.numPages)
    (h' : space.numPages ≤ numPhysPages) (table : TableId) :
    space.stacksArea ≤ ((space.toThreads table).initRegisters Threads.stackReg).toNat ∧
      ((space.toThreads table).initRegisters Threads.stackReg).toNat <
        space.numPages * pageSize := by
  have hreg : (space.toThreads table).initRegisters Threads.stackReg =
      BitVec.ofNat 32 (space.numPages * 128) - 16#32 := rfl
  have hpages : space.numPages ≤ 64 := h'
  rw [hreg, BitVec.toNat_sub, BitVec.toNat_ofNat]
  unfold stacksArea
  simp only [pageSize, sectorSize, userStacksAreaSize, BitVec.toNat_ofNat]
  omega

end AddrSpace

/-! ## When the constructor returns -/

/-- The sum of the sizes, as an `int`. -/
def NoffHeader.total (h : NoffHeader) : Int :=
  wrap (h.code.size + h.initData.size + h.uninitData.size)

/-- The header passes the checks. -/
structure NoffHeader.Accepted (h : NoffHeader) : Prop where
  magic : h.noffMagic = noffMagicNumber
  lower : -userStacksAreaSize ≤ h.total
  upper : h.total ≤ memorySize - userStacksAreaSize
  inFile : ∀ s ∈ [h.code, h.initData], 0 < s.size → 0 ≤ s.inFileAddr

/-- The bytes of a segment that go into memory. -/
def Segment.stored (s : Segment) (file : List UInt8) : List (Int × UInt8) :=
  if s.size > 0 then storedAt s.virtualAddr ((file.drop s.inFileAddr.toNat).take s.size.toNat)
  else []

theorem Segment.load_ok {s : Segment} (file : List UInt8) (h : 0 < s.size → 0 ≤ s.inFileAddr) :
    s.load file = .ok (s.stored file) := by
  unfold load stored
  by_cases hs : s.size > 0
  · rw [if_pos hs, if_pos hs, readAt, if_neg (not_lt.mpr (h hs))]
    rfl
  · rw [if_neg hs, if_neg hs]
    rfl

theorem Segment.load_error {s : Segment} (file : List UInt8) (hs : 0 < s.size)
    (h : s.inFileAddr < 0) : s.load file = .error .abort := by
  rw [load, if_pos hs, readAt, if_pos h]
  rfl

/-- The header as the constructor reads it. -/
def headerOf (junk : Block) (executable : List UInt8) : NoffHeader :=
  .ofBlock (fileBlock (executable.take headerSize) junk)

/-- The address space that the constructor leaves. -/
def loaded (junk : Block) (virtualPage : Nat → Word) (executable : List UInt8) : AddrSpace :=
  let h := headerOf junk executable
  let numPages := ((h.total + userStacksAreaSize + 127) / pageSize).toNat
  { noffH := h
    pageTable := (newPageTable virtualPage numPages).modify 0 fun e => { e with valid := false }
    numPages
    stored := h.code.stored executable ++ h.initData.stored executable }

variable {junk : Block} {virtualPage : Nat → Word} {executable : List UInt8} {h : NoffHeader}

theorem NoffHeader.total_bounds (h : NoffHeader) : LittleEndian.Fits h.total := by
  unfold total wrap LittleEndian.Fits
  omega

theorem numPages_eq (h : NoffHeader) :
    divRoundUp (unsigned (h.code.size + h.initData.size + h.uninitData.size +
      userStacksAreaSize)) pageSize = (unsigned (h.total + userStacksAreaSize) + 127) / 128 := by
  have hunsigned : unsigned (h.code.size + h.initData.size + h.uninitData.size +
      userStacksAreaSize) = unsigned (h.total + userStacksAreaSize) := by
    unfold unsigned NoffHeader.total wrap
    omega
  have hnonneg : 0 ≤ unsigned (h.total + userStacksAreaSize) := Int.emod_nonneg _ (by decide)
  rw [hunsigned, divRoundUp_of_nonneg hnonneg]
  show _ / (128 : Int) + ite (_ % (128 : Int) > 0) 1 0 = _
  split <;> omega

theorem numPages_le_iff (h : NoffHeader) :
    (divRoundUp (unsigned (h.code.size + h.initData.size + h.uninitData.size +
      userStacksAreaSize)) pageSize).toNat ≤ numPhysPages ↔
      -userStacksAreaSize ≤ h.total ∧ h.total ≤ memorySize - userStacksAreaSize := by
  have hbounds := h.total_bounds
  unfold LittleEndian.Fits at hbounds
  rw [numPages_eq]
  unfold unsigned
  show _ ≤ 64 ↔ -(1024 : Int) ≤ _ ∧ _ ≤ (8192 : Int) - 1024
  simp only [userStacksAreaSize]
  omega

theorem numPages_of_bounds (hlower : -userStacksAreaSize ≤ h.total)
    (hupper : h.total ≤ memorySize - userStacksAreaSize) :
    divRoundUp (unsigned (h.code.size + h.initData.size + h.uninitData.size +
      userStacksAreaSize)) pageSize = (h.total + userStacksAreaSize + 127) / pageSize := by
  have hsize : unsigned (h.total + userStacksAreaSize) = h.total + userStacksAreaSize := by
    have hupper' : h.total ≤ (8192 : Int) - 1024 := hupper
    unfold unsigned
    simp only [userStacksAreaSize] at hlower ⊢
    omega
  rw [numPages_eq, hsize]
  rfl

theorem addrSpace_ok (hok : (headerOf junk executable).Accepted) :
    addrSpace junk virtualPage executable = .ok (loaded junk virtualPage executable) := by
  obtain ⟨hmagic, hlower, hupper, hinFile⟩ := hok
  have hpages := not_lt.mpr ((numPages_le_iff (headerOf junk executable)).mpr ⟨hlower, hupper⟩)
  have hcode := Segment.load_ok executable (hinFile _ List.mem_cons_self)
  have hdata := Segment.load_ok executable (hinFile _ (List.mem_cons_of_mem _ List.mem_cons_self))
  unfold addrSpace loaded
  dsimp only
  rw [← numPages_of_bounds hlower hupper]
  unfold headerOf at *
  rw [if_neg (not_not.mpr hmagic), if_neg hpages, hcode, hdata]
  rfl

theorem addrSpace_error (hok : ¬ (headerOf junk executable).Accepted) :
    ∃ e, addrSpace junk virtualPage executable = .error e := by
  by_cases hmagic : (headerOf junk executable).noffMagic = noffMagicNumber
  · by_cases hpages : (divRoundUp (unsigned ((headerOf junk executable).code.size +
        (headerOf junk executable).initData.size + (headerOf junk executable).uninitData.size +
        userStacksAreaSize)) pageSize).toNat ≤ numPhysPages
    · have hbounds := (numPages_le_iff _).mp hpages
      have hfail : ∃ s ∈ [(headerOf junk executable).code, (headerOf junk executable).initData],
          0 < s.size ∧ s.inFileAddr < 0 := by
        by_contra hno
        refine hok ⟨hmagic, hbounds.1, hbounds.2, fun s hs hsize => ?_⟩
        exact not_lt.mp fun hneg => hno ⟨s, hs, hsize, hneg⟩
      obtain ⟨s, hs, hsize, hneg⟩ := hfail
      have hload := Segment.load_error executable hsize hneg
      unfold headerOf at *
      unfold addrSpace
      dsimp only
      rw [if_neg (not_not.mpr hmagic), if_neg (not_lt.mpr hpages)]
      rcases List.mem_pair.mp hs with rfl | rfl
      · rw [hload]
        exact ⟨_, rfl⟩
      · rw [hload]
        cases (NoffHeader.ofBlock
          (fileBlock (executable.take headerSize) junk)).code.load executable with
        | error e => exact ⟨_, rfl⟩
        | ok code => exact ⟨_, rfl⟩
    · refine ⟨.badAlloc, ?_⟩
      unfold headerOf at *
      unfold addrSpace
      dsimp only
      rw [if_neg (not_not.mpr hmagic), if_pos (not_le.mp hpages)]
      rfl
  · refine ⟨.abort, ?_⟩
    unfold addrSpace
    exact if_pos hmagic

/-! ## Staying inside the address space -/

def NoffHeader.segments (h : NoffHeader) : List Segment := [h.code, h.initData, h.uninitData]

/-- What is stored is inside of the address space, which fits into memory and has a
first page, and no segment reaches into the area for stacks. -/
structure AddrSpace.Inside (space : AddrSpace) : Prop where
  stored : ∀ w ∈ space.stored, 0 ≤ w.1 ∧ w.1 < space.numPages * pageSize
  memory : space.numPages * pageSize ≤ memorySize
  firstPage : 1 ≤ space.numPages
  segments : ∀ s ∈ space.noffH.segments, 0 < s.size →
    s.virtualAddr + s.size ≤ space.stacksArea

/-- The addresses go with the sizes: a segment ends where the sizes together end,
up to a page, and none that the file has bytes for starts below 0. -/
structure NoffHeader.Placed (h : NoffHeader) (length : Nat) : Prop where
  total : h.total ≠ -userStacksAreaSize
  ends : ∀ s ∈ h.segments, 0 < s.size →
    s.virtualAddr + s.size ≤ (h.total + (pageSize - 1)) / pageSize * pageSize
  starts : ∀ s ∈ [h.code, h.initData], 0 < s.size → s.inFileAddr < length → 0 ≤ s.virtualAddr

theorem mem_storedAt {virtualAddr : Int} {bytes : List UInt8} {w : Int × UInt8} :
    w ∈ storedAt virtualAddr bytes ↔ ∃ i : Nat, w.1 = virtualAddr + i ∧ bytes[i]? = some w.2 := by
  unfold storedAt
  rw [List.mem_iff_getElem?]
  constructor
  · rintro ⟨i, hi⟩
    rw [List.getElem?_mapIdx, Option.map_eq_some_iff] at hi
    obtain ⟨b, hb, rfl⟩ := hi
    exact ⟨i, rfl, hb⟩
  · rintro ⟨i, haddr, hbyte⟩
    refine ⟨i, ?_⟩
    rw [List.getElem?_mapIdx, hbyte, ← haddr]
    rfl

/-- The indices that a segment is stored at. -/
theorem Segment.mem_stored {s : Segment} {file : List UInt8} {w : Int × UInt8} :
    w ∈ s.stored file ↔ ∃ i : Nat, w.1 = s.virtualAddr + i ∧ (i : Int) < s.size ∧
      file[s.inFileAddr.toNat + i]? = some w.2 := by
  unfold stored
  by_cases hs : s.size > 0
  · rw [if_pos hs, mem_storedAt]
    refine exists_congr fun i => and_congr_right fun _ => ?_
    rw [List.getElem?_take, List.getElem?_drop]
    by_cases hi : i < s.size.toNat
    · rw [if_pos hi]
      exact ⟨fun h => ⟨by omega, h⟩, fun h => h.2⟩
    · rw [if_neg hi]
      exact ⟨nofun, fun h => absurd h.1 (by omega)⟩
  · rw [if_neg hs]
    refine ⟨nofun, fun ⟨i, _, hi, _⟩ => absurd hi (by omega)⟩

theorem loaded_stacksArea (hlower : -userStacksAreaSize ≤ (headerOf junk executable).total) :
    (loaded junk virtualPage executable).stacksArea =
      ((headerOf junk executable).total + (pageSize - 1)) / pageSize * pageSize := by
  show (Int.toNat ((_ + 1024 + 127) / 128) : Int) * 128 - 1024 = (_ + (128 - 1)) / 128 * 128
  simp only [userStacksAreaSize] at hlower
  omega

theorem loaded_inside_iff (hok : (headerOf junk executable).Accepted) :
    (loaded junk virtualPage executable).Inside ↔
      (headerOf junk executable).Placed executable.length := by
  obtain ⟨_, hlower, hupper, hinFile⟩ := hok
  have hstacks : (loaded junk virtualPage executable).stacksArea =
      ((headerOf junk executable).total + (pageSize - 1)) / pageSize * pageSize :=
    loaded_stacksArea hlower
  have hpages : (loaded junk virtualPage executable).numPages =
      (((headerOf junk executable).total + 1024 + 127) / 128).toNat := rfl
  have hlower' : -(1024 : Int) ≤ (headerOf junk executable).total := hlower
  have hupper' : (headerOf junk executable).total ≤ (8192 : Int) - 1024 := hupper
  constructor
  · intro hinside
    refine ⟨fun htotal => ?_, fun s hs hsize => ?_, fun s hs hsize hlength => ?_⟩
    · have hfirst := hinside.firstPage
      rw [hpages, htotal] at hfirst
      exact absurd hfirst (by decide)
    · rw [← hstacks]
      exact hinside.segments s hs hsize
    · have hlt : s.inFileAddr.toNat < executable.length := by
        have hnonneg := hinFile s hs hsize
        omega
      have hbyte : (s.virtualAddr, executable[s.inFileAddr.toNat]) ∈ s.stored executable := by
        refine Segment.mem_stored.mpr ⟨0, by simp, hsize, ?_⟩
        rw [Nat.add_zero, List.getElem?_eq_getElem hlt]
      have hmem : (s.virtualAddr, executable[s.inFileAddr.toNat]) ∈
          (loaded junk virtualPage executable).stored := by
        refine List.mem_append.mpr ?_
        rcases List.mem_pair.mp hs with rfl | rfl
        · exact .inl hbyte
        · exact .inr hbyte
      exact (hinside.stored _ hmem).1
  · intro hplaced
    have hstored : ∀ s ∈ [(headerOf junk executable).code, (headerOf junk executable).initData],
        ∀ w ∈ s.stored executable,
          0 ≤ w.1 ∧ w.1 < (loaded junk virtualPage executable).numPages * pageSize := by
      intro s hs w hw
      obtain ⟨i, haddr, hi, hbyte⟩ := Segment.mem_stored.mp hw
      have hsize : 0 < s.size := by omega
      have hlt := (List.getElem?_eq_some_iff.mp hbyte).1
      have hnonneg := hinFile s hs hsize
      have hstart := hplaced.starts s hs hsize (by omega)
      have hend := hplaced.ends s (by
        rcases List.mem_pair.mp hs with rfl | rfl
        · exact List.mem_cons_self
        · exact List.mem_cons_of_mem _ List.mem_cons_self) hsize
      rw [← hstacks] at hend
      unfold AddrSpace.stacksArea at hend
      refine ⟨by omega, ?_⟩
      rw [haddr]
      refine lt_of_lt_of_le (by omega : s.virtualAddr + i < s.virtualAddr + s.size)
        (hend.trans (Int.sub_le_self _ (by decide)))
    refine ⟨fun w hw => ?_, ?_, ?_, fun s hs hsize => ?_⟩
    · rcases List.mem_append.mp hw with hw | hw
      · exact hstored _ List.mem_cons_self w hw
      · exact hstored _ (List.mem_cons_of_mem _ List.mem_cons_self) w hw
    · rw [hpages]
      show _ * 128 ≤ 8192
      omega
    · have htotal : (headerOf junk executable).total ≠ -(1024 : Int) := hplaced.total
      rw [hpages]
      omega
    · rw [hstacks]
      exact hplaced.ends s hs hsize

/-- The loader stays inside just when its checks fail, or the addresses go with the
sizes. -/
theorem inside_iff_placed (junk : Block) (virtualPage : Nat → Word) (executable : List UInt8) :
    (∀ space, addrSpace junk virtualPage executable = .ok space → space.Inside) ↔
      ((headerOf junk executable).Accepted →
        (headerOf junk executable).Placed executable.length) := by
  by_cases hok : (headerOf junk executable).Accepted
  · rw [addrSpace_ok hok]
    constructor
    · exact fun h _ => (loaded_inside_iff hok).mp (h _ rfl)
    · intro h space hspace
      cases hspace
      exact (loaded_inside_iff hok).mpr (h hok)
  · obtain ⟨e, he⟩ : ∃ e, addrSpace junk virtualPage executable = .error e :=
      addrSpace_error hok
    rw [he]
    constructor
    · exact fun _ h => absurd h hok
    · intro _ space hspace
      cases hspace

/-- A header with four bytes of code behind the end of memory. -/
def outsideHeader : NoffHeader :=
  ⟨noffMagicNumber, ⟨memorySize, headerSize, 4⟩, ⟨0, 0, 0⟩, ⟨0, 0, 0⟩⟩

/-- An executable with that header. -/
def outside : List UInt8 := outsideHeader.bytes ++ [1, 2, 3, 4]

theorem headerOf_outside : headerOf (fun _ => 0) outside = outsideHeader := by decide

theorem loads_outside :
    ∃ space, addrSpace (fun _ => 0) (fun _ => 0) outside = .ok space ∧
      ((memorySize : Int), 1) ∈ space.stored ∧ ¬ space.Inside := by
  have hok : (headerOf (fun _ => 0) outside).Accepted := by
    rw [headerOf_outside]
    exact ⟨rfl, by decide, by decide, by decide⟩
  have hmem : ((memorySize : Int), 1) ∈ (loaded (fun _ => 0) (fun _ => 0) outside).stored := by
    refine List.mem_append.mpr (.inl (Segment.mem_stored.mpr ⟨0, ?_⟩))
    rw [headerOf_outside]
    refine ⟨rfl, by decide, ?_⟩
    exact List.getElem?_append_right (NoffHeader.length_bytes outsideHeader).le
  refine ⟨_, addrSpace_ok hok, hmem, fun hinside => ?_⟩
  have hmemory := hinside.memory
  have hlt := (hinside.stored _ hmem).2
  omega

end UserProg
end Nachos
