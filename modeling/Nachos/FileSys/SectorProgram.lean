import Nachos.FileSys.FileSystem
import Nachos.Lib.StoreProgram

/-!
# The file system, one sector at a time

The code of the file system again, as programs that read and write sectors.  A
program can be stopped between two of its sectors, and take turns with others.
Run from start to end, each is the function that models the same code as one step.
-/

namespace Nachos
namespace FileSys

open Lib

abbrev SectorProgram := StoreProgram (Fin numSectors) Sector Fault

namespace SectorProgram

/-- The cell of a sector number that the disk accepts. -/
def cell (n : Int) (h : OnDisk n) : Fin numSectors :=
  ⟨n.toNat, (Int.toNat_lt h.1).mpr h.2⟩

theorem cell_coe {n : Int} (h : OnDisk n) : ((cell n h : Nat) : Int) = n :=
  Int.toNat_of_nonneg h.1

theorem sector_eq_cell (d : Disk) {n : Int} (h : OnDisk n) : d.sector n = d (cell n h) :=
  dif_pos h

theorem store_eq_update (d : Disk) {n : Int} (h : OnDisk n) (s : Sector) :
    d.store n s = Function.update d (cell n h) s := by
  funext m
  by_cases hm : m = cell n h
  · subst hm
    rw [Function.update_self, Disk.store, cell_coe, if_pos rfl]
  · have hne : ((m : Nat) : Int) ≠ n := fun e =>
      hm (Fin.ext (by rw [← Int.toNat_natCast (m : Nat), e]; rfl))
    rw [Function.update_of_ne hm, Disk.store, if_neg hne]

variable {α : Type}

/-- `SynchDisk::ReadSector`. -/
def readSector (sectorNumber : Int) : SectorProgram Sector :=
  if h : OnDisk sectorNumber then .read (cell sectorNumber h) .done else .fail .assertFailed

/-- `SynchDisk::WriteSector`. -/
def writeSector (sectorNumber : Int) (data : Sector) : SectorProgram Unit :=
  if h : OnDisk sectorNumber then .write (cell sectorNumber h) data (.done ())
  else .fail .assertFailed

/-- A computation that does not use the disk. -/
def check : Except Fault α → SectorProgram α
  | .ok a => .done a
  | .error e => .fail e

theorem readSector_of {n : Int} (h : OnDisk n) : readSector n = .read (cell n h) .done :=
  dif_pos h

theorem writeSector_of {n : Int} (h : OnDisk n) (data : Sector) :
    writeSector n data = .write (cell n h) data (.done ()) := dif_pos h

theorem run_readSector (n : Int) : (readSector n).run = FileSys.readSector n := by
  funext d
  by_cases h : OnDisk n
  · rw [readSector_of h]
    exact (congrArg (fun s => Except.ok (s, d)) (sector_eq_cell d h).symm).trans
      (readSector_run h d).symm
  · simp only [readSector, dif_neg h, FileSys.readSector, if_neg h]
    rfl

theorem run_writeSector (n : Int) (data : Sector) :
    (writeSector n data).run = FileSys.writeSector n data := by
  funext d
  by_cases h : OnDisk n
  · rw [writeSector_of h]
    exact (congrArg (fun s => Except.ok ((), s)) (store_eq_update d h data).symm).trans
      (writeSector_run h data d).symm
  · simp only [writeSector, dif_neg h, FileSys.writeSector, if_neg h]
    rfl

theorem run_check (e : Except Fault α) : (check e).run = (liftM e : SynchDisk α) := by
  cases e with
  | ok a => rfl
  | error e => rfl

/-! ## Headers and open files -/

/-- `FileHeader::FetchFrom`. -/
def FileHeader.fetchFrom (sector : Int) : SectorProgram FileHeader := do
  let s ← readSector sector
  pure (FileHeader.ofSector s)

/-- `FileHeader::WriteBack`. -/
def FileHeader.writeBack (h : FileHeader) (sector : Int) : SectorProgram Unit :=
  writeSector sector (Sector.ofBlock h.toBlock)

namespace OpenFile

/-- `OpenFile::OpenFile`. -/
def new (sector : Int) : SectorProgram OpenFile := do
  let hdr ← FileHeader.fetchFrom sector
  pure { hdr, seekPosition := 0 }

/-- The loop of `ReadAt`, from sector `i` of the file on. -/
def readLoop (h : FileHeader) (first : Int) (buf : Block) (i : Int) : Nat → SectorProgram Block
  | 0 => pure buf
  | count + 1 => do
    let sector ← check (h.byteToSector (i * sectorSize))
    let data ← readSector sector
    readLoop h first (buf.copy ((i - first) * sectorSize).toNat sectorSize data.get) (i + 1) count

/-- `ReadAt` after its request check. -/
def readSpan (f : OpenFile) (into : Block) (numBytes position : Int) :
    SectorProgram (Int × Block) := do
  let first := OpenFile.firstSector position
  let count := 1 + OpenFile.lastSector position numBytes - first
  let size := OpenFile.sectorBytes count
  if size < 0 then .fail .badAlloc
  else
    let buf ← readLoop f.hdr first (fun _ => 0) first count.toNat
    check (checkRange (position - first * sectorSize) numBytes size)
    pure (numBytes,
      into.copy 0 numBytes.toNat (buf.from (position - first * sectorSize).toNat))

/-- `OpenFile::ReadAt`: the count it returns, and the buffer `into` after it. -/
def readAt (f : OpenFile) (into : Block) (numBytes position : Int) :
    SectorProgram (Int × Block) :=
  if numBytes ≤ 0 ∨ position ≥ f.length then pure (0, into)
  else readSpan f into (OpenFile.clip f.length numBytes position) position

/-- The loop of `WriteAt`, from sector `i` of the file on. -/
def writeLoop (h : FileHeader) (first : Int) (buf : Block) (i : Int) : Nat → SectorProgram Unit
  | 0 => pure ()
  | count + 1 => do
    let sector ← check (h.byteToSector (i * sectorSize))
    writeSector sector (Sector.ofBlock (buf.from ((i - first) * sectorSize).toNat))
    writeLoop h first buf (i + 1) count

/-- `ReadAt(&buf[off], SectorSize, sector * SectorSize)` into a buffer of `size`
bytes, skipped unless `wanted`. -/
def readPartial (f : OpenFile) (wanted : Bool) (buf : Block) (off sector size : Int) :
    SectorProgram Block :=
  if wanted then do
    check (checkRange off sectorSize size)
    let result ← readAt f (buf.from off.toNat) sectorSize (sector * sectorSize)
    pure fun k => if off.toNat ≤ k then result.2 (k - off.toNat) else buf k
  else pure buf

/-- `WriteAt` after its request check.  `junk` is what `new` left in `buf`. -/
def writeSpan (f : OpenFile) (junk src : Block) (numBytes position : Int) :
    SectorProgram Int := do
  let first := OpenFile.firstSector position
  let last := OpenFile.lastSector position numBytes
  let count := 1 + last - first
  let size := OpenFile.sectorBytes count
  if size < 0 then .fail .badAlloc
  else
    let firstAligned := decide (position = first * sectorSize)
    let lastAligned := decide
      (LittleEndian.wrap (position + numBytes) = OpenFile.sectorBytes (last + 1))
    let buf ← readPartial f (!firstAligned) junk 0 first size
    let buf ← readPartial f (!lastAligned && (decide (first ≠ last) || firstAligned)) buf
      (OpenFile.sectorBytes (last - first)) last size
    check (checkRange (position - first * sectorSize) numBytes size)
    let buf := buf.copy (position - first * sectorSize).toNat numBytes.toNat src
    writeLoop f.hdr first buf first count.toNat
    pure numBytes

/-- `OpenFile::WriteAt` of the bytes at `src`. -/
def writeAt (f : OpenFile) (junk src : Block) (numBytes position : Int) : SectorProgram Int :=
  if numBytes ≤ 0 ∨ position ≥ f.length then pure 0
  else writeSpan f junk src (OpenFile.clip f.length numBytes position) position

end OpenFile

/-! ## The free map, the directory and the file system -/

/-- `BitMap::FetchFrom`. -/
def BitMap.fetchFrom {n : Nat} (m : BitMap n) (file : OpenFile) : SectorProgram (BitMap n) := do
  let result ← OpenFile.readAt file m.toBlock (numWords n * sizeofInt : Nat) 0
  pure (BitMap.ofBlock n result.2)

/-- `BitMap::WriteBack`. -/
def BitMap.writeBack {n : Nat} (m : BitMap n) (junk : Block) (file : OpenFile) :
    SectorProgram Unit := do
  let _ ← OpenFile.writeAt file junk m.toBlock (numWords n * sizeofInt : Nat) 0
  pure ()

/-- `Directory::FetchFrom`. -/
def Directory.fetchFrom {n : Nat} (dir : Directory n) (file : OpenFile) :
    SectorProgram (Directory n) := do
  let result ← OpenFile.readAt file dir.toBlock (n * sizeofDirectoryEntry : Nat) 0
  pure (Directory.ofBlock n result.2)

/-- `Directory::WriteBack`. -/
def Directory.writeBack {n : Nat} (dir : Directory n) (junk : Block) (file : OpenFile) :
    SectorProgram Unit := do
  let _ ← OpenFile.writeAt file junk dir.toBlock (n * sizeofDirectoryEntry : Nat) 0
  pure ()

namespace FileSystem

/-- `FileSystem::Create`. -/
def create (fs : FileSystem) (junk : Junk) (name : CString) (initialSize : Int) :
    SectorProgram Created := do
  let directory ← Directory.fetchFrom (Directory.new numDirEntries (junk 0)) fs.directoryFile
  if directory.find name.bytes ≠ -1 then pure ⟨false, []⟩
  else
    let freeMap ← BitMap.fetchFrom (BitMap.new numSectors (junk 1)) fs.freeMapFile
    let found := freeMap.find
    if found.1 = -1 then pure ⟨false, []⟩
    else
      let added := directory.add name.bytes found.1
      if added.1 = false then pure ⟨false, []⟩
      else
        let allocation := (FileHeader.ofBlock (junk 2)).allocate found.2 initialSize
        if allocation.success = false then pure ⟨false, allocation.written⟩
        else
          FileHeader.writeBack allocation.hdr found.1
          Directory.writeBack added.2 (junk 3) fs.directoryFile
          BitMap.writeBack allocation.freeMap (junk 4) fs.freeMapFile
          pure ⟨true, allocation.written⟩

/-- `FileSystem::Open`. -/
def «open» (fs : FileSystem) (junk : Junk) (name : CString) :
    SectorProgram (Option OpenFile) := do
  let directory ← Directory.fetchFrom (Directory.new numDirEntries (junk 0)) fs.directoryFile
  let sector := directory.find name.bytes
  if sector ≥ 0 then
    let openFile ← OpenFile.new sector
    pure (some openFile)
  else pure none

/-- `FileSystem::Remove`. -/
def remove (fs : FileSystem) (junk : Junk) (name : CString) : SectorProgram Bool := do
  let directory ← Directory.fetchFrom (Directory.new numDirEntries (junk 0)) fs.directoryFile
  let sector := directory.find name.bytes
  if sector = -1 then pure false
  else
    let fileHdr ← FileHeader.fetchFrom sector
    let freeMap ← BitMap.fetchFrom (BitMap.new numSectors (junk 1)) fs.freeMapFile
    let freeMap ← check (fileHdr.deallocate freeMap)
    let freeMap ← check (freeMap.clear sector)
    let directory := (directory.remove name.bytes).2
    BitMap.writeBack freeMap (junk 2) fs.freeMapFile
    Directory.writeBack directory (junk 3) fs.directoryFile
    pure true

end FileSystem

/-! ## Run from start to end -/

section Run

theorem run_fetchHeader (sector : Int) :
    (FileHeader.fetchFrom sector).run = FileSys.FileHeader.fetchFrom sector := by
  rw [FileHeader.fetchFrom, FileSys.FileHeader.fetchFrom, StoreProgram.run_bind, run_readSector]
  rfl

theorem run_new (sector : Int) : (OpenFile.new sector).run = FileSys.OpenFile.new sector := by
  rw [OpenFile.new, FileSys.OpenFile.new, StoreProgram.run_bind, run_fetchHeader]
  rfl

theorem run_readLoop (h : FileHeader) (first : Int) (count : Nat) : ∀ (buf : Block) (i : Int),
    (OpenFile.readLoop h first buf i count).run =
      FileSys.OpenFile.readLoop h first buf i count := by
  induction count with
  | zero => exact fun _ _ => rfl
  | succ count ih =>
    intro buf i
    simp only [OpenFile.readLoop, FileSys.OpenFile.readLoop, StoreProgram.run_bind, run_check,
      run_readSector, ih]

theorem run_readSpan (f : OpenFile) (into : Block) (numBytes position : Int) :
    (OpenFile.readSpan f into numBytes position).run =
      FileSys.OpenFile.readSpan f into numBytes position := by
  simp only [OpenFile.readSpan, FileSys.OpenFile.readSpan, StoreProgram.run_ite,
    StoreProgram.run_bind, run_check, run_readLoop, StoreProgram.run_fail, StoreProgram.run_pure]

theorem run_readAt (f : OpenFile) (into : Block) (numBytes position : Int) :
    (OpenFile.readAt f into numBytes position).run =
      FileSys.OpenFile.readAt f into numBytes position := by
  simp only [OpenFile.readAt, FileSys.OpenFile.readAt, StoreProgram.run_ite, run_readSpan,
    StoreProgram.run_pure]

theorem run_writeLoop (h : FileHeader) (first : Int) (buf : Block) (count : Nat) : ∀ i : Int,
    (OpenFile.writeLoop h first buf i count).run =
      FileSys.OpenFile.writeLoop h first buf i count := by
  induction count with
  | zero => exact fun _ => rfl
  | succ count ih =>
    intro i
    simp only [OpenFile.writeLoop, FileSys.OpenFile.writeLoop, StoreProgram.run_bind, run_check,
      run_writeSector, ih]

theorem run_readPartial (f : OpenFile) (wanted : Bool) (buf : Block) (off sector size : Int) :
    (OpenFile.readPartial f wanted buf off sector size).run =
      FileSys.OpenFile.readPartial f wanted buf off sector size := by
  simp only [OpenFile.readPartial, FileSys.OpenFile.readPartial, StoreProgram.run_ite,
    StoreProgram.run_bind, run_check, run_readAt, StoreProgram.run_pure]

theorem run_writeSpan (f : OpenFile) (junk src : Block) (numBytes position : Int) :
    (OpenFile.writeSpan f junk src numBytes position).run =
      FileSys.OpenFile.writeSpan f junk src numBytes position := by
  simp only [OpenFile.writeSpan, FileSys.OpenFile.writeSpan, StoreProgram.run_ite,
    StoreProgram.run_bind, run_check, run_readPartial, run_writeLoop, StoreProgram.run_fail,
    StoreProgram.run_pure]

theorem run_writeAt (f : OpenFile) (junk src : Block) (numBytes position : Int) :
    (OpenFile.writeAt f junk src numBytes position).run =
      FileSys.OpenFile.writeAt f junk src numBytes position := by
  simp only [OpenFile.writeAt, FileSys.OpenFile.writeAt, StoreProgram.run_ite, run_writeSpan,
    StoreProgram.run_pure]

theorem run_fetchMap {n : Nat} (m : BitMap n) (file : OpenFile) :
    (BitMap.fetchFrom m file).run = m.fetchFrom file := by
  rw [BitMap.fetchFrom, FileSys.BitMap.fetchFrom, StoreProgram.run_bind, run_readAt]
  rfl

theorem run_writeBackMap {n : Nat} (m : BitMap n) (junk : Block) (file : OpenFile) :
    (BitMap.writeBack m junk file).run = m.writeBack junk file := by
  rw [BitMap.writeBack, FileSys.BitMap.writeBack, StoreProgram.run_bind, run_writeAt]
  rfl

theorem run_fetchDirectory {n : Nat} (dir : Directory n) (file : OpenFile) :
    (Directory.fetchFrom dir file).run = dir.fetchFrom file := by
  rw [Directory.fetchFrom, FileSys.Directory.fetchFrom, StoreProgram.run_bind, run_readAt]
  rfl

theorem run_writeBackDirectory {n : Nat} (dir : Directory n) (junk : Block) (file : OpenFile) :
    (Directory.writeBack dir junk file).run = dir.writeBack junk file := by
  rw [Directory.writeBack, FileSys.Directory.writeBack, StoreProgram.run_bind, run_writeAt]
  rfl

theorem run_writeBackHeader (h : FileHeader) (sector : Int) :
    (FileHeader.writeBack h sector).run = h.writeBack sector := run_writeSector _ _

theorem run_create (fs : FileSystem) (junk : Junk) (name : CString) (initialSize : Int) :
    (FileSystem.create fs junk name initialSize).run = fs.create junk name initialSize := by
  simp only [FileSystem.create, FileSys.FileSystem.create, StoreProgram.run_ite,
    StoreProgram.run_bind, run_fetchDirectory, run_fetchMap, run_writeBackHeader,
    run_writeBackDirectory, run_writeBackMap, StoreProgram.run_pure]

theorem run_open (fs : FileSystem) (junk : Junk) (name : CString) :
    (FileSystem.open fs junk name).run = fs.open junk name := by
  simp only [FileSystem.open, FileSys.FileSystem.open, StoreProgram.run_ite, StoreProgram.run_bind,
    run_fetchDirectory, run_new, StoreProgram.run_pure]

theorem run_remove (fs : FileSystem) (junk : Junk) (name : CString) :
    (FileSystem.remove fs junk name).run = fs.remove junk name := by
  simp only [FileSystem.remove, FileSys.FileSystem.remove, StoreProgram.run_ite,
    StoreProgram.run_bind, run_fetchDirectory, run_fetchHeader, run_fetchMap, run_check,
    run_writeBackMap, run_writeBackDirectory, StoreProgram.run_pure]

end Run

end SectorProgram
end FileSys
end Nachos
