import Nachos.FileSys.Directory

/-!
# The file system

The free map and the directory are themselves files, whose headers sit in
sectors 0 and 1 and which stay open.  Each operation fetches them, changes its
copies in memory, and writes the copies back only when all has gone well.
-/

namespace Nachos
namespace FileSys

@[simp] abbrev freeMapSector : Nat := 0

@[simp] abbrev directorySector : Nat := 1

@[simp] abbrev bitsInByte : Nat := 8

@[simp] abbrev freeMapFileSize : Nat := numSectors / bitsInByte

@[simp] abbrev numDirEntries : Nat := 10

@[simp] abbrev directoryFileSize : Nat := sizeofDirectoryEntry * numDirEntries

/-- `BitMap::FetchFrom`. -/
def BitMap.fetchFrom {n : Nat} (m : BitMap n) (file : OpenFile) : SynchDisk (BitMap n) := do
  let result ← file.readAt m.toBlock (numWords n * sizeofInt : Nat) 0
  pure (BitMap.ofBlock n result.2)

/-- `BitMap::WriteBack`. -/
def BitMap.writeBack {n : Nat} (m : BitMap n) (junk : Block) (file : OpenFile) :
    SynchDisk Unit := do
  let _ ← file.writeAt junk m.toBlock (numWords n * sizeofInt : Nat) 0
  pure ()

/-- `Directory::FetchFrom`. -/
def Directory.fetchFrom {n : Nat} (dir : Directory n) (file : OpenFile) :
    SynchDisk (Directory n) := do
  let result ← file.readAt dir.toBlock (n * sizeofDirectoryEntry : Nat) 0
  pure (Directory.ofBlock n result.2)

/-- `Directory::WriteBack`. -/
def Directory.writeBack {n : Nat} (dir : Directory n) (junk : Block) (file : OpenFile) :
    SynchDisk Unit := do
  let _ ← file.writeAt junk dir.toBlock (n * sizeofDirectoryEntry : Nat) 0
  pure ()

/-- `ASSERT`. -/
def assert (condition : Bool) : SynchDisk Unit :=
  if condition then pure () else throw .assertFailed

theorem assert_true (d : Disk) : (assert true).run d = .ok ((), d) := rfl

structure FileSystem where
  freeMapFile : OpenFile
  directoryFile : OpenFile

/-- What `create` returns, with the indices at which `FileHeader::Allocate`
stored into the sector table on the way. -/
structure Created where
  success : Bool
  written : List Nat

namespace FileSystem

/-- `FileSystem::FileSystem` with `format` set. -/
def format (junk : Junk) : SynchDisk FileSystem := do
  let freeMap := BitMap.new numSectors (junk 0)
  let directory := Directory.new numDirEntries (junk 1)
  let mapHdr := FileHeader.ofBlock (junk 2)
  let dirHdr := FileHeader.ofBlock (junk 3)
  let freeMap ← liftM (freeMap.mark freeMapSector)
  let freeMap ← liftM (freeMap.mark directorySector)
  let forMap := mapHdr.allocate freeMap freeMapFileSize
  assert forMap.success
  let forDir := dirHdr.allocate forMap.freeMap directoryFileSize
  assert forDir.success
  forMap.hdr.writeBack freeMapSector
  forDir.hdr.writeBack directorySector
  let freeMapFile ← OpenFile.new freeMapSector
  let directoryFile ← OpenFile.new directorySector
  forDir.freeMap.writeBack (junk 4) freeMapFile
  directory.writeBack (junk 5) directoryFile
  pure { freeMapFile, directoryFile }

/-- `FileSystem::FileSystem` with `format` not set. -/
def mount : SynchDisk FileSystem := do
  let freeMapFile ← OpenFile.new freeMapSector
  let directoryFile ← OpenFile.new directorySector
  pure { freeMapFile, directoryFile }

/-- `FileSystem::Create`. -/
def create (fs : FileSystem) (junk : Junk) (name : CString) (initialSize : Int) :
    SynchDisk Created := do
  let directory ← (Directory.new numDirEntries (junk 0)).fetchFrom fs.directoryFile
  if directory.find name.bytes ≠ -1 then pure ⟨false, []⟩
  else
    let freeMap ← (BitMap.new numSectors (junk 1)).fetchFrom fs.freeMapFile
    let found := freeMap.find
    if found.1 = -1 then pure ⟨false, []⟩
    else
      let added := directory.add name.bytes found.1
      if added.1 = false then pure ⟨false, []⟩
      else
        let allocation := (FileHeader.ofBlock (junk 2)).allocate found.2 initialSize
        if allocation.success = false then pure ⟨false, allocation.written⟩
        else
          -- everything worked, flush all changes back to disk
          allocation.hdr.writeBack found.1
          added.2.writeBack (junk 3) fs.directoryFile
          allocation.freeMap.writeBack (junk 4) fs.freeMapFile
          pure ⟨true, allocation.written⟩

/-- `FileSystem::Open`. -/
def «open» (fs : FileSystem) (junk : Junk) (name : CString) : SynchDisk (Option OpenFile) := do
  let directory ← (Directory.new numDirEntries (junk 0)).fetchFrom fs.directoryFile
  let sector := directory.find name.bytes
  if sector ≥ 0 then
    let openFile ← OpenFile.new sector
    pure (some openFile)
  else pure none

/-- `FileSystem::Remove`. -/
def remove (fs : FileSystem) (junk : Junk) (name : CString) : SynchDisk Bool := do
  let directory ← (Directory.new numDirEntries (junk 0)).fetchFrom fs.directoryFile
  let sector := directory.find name.bytes
  if sector = -1 then pure false
  else
    let fileHdr ← FileHeader.fetchFrom sector
    let freeMap ← (BitMap.new numSectors (junk 1)).fetchFrom fs.freeMapFile
    let freeMap ← liftM (fileHdr.deallocate freeMap)
    let freeMap ← liftM (freeMap.clear sector)
    let directory := (directory.remove name.bytes).2
    freeMap.writeBack (junk 2) fs.freeMapFile
    directory.writeBack (junk 3) fs.directoryFile
    pure true

end FileSystem

/-! ## The system files on disk -/

section SystemFiles

variable {file : OpenFile}

/-- A bitmap of the whole disk fills the free-map file. -/
theorem freeMapFileSize_eq : freeMapFileSize = numWords numSectors * sizeofInt := rfl

theorem directoryFileSize_eq : directoryFileSize = numDirEntries * sizeofDirectoryEntry := rfl

theorem BitMap.fetchFrom_run (hv : file.hdr.Valid)
    (hlen : file.hdr.numBytes = (freeMapFileSize : Nat)) (m : BitMap numSectors) (d : Disk) :
    (m.fetchFrom file).run d = .ok (BitMap.ofBlock numSectors (fileByte d file.hdr), d) := by
  rw [freeMapFileSize_eq] at hlen
  have hsame : BitMap.ofBlock numSectors (fun k => if k < numWords numSectors * sizeofInt
        then fileByte d file.hdr k else m.toBlock k) =
      BitMap.ofBlock numSectors (fileByte d file.hdr) :=
    BitMap.ofBlock_congr fun k hk => if_pos (by rwa [Nat.mul_comm] at hk)
  rw [BitMap.fetchFrom, run_bind (OpenFile.readAt_whole hv hlen _ d), run_pure, hsame]

theorem BitMap.writeBack_run (hv : file.hdr.Valid)
    (hlen : file.hdr.numBytes = (freeMapFileSize : Nat)) (m : BitMap numSectors) (junk : Block)
    (d : Disk) :
    ∃ d', (m.writeBack junk file).run d = .ok ((), d') ∧
      (∀ s, s ∉ file.hdr.sectors → d'.sector s = d.sector s) ∧
      BitMap.ofBlock numSectors (fileByte d' file.hdr) = m := by
  rw [freeMapFileSize_eq] at hlen
  obtain ⟨d', hrun, hframe, hbytes⟩ := OpenFile.writeAt_whole hv hlen junk m.toBlock d
  refine ⟨d', ?_, hframe, ?_⟩
  · rw [BitMap.writeBack, run_bind hrun, run_pure]
  · have hsame : BitMap.ofBlock numSectors (fileByte d' file.hdr) =
        BitMap.ofBlock numSectors m.toBlock :=
      BitMap.ofBlock_congr fun k hk => hbytes k (by rwa [Nat.mul_comm] at hk)
    rw [hsame, BitMap.ofBlock_toBlock]

theorem Directory.fetchFrom_run (hv : file.hdr.Valid)
    (hlen : file.hdr.numBytes = (directoryFileSize : Nat)) (dir : Directory numDirEntries)
    (d : Disk) :
    (dir.fetchFrom file).run d = .ok (Directory.ofBlock numDirEntries (fileByte d file.hdr), d) := by
  rw [directoryFileSize_eq] at hlen
  have hsame : Directory.ofBlock numDirEntries
        (fun k => if k < numDirEntries * sizeofDirectoryEntry
          then fileByte d file.hdr k else dir.toBlock k) =
      Directory.ofBlock numDirEntries (fileByte d file.hdr) :=
    Directory.ofBlock_congr fun k hk => if_pos (by omega)
  rw [Directory.fetchFrom, run_bind (OpenFile.readAt_whole hv hlen _ d), run_pure, hsame]

theorem Directory.writeBack_run (hv : file.hdr.Valid)
    (hlen : file.hdr.numBytes = (directoryFileSize : Nat)) {dir : Directory numDirEntries}
    (hf : dir.Fits) (junk : Block) (d : Disk) :
    ∃ d', (dir.writeBack junk file).run d = .ok ((), d') ∧
      (∀ s, s ∉ file.hdr.sectors → d'.sector s = d.sector s) ∧
      Directory.ofBlock numDirEntries (fileByte d' file.hdr) = dir := by
  rw [directoryFileSize_eq] at hlen
  obtain ⟨d', hrun, hframe, hbytes⟩ := OpenFile.writeAt_whole hv hlen junk dir.toBlock d
  refine ⟨d', ?_, hframe, ?_⟩
  · rw [Directory.writeBack, run_bind hrun, run_pure]
  · have hsame : Directory.ofBlock numDirEntries (fileByte d' file.hdr) =
        Directory.ofBlock numDirEntries dir.toBlock :=
      Directory.ofBlock_congr fun k hk => hbytes k (by omega)
    rw [hsame, Directory.ofBlock_toBlock hf]

end SystemFiles

end FileSys
end Nachos
