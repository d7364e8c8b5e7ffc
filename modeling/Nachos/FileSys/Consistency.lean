import Mathlib.Logic.Function.Basic
import Nachos.FileSys.FileSystem
import Nachos.Lib.Ownership

/-!
# Consistency of the disk

The owners of sectors are the system itself and the directory entries.  A disk
is consistent when every sector marked in the free map has one owner, every
header covers its file, and no two entries in use share a name.
-/

namespace Nachos
namespace FileSys

open Lib

/-- The header that a sector of the disk holds. -/
def Disk.header (d : Disk) (s : Int) : FileHeader := FileHeader.ofSector (d.sector s)

/-- The sectors a directory entry owns: its file's header and data. -/
def DirectoryEntry.sectors (e : DirectoryEntry) (d : Disk) : List Int :=
  if e.inUse then e.sector :: (d.header e.sector).sectors else []

/-- An entry's sectors depend on the sector of the file's header only. -/
theorem DirectoryEntry.sectors_congr {e : DirectoryEntry} {d d' : Disk}
    (h : e.inUse = true → d'.sector e.sector = d.sector e.sector) : e.sectors d' = e.sectors d := by
  rw [sectors, sectors]
  by_cases hu : e.inUse = true
  · rw [if_pos hu, if_pos hu, Disk.header, Disk.header, h hu]
  · rw [if_neg hu, if_neg hu]

/-- The owners of sectors: the system, or a directory entry. -/
abbrev Owner := Option (Fin numDirEntries)

namespace FileSystem

/-- The free map as the disk has it. -/
def freeMapOn (fs : FileSystem) (d : Disk) : BitMap numSectors :=
  BitMap.ofBlock numSectors (fileByte d fs.freeMapFile.hdr)

/-- The directory as the disk has it. -/
def directoryOn (fs : FileSystem) (d : Disk) : Directory numDirEntries :=
  Directory.ofBlock numDirEntries (fileByte d fs.directoryFile.hdr)

/-- The headers and the data of the free-map file and of the directory file. -/
def systemSectors (fs : FileSystem) : List Int :=
  (freeMapSector : Int) :: (directorySector : Int) ::
    (fs.freeMapFile.hdr.sectors ++ fs.directoryFile.hdr.sectors)

def owned (fs : FileSystem) (d : Disk) : Owner → List Int
  | none => fs.systemSectors
  | some i => ((fs.directoryOn d).table i).sectors d

/-- The free map marks the sector. -/
def Marked (fs : FileSystem) (d : Disk) (s : Int) : Prop :=
  OnDisk s ∧ (fs.freeMapOn d).bit s.toNat = true

/-- The two open system files have the sizes the code relies on. -/
structure SystemFiles (fs : FileSystem) : Prop where
  mapValid : fs.freeMapFile.hdr.Valid
  dirValid : fs.directoryFile.hdr.Valid
  mapLength : fs.freeMapFile.hdr.numBytes = (freeMapFileSize : Nat)
  dirLength : fs.directoryFile.hdr.numBytes = (directoryFileSize : Nat)
  nodup : fs.systemSectors.Nodup

structure Consistent (fs : FileSystem) (d : Disk) : Prop where
  files : fs.SystemFiles
  mapHeader : d.header freeMapSector = fs.freeMapFile.hdr
  dirHeader : d.header directorySector = fs.directoryFile.hdr
  fileValid : ∀ i, ((fs.directoryOn d).table i).inUse = true →
    (d.header ((fs.directoryOn d).table i).sector).Valid
  ownership : Ownership (fs.owned d) (fs.Marked d)
  names : ∀ i j, i ≠ j → ((fs.directoryOn d).table i).inUse = true →
    ((fs.directoryOn d).table j).inUse = true →
    ((fs.directoryOn d).table i).sameName ((fs.directoryOn d).table j).nameBytes = false

/-! ## What the disk's sectors decide -/

variable {fs : FileSystem} {d d' : Disk}

theorem freeMapOn_congr (hf : fs.SystemFiles)
    (h : ∀ s ∈ fs.freeMapFile.hdr.sectors, d'.sector s = d.sector s) :
    fs.freeMapOn d' = fs.freeMapOn d :=
  BitMap.ofBlock_congr fun k hk => OpenFile.fileByte_congr hf.mapValid h (by
    have hwords : numWords numSectors = 32 := rfl
    rw [hf.mapLength]
    simp only [freeMapFileSize, numSectors, sectorsPerTrack, numTracks, bitsInByte]
    omega)

theorem directoryOn_congr (hf : fs.SystemFiles)
    (h : ∀ s ∈ fs.directoryFile.hdr.sectors, d'.sector s = d.sector s) :
    fs.directoryOn d' = fs.directoryOn d :=
  Directory.ofBlock_congr fun k hk => OpenFile.fileByte_congr hf.dirValid h (by
    rw [hf.dirLength]
    exact_mod_cast hk)

theorem header_congr {s : Int} (h : d'.sector s = d.sector s) : d'.header s = d.header s := by
  rw [Disk.header, Disk.header, h]

theorem header_store {h : FileHeader} (hf : h.Fits) {s : Int} (hs : OnDisk s) :
    (d.store s (Sector.ofBlock h.toBlock)).header s = h := by
  rw [Disk.header, Disk.sector_store_self hs, FileHeader.ofSector_toBlock hf]

theorem SystemFiles.map_not_dir (hf : fs.SystemFiles) {s : Int}
    (hs : s ∈ fs.freeMapFile.hdr.sectors) : s ∉ fs.directoryFile.hdr.sectors := by
  have hnodup := (List.nodup_cons.mp (List.nodup_cons.mp hf.nodup).2).2
  exact fun hd => (List.disjoint_of_nodup_append hnodup) hs hd

/-- A write to the free-map file leaves the directory. -/
theorem directoryOn_of_frame (hf : fs.SystemFiles)
    (h : ∀ s, s ∉ fs.freeMapFile.hdr.sectors → d'.sector s = d.sector s) :
    fs.directoryOn d' = fs.directoryOn d :=
  directoryOn_congr hf fun s hs => h s fun hm => hf.map_not_dir hm hs

/-- A write to the directory file leaves the free map. -/
theorem freeMapOn_of_frame (hf : fs.SystemFiles)
    (h : ∀ s, s ∉ fs.directoryFile.hdr.sectors → d'.sector s = d.sector s) :
    fs.freeMapOn d' = fs.freeMapOn d :=
  freeMapOn_congr hf fun s hs => h s (hf.map_not_dir hs)

theorem mem_systemSectors {s : Int} : s ∈ fs.systemSectors ↔
    s = (freeMapSector : Int) ∨ s = (directorySector : Int) ∨
      s ∈ fs.freeMapFile.hdr.sectors ∨ s ∈ fs.directoryFile.hdr.sectors := by
  simp only [systemSectors, List.mem_cons, List.mem_append]

/-- The two well-known headers are not in the data of a system file. -/
theorem SystemFiles.wellKnown (hf : fs.SystemFiles) {s : Int}
    (hs : s = (freeMapSector : Int) ∨ s = (directorySector : Int)) :
    s ∉ fs.freeMapFile.hdr.sectors ∧ s ∉ fs.directoryFile.hdr.sectors := by
  have hnodup := hf.nodup
  simp only [systemSectors, List.nodup_cons, List.mem_cons, List.mem_append, not_or] at hnodup
  rcases hs with rfl | rfl
  · exact hnodup.1.2
  · exact hnodup.2.1

namespace Consistent

theorem onDisk_of_owned (hc : Consistent fs d) {k : Owner} {s : Int} (hs : s ∈ fs.owned d k) :
    OnDisk s := (hc.ownership.marked_of_mem hs).1

theorem sector_mem {i : Fin numDirEntries} (hu : ((fs.directoryOn d).table i).inUse = true) :
    ((fs.directoryOn d).table i).sector ∈ fs.owned d (some i) := by
  simp only [owned, DirectoryEntry.sectors, hu, if_true, List.mem_cons_self]

theorem data_mem {i : Fin numDirEntries} (hu : ((fs.directoryOn d).table i).inUse = true) {s : Int}
    (hs : s ∈ (d.header ((fs.directoryOn d).table i).sector).sectors) :
    s ∈ fs.owned d (some i) := by
  simp only [owned, DirectoryEntry.sectors, hu, if_true, List.mem_cons, hs, or_true]

/-- A clear bit of the free map is a sector nobody owns. -/
theorem not_owned_of_clear (hc : Consistent fs d) {s : Nat}
    (hs : s ∈ (fs.freeMapOn d).clearBits) (k : Owner) : (s : Int) ∉ fs.owned d k := by
  intro hmem
  have hbit := (hc.ownership.marked_of_mem hmem).2
  rw [Int.toNat_natCast, (BitMap.mem_clearBits.mp hs).2] at hbit
  exact Bool.false_ne_true hbit

theorem not_system (hc : Consistent fs d) {i : Fin numDirEntries} {s : Int}
    (hs : s ∈ fs.owned d (some i)) : s ∉ fs.systemSectors :=
  hc.ownership.disjoint (some i) none (by simp) s hs

theorem sector_onDisk (hc : Consistent fs d) {i : Fin numDirEntries}
    (hu : ((fs.directoryOn d).table i).inUse = true) :
    OnDisk ((fs.directoryOn d).table i).sector := hc.onDisk_of_owned (sector_mem hu)

/-- A change of one directory entry, of its file and of the free map keeps the
disk consistent when the new owners do not overlap. -/
theorem update (hc : Consistent fs d) (i : Fin numDirEntries)
    (hwell : ∀ s : Int, s = (freeMapSector : Int) ∨ s = (directorySector : Int) →
      d'.sector s = d.sector s)
    (hother : ∀ j, j ≠ i → (fs.directoryOn d').table j = (fs.directoryOn d).table j)
    (hheader : ∀ j, j ≠ i → ((fs.directoryOn d).table j).inUse = true →
      d'.sector ((fs.directoryOn d).table j).sector = d.sector ((fs.directoryOn d).table j).sector)
    (hvalid : ((fs.directoryOn d').table i).inUse = true →
      (d'.header ((fs.directoryOn d').table i).sector).Valid)
    (hnames : ((fs.directoryOn d').table i).inUse = true → ∀ j, j ≠ i →
      ((fs.directoryOn d).table j).inUse = true →
      ((fs.directoryOn d').table i).sameName ((fs.directoryOn d).table j).nameBytes = false)
    (hown : Ownership
      (Function.update (fs.owned d) (some i) (((fs.directoryOn d').table i).sectors d'))
      (fs.Marked d')) :
    Consistent fs d' := by
  refine ⟨hc.files, ?_, ?_, fun j hu => ?_, hown.congr (fun k => ?_) (fun _ => Iff.rfl),
    fun j k hjk hj hk => ?_⟩
  · rw [header_congr (hwell _ (Or.inl rfl)), hc.mapHeader]
  · rw [header_congr (hwell _ (Or.inr rfl)), hc.dirHeader]
  · by_cases hji : j = i
    · subst hji
      exact hvalid hu
    · rw [hother j hji] at hu ⊢
      rw [header_congr (hheader j hji hu)]
      exact hc.fileValid j hu
  · cases k with
    | none => rw [Function.update_of_ne (by simp)]; rfl
    | some j =>
      by_cases hji : j = i
      · subst hji
        rw [Function.update_self]
        rfl
      · rw [Function.update_of_ne (by simpa using hji), owned, owned, hother j hji]
        exact DirectoryEntry.sectors_congr (hheader j hji)
  · by_cases hji : j = i
    · subst hji
      rw [hother k (Ne.symm hjk)] at hk ⊢
      exact hnames hj k (Ne.symm hjk) hk
    · by_cases hki : k = i
      · subst hki
        rw [hother j hji] at hj ⊢
        rw [DirectoryEntry.sameName_comm]
        exact hnames hk j hji hj
      · rw [hother j hji] at hj ⊢
        rw [hother k hki] at hk ⊢
        exact hc.names j k hjk hj hk

end Consistent

end FileSystem
end FileSys
end Nachos
