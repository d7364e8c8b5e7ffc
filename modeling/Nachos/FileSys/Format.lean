import Nachos.FileSys.Operations

/-!
# Formatting

`format` builds the free map and the directory of an empty disk.  The sectors
come out of the free map in order: 0 and 1 hold the two headers, 2 the free map
and 3 and 4 the directory.
-/

namespace Nachos
namespace FileSys
namespace FileSystem

open Lib

/-- The sectors in use on a disk just formatted. -/
def formatted : List Nat := [0, 1, 2, 3, 4]

theorem range_numSectors : List.range numSectors = formatted ++ List.range' 5 1019 := by
  have hfirst : formatted = List.range' 0 5 := rfl
  have hsum : numSectors = 5 + 1019 := rfl
  rw [hfirst, hsum, List.range_eq_range', List.range'_append_1]

theorem clearBits_new (junk : Block) :
    (BitMap.new numSectors junk).clearBits = formatted ++ List.range' 5 1019 := by
  rw [← range_numSectors, BitMap.clearBits]
  refine List.filter_eq_self.mpr fun i hi => ?_
  rw [BitMap.bit_new junk (List.mem_range.mp hi)]
  rfl

/-- The free map after the two headers' sectors are marked. -/
def headersMarked (junk : Block) : BitMap numSectors :=
  ((BitMap.new numSectors junk).setBit freeMapSector).setBit directorySector

theorem clearBits_headersMarked (junk : Block) :
    (headersMarked junk).clearBits = [2, 3, 4] ++ List.range' 5 1019 :=
  BitMap.clearBits_setBit (BitMap.clearBits_setBit (clearBits_new junk))

theorem bit_headersMarked (junk : Block) {j : Nat} (hj : j < numSectors) :
    (headersMarked junk).bit j = decide (j ∈ [0, 1]) := by
  rw [headersMarked, BitMap.bit_setBit _ hj, BitMap.bit_setBit _ hj, BitMap.bit_new junk hj,
    Bool.false_or]
  simp only [freeMapSector, directorySector, List.mem_cons, List.not_mem_nil, or_false,
    Bool.decide_or]

/-- The headers and the free map that `format` computes. -/
structure Laid (junk : Junk) (mapHdr dirHdr : FileHeader) (freeMap : BitMap numSectors) :
    Prop where
  mapFits : mapHdr.Fits
  dirFits : dirHdr.Fits
  mapValid : mapHdr.Valid
  dirValid : dirHdr.Valid
  mapLength : mapHdr.numBytes = (freeMapFileSize : Nat)
  dirLength : dirHdr.numBytes = (directoryFileSize : Nat)
  mapSectors : mapHdr.sectors = [2]
  dirSectors : dirHdr.sectors = [3, 4]
  clear : freeMap.clearBits = List.range' 5 1019
  freeMap : ∀ j, j < numSectors → freeMap.bit j = decide (j ∈ formatted)

theorem laid (junk : Junk) {a b : Allocation numSectors}
    (ha : a = (FileHeader.ofBlock (junk 2)).allocate (headersMarked (junk 0)) freeMapFileSize)
    (hb : b = (FileHeader.ofBlock (junk 3)).allocate a.freeMap directoryFileSize) :
    a.success = true ∧ b.success = true ∧ Laid junk a.hdr b.hdr b.freeMap := by
  have hmap : divRoundUp (freeMapFileSize : Nat) sectorSize = 1 := by decide
  have hdir : divRoundUp (directoryFileSize : Nat) sectorSize = 2 := by decide
  have hclear := clearBits_headersMarked (junk 0)
  have hroomMap : divRoundUp (freeMapFileSize : Nat) sectorSize ≤
      (headersMarked (junk 0)).numClear := by
    rw [hmap, BitMap.numClear_eq, hclear]
    simp
  have ht := FileHeader.allocate_takes (h := FileHeader.ofBlock (junk 2)) hroomMap
  rw [← ha, hmap, hclear] at ht
  have hclear' : a.freeMap.clearBits = [3, 4] ++ List.range' 5 1019 := ht.clearBits
  have hroomDir : divRoundUp (directoryFileSize : Nat) sectorSize ≤ a.freeMap.numClear := by
    rw [hdir, BitMap.numClear_eq, hclear']
    simp
  have ht' := FileHeader.allocate_takes (h := FileHeader.ofBlock (junk 3)) hroomDir
  rw [← hb, hdir, hclear'] at ht'
  have hmapSectors := FileHeader.allocate_sectors (h := FileHeader.ofBlock (junk 2)) hroomMap
    (by decide)
  have hdirSectors := FileHeader.allocate_sectors (h := FileHeader.ofBlock (junk 3)) hroomDir
    (by decide)
  rw [← ha, FileHeader.fresh, hmap, hclear] at hmapSectors
  rw [← hb, FileHeader.fresh, hdir, hclear'] at hdirSectors
  refine ⟨ht.success, ht'.success, ?_, ?_, ?_, ?_, ht.numBytes, ht'.numBytes, hmapSectors,
    hdirSectors, ht'.clearBits, fun j hj => ?_⟩
  · rw [ha]
    exact FileHeader.allocate_fits (FileHeader.fits_ofBlock _) (by decide) hroomMap
  · rw [hb]
    exact FileHeader.allocate_fits (FileHeader.fits_ofBlock _) (by decide) hroomDir
  · rw [ha]
    exact FileHeader.allocate_valid (by decide) (by decide) hroomMap
  · rw [hb]
    exact FileHeader.allocate_valid (by decide) (by decide) hroomDir
  · rw [ht'.bit j hj, ht.bit j hj, bit_headersMarked (junk 0) hj]
    simp [formatted, Bool.or_assoc]

/-- What the disk is like once `format` has written headers, free map and
directory. -/
theorem consistent_of_laid {junk : Junk} {fs : FileSystem} {d : Disk} {freeMap : BitMap numSectors}
    {dir : Directory numDirEntries} (hfiles : fs.SystemFiles)
    (hlaid : Laid junk fs.freeMapFile.hdr fs.directoryFile.hdr freeMap)
    (hmapHeader : d.header freeMapSector = fs.freeMapFile.hdr)
    (hdirHeader : d.header directorySector = fs.directoryFile.hdr)
    (hmap : fs.freeMapOn d = freeMap) (hdir : fs.directoryOn d = dir)
    (hempty : ∀ i, (dir.table i).inUse = false) : Consistent fs d := by
  subst hmap hdir
  have hfree : ∀ i, ((fs.directoryOn d).table i).inUse ≠ true := fun i => by
    rw [hempty i]
    exact Bool.false_ne_true
  have hsome : ∀ i, fs.owned d (some i) = [] := fun i => by
    rw [owned, DirectoryEntry.sectors, if_neg (hfree i)]
  have hnone : fs.owned d none = formatted.map Int.ofNat := by
    rw [owned, systemSectors, hlaid.mapSectors, hlaid.dirSectors]
    rfl
  refine ⟨hfiles, hmapHeader, hdirHeader, fun i hu => absurd hu (hfree i), ⟨fun k => ?_,
    fun j k hjk a hj hk => ?_, fun a => ?_⟩, fun i _ _ hu => absurd hu (hfree i)⟩
  · cases k with
    | none => exact hfiles.nodup
    | some i => rw [hsome i]; exact List.nodup_nil
  · cases j with
    | some i => rw [hsome i] at hj; exact List.not_mem_nil hj
    | none =>
      cases k with
      | none => exact hjk rfl
      | some i => rw [hsome i] at hk; exact List.not_mem_nil hk
  · constructor
    · rintro ⟨hdisk, hbit⟩
      rw [hlaid.freeMap _ ((Int.toNat_lt hdisk.1).mpr hdisk.2), decide_eq_true_iff] at hbit
      refine ⟨none, ?_⟩
      rw [hnone]
      exact List.mem_map.mpr ⟨_, hbit, Int.toNat_of_nonneg hdisk.1⟩
    · rintro ⟨k, hk⟩
      cases k with
      | some i => rw [hsome i] at hk; exact absurd hk List.not_mem_nil
      | none =>
        rw [hnone] at hk
        obtain ⟨t, ht, rfl⟩ := List.mem_map.mp hk
        have hlt : t < numSectors := by
          rw [← List.mem_range, range_numSectors]
          exact List.mem_append_left _ ht
        have hbit : (fs.freeMapOn d).bit t = true := by
          rw [hlaid.freeMap t hlt]
          exact decide_eq_true ht
        exact ⟨⟨Int.natCast_nonneg t, Int.ofNat_lt.mpr hlt⟩, hbit⟩

/-- A consistent disk with an empty directory. -/
structure Fresh (fs : FileSystem) (d : Disk) : Prop where
  consistent : Consistent fs d
  empty : ∀ i, ((fs.directoryOn d).table i).inUse = false
  clear : (fs.freeMapOn d).clearBits = List.range' 5 1019

/-- Formatting never fails, whatever the disk and the heap held before. -/
theorem format_run (junk : Junk) (d : Disk) :
    ∃ fs d', (format junk).run d = .ok (fs, d') ∧ Fresh fs d' := by
  generalize ha : (FileHeader.ofBlock (junk 2)).allocate (headersMarked (junk 0)) freeMapFileSize
    = a
  generalize hb : (FileHeader.ofBlock (junk 3)).allocate a.freeMap directoryFileSize = b
  obtain ⟨hsa, hsb, hlaid⟩ := laid junk ha.symm hb.symm
  let fs : FileSystem := ⟨⟨a.hdr, 0⟩, ⟨b.hdr, 0⟩⟩
  have hfiles : fs.SystemFiles := by
    refine ⟨hlaid.mapValid, hlaid.dirValid, hlaid.mapLength, hlaid.dirLength, ?_⟩
    rw [systemSectors, hlaid.mapSectors, hlaid.dirSectors]
    decide
  have h0 : OnDisk (freeMapSector : Int) := by decide
  have h1 : OnDisk (directorySector : Int) := by decide
  have hne : (freeMapSector : Int) ≠ (directorySector : Int) := by decide
  -- the two headers
  generalize hd₁ : d.store (freeMapSector : Nat) (Sector.ofBlock a.hdr.toBlock) = d₁
  generalize hd₂ : d₁.store (directorySector : Nat) (Sector.ofBlock b.hdr.toBlock) = d₂
  have hmapHeader : d₂.header (freeMapSector : Nat) = a.hdr := by
    rw [Disk.header, ← hd₂, Disk.sector_store_of_ne hne, ← hd₁]
    exact header_store hlaid.mapFits h0
  have hdirHeader : d₂.header (directorySector : Nat) = b.hdr := by
    rw [← hd₂]
    exact header_store hlaid.dirFits h1
  -- the free map and the directory
  obtain ⟨d₃, hrun₃, hframe₃, hmap₃⟩ :=
    BitMap.writeBack_run hfiles.mapValid hfiles.mapLength b.freeMap (junk 4) d₂
  have hdirFits : (Directory.new numDirEntries (junk 1)).Fits :=
    fun i => Directory.fits_ofBlock numDirEntries (junk 1) i
  obtain ⟨d₄, hrun₄, hframe₄, hdir₄⟩ :=
    Directory.writeBack_run hfiles.dirValid hfiles.dirLength hdirFits (junk 5) d₃
  have hwell : ∀ s : Int, s = (freeMapSector : Int) ∨ s = (directorySector : Int) →
      d₄.header s = d₂.header s := fun s hs => by
    have hnot := hfiles.wellKnown hs
    rw [Disk.header, hframe₄ s hnot.2, hframe₃ s hnot.1, Disk.header]
  have hempty : ∀ i, ((Directory.new numDirEntries (junk 1)).table i).inUse = false :=
    fun _ => rfl
  have hfreeMap : fs.freeMapOn d₄ = b.freeMap :=
    (freeMapOn_of_frame hfiles hframe₄).trans hmap₃
  refine ⟨fs, d₄, ?_, ⟨consistent_of_laid hfiles hlaid ((hwell _ (Or.inl rfl)).trans hmapHeader)
    ((hwell _ (Or.inr rfl)).trans hdirHeader)
    hfreeMap hdir₄ hempty, fun i => ?_, by rw [hfreeMap, hlaid.clear]⟩⟩
  · rw [format, run_lift_bind (BitMap.mark_ok _ h0), run_lift_bind (BitMap.mark_ok _ h1)]
    have hm : ((BitMap.new numSectors (junk 0)).setBit (Int.toNat (freeMapSector : Nat))).setBit
        (Int.toNat (directorySector : Nat)) = headersMarked (junk 0) := rfl
    have hmapFile : (OpenFile.new (freeMapSector : Nat)).run d₂ = .ok (fs.freeMapFile, d₂) := by
      rw [openFile_run h0, hmapHeader]
    have hdirFile : (OpenFile.new (directorySector : Nat)).run d₂ =
        .ok (fs.directoryFile, d₂) := by
      rw [openFile_run h1, hdirHeader]
    simp only [hm, ha, hsa, hb, hsb]
    rw [run_bind (assert_true d), run_bind (assert_true d),
      run_bind (FileHeader.writeBack_run a.hdr h0 d), hd₁,
      run_bind (FileHeader.writeBack_run b.hdr h1 d₁), hd₂, run_bind hmapFile, run_bind hdirFile,
      run_bind hrun₃, run_bind hrun₄, run_pure]
  · rw [directoryOn, hdir₄]
    exact hempty i

end FileSystem
end FileSys
end Nachos
