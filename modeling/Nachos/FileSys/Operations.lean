import Nachos.FileSys.Consistency

/-!
# The operations on a consistent disk

What `open`, `create` and `remove` return on a consistent disk, and what they
change.  `create` fails on exactly the conditions its comment lists, and then
leaves the disk alone.
-/

namespace Nachos
namespace FileSys
namespace FileSystem

open Lib

variable {fs : FileSystem} {d d' : Disk}

/-! ## Looking a name up -/

theorem fetch_directory (hc : Consistent fs d) (dir : Directory numDirEntries) :
    (dir.fetchFrom fs.directoryFile).run d = .ok (fs.directoryOn d, d) :=
  Directory.fetchFrom_run hc.files.dirValid hc.files.dirLength dir d

theorem fetch_freeMap (hc : Consistent fs d) (m : BitMap numSectors) :
    (m.fetchFrom fs.freeMapFile).run d = .ok (fs.freeMapOn d, d) :=
  BitMap.fetchFrom_run hc.files.mapValid hc.files.mapLength m d

theorem find_of_none {name : Block} (h : (fs.directoryOn d).findIndex name = none) :
    (fs.directoryOn d).find name = -1 := by
  rw [Directory.find, h]

theorem find_of_some {name : Block} {i : Fin numDirEntries}
    (h : (fs.directoryOn d).findIndex name = some i) :
    (fs.directoryOn d).find name = ((fs.directoryOn d).table i).sector := by
  rw [Directory.find, h]

theorem find_onDisk (hc : Consistent fs d) {name : Block} {i : Fin numDirEntries}
    (h : (fs.directoryOn d).findIndex name = some i) : OnDisk ((fs.directoryOn d).find name) := by
  rw [find_of_some h]
  exact hc.sector_onDisk (Directory.findIndex_some h).1

theorem fetch_header {s : Int} (hs : OnDisk s) (d : Disk) :
    (FileHeader.fetchFrom s).run d = .ok (d.header s, d) := FileHeader.fetchFrom_run hs d

theorem openFile_run {s : Int} (hs : OnDisk s) (d : Disk) :
    (OpenFile.new s).run d = .ok (⟨d.header s, 0⟩, d) := by
  rw [OpenFile.new, run_bind (fetch_header hs d)]
  rfl

/-- `open` gives the header of the entry with that name, and changes nothing. -/
theorem open_run (hc : Consistent fs d) (junk : Junk) (name : CString) :
    (fs.open junk name).run d = .ok (((fs.directoryOn d).findIndex name.bytes).map fun i =>
      ⟨d.header ((fs.directoryOn d).table i).sector, 0⟩, d) := by
  rw [FileSystem.open, run_bind (fetch_directory hc _)]
  cases hfind : (fs.directoryOn d).findIndex name.bytes with
  | none =>
    simp only [find_of_none hfind]
    rfl
  | some i =>
    have honDisk := find_onDisk hc hfind
    rw [if_pos honDisk.1, run_bind (openFile_run honDisk d), find_of_some hfind]
    rfl

/-! ## Creating -/

/-- The conditions under which `create` succeeds. -/
structure CanCreate (fs : FileSystem) (d : Disk) (name : Block) (initialSize : Int) : Prop where
  absent : ∀ i, ((fs.directoryOn d).table i).inUse = true →
    ((fs.directoryOn d).table i).sameName name = false
  unused : ∃ i, ((fs.directoryOn d).table i).inUse = false
  room : 1 + max 0 (divRoundUp initialSize sectorSize) ≤ (fs.freeMapOn d).numClear

/-- What a successful `create` does to the disk: entry `i` names the new file,
whose header is in sector `s`, the first clear one, and whose data is in the
next clear ones. -/
structure Adds (fs : FileSystem) (d d' : Disk) (name : Block) (initialSize : Int)
    (i : Fin numDirEntries) (s : Nat) : Prop where
  unused : ((fs.directoryOn d).table i).inUse = false
  clear : (fs.freeMapOn d).clearBits.head? = some s
  directory : fs.directoryOn d' =
    (fs.directoryOn d).setEntry i (((fs.directoryOn d).table i).fill name s)
  length : (d'.header s).numBytes = initialSize
  sectors : divRoundUp initialSize sectorSize ≤ numDirect → (d'.header s).sectors =
    ((fs.freeMapOn d).clearBits.tail.take (divRoundUp initialSize sectorSize).toNat).map Int.ofNat
  valid : 0 ≤ initialSize → initialSize ≤ maxFileSize → (d'.header s).Valid
  freeMap : ∀ j, j < numSectors → (fs.freeMapOn d').bit j = ((fs.freeMapOn d).bit j ||
    decide (j ∈ (fs.freeMapOn d).clearBits.take
      (1 + (divRoundUp initialSize sectorSize).toNat)))
  frame : ∀ t, t ∉ fs.freeMapFile.hdr.sectors → t ∉ fs.directoryFile.hdr.sectors → t ≠ s →
    d'.sector t = d.sector t

/-- The name is absent and a header sector and an entry are there: what is left
of `create` is the allocation of the data. -/
theorem create_run (hc : Consistent fs d) (junk : Junk) {name : CString} (initialSize : Int)
    {s : Nat} {rest : List Nat} {i : Fin numDirEntries}
    (hnone : (fs.directoryOn d).findIndex name.bytes = none)
    (hclear : (fs.freeMapOn d).clearBits = s :: rest)
    (hi : (fs.directoryOn d).firstUnused = some i) :
    (fs.create junk name initialSize).run d =
      (let allocation := (FileHeader.ofBlock (junk 2)).allocate ((fs.freeMapOn d).setBit s)
        initialSize
      if allocation.success = false then pure ⟨false, allocation.written⟩
      else do
        allocation.hdr.writeBack s
        ((fs.directoryOn d).setEntry i
          (((fs.directoryOn d).table i).fill name.bytes s)).writeBack (junk 3) fs.directoryFile
        allocation.freeMap.writeBack (junk 4) fs.freeMapFile
        pure ⟨true, allocation.written⟩ : SynchDisk Created).run d := by
  have hs : (s : Int) ≠ -1 := by omega
  have hadd : (fs.directoryOn d).add name.bytes s =
      (true, (fs.directoryOn d).setEntry i (((fs.directoryOn d).table i).fill name.bytes s)) := by
    rw [Directory.add, hnone, hi]
    rfl
  rw [create, run_bind (fetch_directory hc _), if_neg (not_not.mpr (find_of_none hnone)),
    run_bind (fetch_freeMap hc _)]
  simp only [BitMap.find_of_cons hclear, if_neg hs, hadd, Bool.true_eq_false, if_false]

theorem create_of_can (hc : Consistent fs d) (junk : Junk) {name : CString} {initialSize : Int}
    (hfit : LittleEndian.Fits initialSize) (hcan : CanCreate fs d name.bytes initialSize) :
    ∃ d' i s, (fs.create junk name initialSize).run d =
        .ok (⟨true, List.range (divRoundUp initialSize sectorSize).toNat⟩, d') ∧
      Adds fs d d' name.bytes initialSize i s := by
  have hnone := Directory.findIndex_eq_none_iff.mpr hcan.absent
  have hroom := hcan.room
  rw [BitMap.numClear_eq] at hroom
  obtain ⟨s, rest, hclear⟩ : ∃ s rest, (fs.freeMapOn d).clearBits = s :: rest := by
    cases h : (fs.freeMapOn d).clearBits with
    | nil => rw [h, List.length_nil] at hroom; omega
    | cons s rest => exact ⟨s, rest, rfl⟩
  obtain ⟨i, hi⟩ : ∃ i, (fs.directoryOn d).firstUnused = some i := by
    cases h : (fs.directoryOn d).firstUnused with
    | none =>
      obtain ⟨j, hj⟩ := hcan.unused
      rw [Directory.firstUnused_eq_none_iff.mp h j] at hj
      exact absurd hj.symm Bool.false_ne_true
    | some i => exact ⟨i, rfl⟩
  have hs : s ∈ (fs.freeMapOn d).clearBits := by rw [hclear]; exact List.mem_cons_self
  have hslt := (BitMap.mem_clearBits.mp hs).1
  have hsDisk : OnDisk (s : Int) := ⟨Int.natCast_nonneg s, Int.ofNat_lt.mpr hslt⟩
  have hsSystem : ((s : Int)) ∉ fs.systemSectors := hc.not_owned_of_clear hs none
  rw [mem_systemSectors] at hsSystem
  simp only [not_or] at hsSystem
  -- the map `Allocate` gets has the header's sector marked
  have hrest : ((fs.freeMapOn d).setBit s).clearBits = rest := BitMap.clearBits_setBit hclear
  have hle : divRoundUp initialSize sectorSize ≤ ((fs.freeMapOn d).setBit s).numClear := by
    rw [BitMap.numClear_eq, hrest]
    rw [hclear, List.length_cons] at hroom
    omega
  have ht := FileHeader.allocate_takes (h := FileHeader.ofBlock (junk 2)) hle
  have hfits := FileHeader.allocate_fits (FileHeader.fits_ofBlock (junk 2)) hfit hle
  have hvalid := fun (h₀ : 0 ≤ initialSize) h₁ =>
    FileHeader.allocate_valid (h := FileHeader.ofBlock (junk 2)) h₀ h₁ hle
  have hsectors := fun h => FileHeader.allocate_sectors (h := FileHeader.ofBlock (junk 2)) hle h
  have hwritten := FileHeader.allocate_written (h := FileHeader.ofBlock (junk 2)) hle
  rw [create_run hc junk initialSize hnone hclear hi]
  generalize (FileHeader.ofBlock (junk 2)).allocate ((fs.freeMapOn d).setBit s) initialSize = a
    at ht hfits hvalid hsectors hwritten ⊢
  have hdirFits : ((fs.directoryOn d).setEntry i
      (((fs.directoryOn d).table i).fill name.bytes s)).Fits :=
    (Directory.fits_ofBlock _ _).setEntry ⟨by simp only [DirectoryEntry.fill]; omega, by
      simp only [DirectoryEntry.fill, numSectors, sectorsPerTrack, numTracks] at hslt ⊢; omega⟩
  -- the three writes, one after the other
  generalize hd₁ : d.store s (Sector.ofBlock a.hdr.toBlock) = d₁
  have hframe₁ : ∀ t : Int, t ≠ s → d₁.sector t = d.sector t := fun t ht => by
    rw [← hd₁, Disk.sector_store_of_ne ht]
  obtain ⟨d₂, hrun₂, hframe₂, hdir₂⟩ :=
    Directory.writeBack_run hc.files.dirValid hc.files.dirLength hdirFits (junk 3) d₁
  obtain ⟨d₃, hrun₃, hframe₃, hmap₃⟩ :=
    BitMap.writeBack_run hc.files.mapValid hc.files.mapLength a.freeMap (junk 4) d₂
  have hframe : ∀ t, t ∉ fs.freeMapFile.hdr.sectors → t ∉ fs.directoryFile.hdr.sectors → t ≠ s →
      d₃.sector t = d.sector t := fun t hm hd hne => by
    rw [hframe₃ t hm, hframe₂ t hd, hframe₁ t hne]
  have hheader : d₃.header s = a.hdr := by
    rw [Disk.header, hframe₃ _ hsSystem.2.2.1, hframe₂ _ hsSystem.2.2.2, ← hd₁]
    exact header_store hfits hsDisk
  refine ⟨d₃, i, s, ?_, Directory.firstUnused_some hi, by rw [hclear]; rfl,
    (directoryOn_of_frame hc.files hframe₃).trans hdir₂, by rw [hheader, ht.numBytes],
    fun hdirect => ?_, fun h₀ h₁ => by rw [hheader]; exact hvalid h₀ h₁, fun j hj => ?_, hframe⟩
  · simp only [ht.success, Bool.true_eq_false, if_false]
    rw [run_bind (FileHeader.writeBack_run _ hsDisk d), hd₁, run_bind hrun₂, run_bind hrun₃,
      hwritten, run_pure]
  · rw [hheader, hsectors hdirect, FileHeader.fresh, hrest, hclear]
    rfl
  · rw [freeMapOn, hmap₃, ht.bit j hj, BitMap.bit_setBit _ hj, hrest, hclear, Bool.or_assoc,
      Nat.add_comm, List.take_succ_cons]
    simp only [List.mem_cons, Bool.decide_or]

theorem create_of_not (hc : Consistent fs d) (junk : Junk) {name : CString} {initialSize : Int}
    (hnot : ¬ CanCreate fs d name.bytes initialSize) :
    (fs.create junk name initialSize).run d = .ok (⟨false, []⟩, d) := by
  cases hfind : (fs.directoryOn d).findIndex name.bytes with
  | some i =>
    have hpresent := (find_onDisk hc hfind).1
    rw [create, run_bind (fetch_directory hc _), if_pos (by omega), run_pure]
  | none =>
    have habsent := Directory.findIndex_eq_none_iff.mp hfind
    cases hclear : (fs.freeMapOn d).clearBits with
    | nil =>
      rw [create, run_bind (fetch_directory hc _), if_neg (not_not.mpr (find_of_none hfind)),
        run_bind (fetch_freeMap hc _)]
      simp only [BitMap.find_of_nil hclear, if_true]
      rfl
    | cons s rest =>
      cases hi : (fs.directoryOn d).firstUnused with
      | none =>
        have hs : (s : Int) ≠ -1 := by omega
        have hadd : (fs.directoryOn d).add name.bytes s = (false, fs.directoryOn d) := by
          rw [Directory.add, hfind, hi]
          rfl
        rw [create, run_bind (fetch_directory hc _), if_neg (not_not.mpr (find_of_none hfind)),
          run_bind (fetch_freeMap hc _)]
        simp only [BitMap.find_of_cons hclear, if_neg hs, hadd, if_true]
        rfl
      | some i =>
        have hunused : ∃ j, ((fs.directoryOn d).table j).inUse = false :=
          ⟨i, Directory.firstUnused_some hi⟩
        have hfew : ((fs.freeMapOn d).setBit s).numClear < divRoundUp initialSize sectorSize := by
          refine Int.lt_of_not_ge fun hroom => hnot ⟨habsent, hunused, ?_⟩
          rw [BitMap.numClear_eq, BitMap.clearBits_setBit hclear] at hroom
          rw [BitMap.numClear_eq, hclear, List.length_cons]
          omega
        obtain ⟨hfail, hwritten⟩ :=
          FileHeader.allocate_of_lt (h := FileHeader.ofBlock (junk 2)) hfew
        rw [create_run hc junk initialSize hfind hclear hi]
        simp only [hfail, if_true, hwritten]
        rfl

section Adds

variable {name : Block} {initialSize : Int} {i : Fin numDirEntries} {s : Nat}

theorem Adds.mem_clear (ha : Adds fs d d' name initialSize i s) :
    s ∈ (fs.freeMapOn d).clearBits := List.mem_of_mem_head? ha.clear

theorem Adds.table_self (ha : Adds fs d d' name initialSize i s) :
    (fs.directoryOn d').table i = ((fs.directoryOn d).table i).fill name s := by
  rw [ha.directory]
  exact if_pos rfl

theorem Adds.table_other (ha : Adds fs d d' name initialSize i s) {j : Fin numDirEntries}
    (hj : j ≠ i) : (fs.directoryOn d').table j = (fs.directoryOn d).table j := by
  rw [ha.directory]
  exact if_neg hj

/-- Sectors that some owner other than the system holds are as they were. -/
theorem Adds.frame_owned (hc : Consistent fs d) (ha : Adds fs d d' name initialSize i s)
    {j : Fin numDirEntries} {t : Int} (ht : t ∈ fs.owned d (some j)) :
    d'.sector t = d.sector t := by
  have hsystem := hc.not_system ht
  rw [mem_systemSectors] at hsystem
  simp only [not_or] at hsystem
  exact ha.frame t hsystem.2.2.1 hsystem.2.2.2 fun he =>
    hc.not_owned_of_clear ha.mem_clear (some j) (he ▸ ht)

theorem Adds.owned_other (hc : Consistent fs d) (ha : Adds fs d d' name initialSize i s)
    {k : Owner} (hk : k ≠ some i) : fs.owned d' k = fs.owned d k := by
  cases k with
  | none => rfl
  | some j =>
    have hj : j ≠ i := fun e => hk (by rw [e])
    rw [owned, owned, ha.table_other hj]
    exact DirectoryEntry.sectors_congr fun hu => ha.frame_owned hc (Consistent.sector_mem hu)

/-- The new file owns the first clear sectors. -/
theorem Adds.sectors_self (ha : Adds fs d d' name initialSize i s)
    (hdirect : divRoundUp initialSize sectorSize ≤ numDirect) :
    ((fs.directoryOn d').table i).sectors d' = ((fs.freeMapOn d).clearBits.take
      (1 + (divRoundUp initialSize sectorSize).toNat)).map Int.ofNat := by
  obtain ⟨rest, hclear⟩ := List.head?_eq_some_iff.mp ha.clear
  have hsectors := ha.sectors hdirect
  rw [hclear, List.tail_cons] at hsectors
  rw [ha.table_self, hclear, Nat.add_comm, List.take_succ_cons, List.map_cons, ← hsectors]
  rfl

/-- The marked sectors are the old ones and the ones just taken. -/
theorem Adds.marked (ha : Adds fs d d' name initialSize i s) (a : Int) :
    fs.Marked d' a ↔ fs.Marked d a ∨ a ∈ ((fs.freeMapOn d).clearBits.take
      (1 + (divRoundUp initialSize sectorSize).toNat)).map Int.ofNat := by
  have hmem : a ∈ ((fs.freeMapOn d).clearBits.take
      (1 + (divRoundUp initialSize sectorSize).toNat)).map Int.ofNat ↔ OnDisk a ∧
      a.toNat ∈ (fs.freeMapOn d).clearBits.take
        (1 + (divRoundUp initialSize sectorSize).toNat) := by
    rw [List.mem_map]
    constructor
    · rintro ⟨t, ht, rfl⟩
      have hlt := (BitMap.mem_clearBits.mp (List.mem_of_mem_take ht)).1
      exact ⟨⟨Int.natCast_nonneg t, Int.ofNat_lt.mpr hlt⟩, ht⟩
    · rintro ⟨⟨hnonneg, _⟩, ht⟩
      exact ⟨a.toNat, ht, Int.toNat_of_nonneg hnonneg⟩
  rw [hmem, Marked, Marked, ← and_or_left]
  refine and_congr_right fun hdisk => ?_
  rw [ha.freeMap a.toNat ((Int.toNat_lt hdisk.1).mpr hdisk.2), Bool.or_eq_true, decide_eq_true_iff]

/-- A file of legal size keeps the disk consistent. -/
theorem Adds.consistent (hc : Consistent fs d) (ha : Adds fs d d' name initialSize i s)
    (habsent : ∀ j, ((fs.directoryOn d).table j).inUse = true →
      ((fs.directoryOn d).table j).sameName name = false)
    (hnonneg : 0 ≤ initialSize) (hmax : initialSize ≤ maxFileSize) : Consistent fs d' := by
  have hdirect := FileHeader.divRoundUp_le_numDirect hnonneg hmax
  have hclear := hc.not_owned_of_clear ha.mem_clear
  refine hc.update i (fun t ht => ?_) (fun j hj => ha.table_other hj) (fun j _ hu => ?_)
    (fun _ => ?_) (fun _ j _ hu => ?_) ?_
  · have hwell := hc.files.wellKnown ht
    refine ha.frame t hwell.1 hwell.2 fun he => hclear none ?_
    rw [← he]
    exact mem_systemSectors.mpr (by tauto)
  · exact ha.frame_owned hc (Consistent.sector_mem hu)
  · rw [ha.table_self]
    exact ha.valid hnonneg hmax
  · rw [ha.table_self, DirectoryEntry.sameName_fill]
    have hne := habsent j hu
    rw [DirectoryEntry.sameName] at hne
    exact Bool.eq_false_iff.mpr fun he => by
      rw [strncmpEq_symm he] at hne
      exact Bool.false_ne_true hne.symm
  · have hempty : fs.owned d (some i) = [] := by
      rw [owned, DirectoryEntry.sectors, if_neg (by rw [ha.unused]; exact Bool.false_ne_true)]
    rw [ha.sectors_self hdirect]
    refine (hc.ownership.grant hempty ?_ fun a hm => ?_).congr (fun _ => rfl) fun a => ha.marked a
    · exact ((fs.freeMapOn d).nodup_clearBits.sublist (List.take_sublist _ _)).map
        fun _ _ => Int.ofNat.inj
    · obtain ⟨t, ht, rfl⟩ := List.mem_map.mp hm
      have hbit := (BitMap.mem_clearBits.mp (List.mem_of_mem_take ht)).2
      exact fun hmarked => Bool.false_ne_true (hbit.symm.trans hmarked.2)

end Adds

/-! ## Removing -/

/-- What a successful `remove` does to the disk: entry `i` is free again, and
the sectors it owned are clear. -/
structure Removes (fs : FileSystem) (d d' : Disk) (name : Block) (i : Fin numDirEntries) :
    Prop where
  found : (fs.directoryOn d).findIndex name = some i
  directory : fs.directoryOn d' =
    (fs.directoryOn d).setEntry i ((fs.directoryOn d).table i).free
  freeMap : ∀ j, j < numSectors → (fs.freeMapOn d').bit j = ((fs.freeMapOn d).bit j &&
    !decide ((j : Int) ∈ fs.owned d (some i)))
  frame : ∀ t, t ∉ fs.freeMapFile.hdr.sectors → t ∉ fs.directoryFile.hdr.sectors →
    d'.sector t = d.sector t

theorem remove_of_none (hc : Consistent fs d) (junk : Junk) {name : CString}
    (hnone : (fs.directoryOn d).findIndex name.bytes = none) :
    (fs.remove junk name).run d = .ok (false, d) := by
  rw [remove, run_bind (fetch_directory hc _), if_pos (find_of_none hnone), run_pure]

theorem remove_of_some (hc : Consistent fs d) (junk : Junk) {name : CString}
    {i : Fin numDirEntries} (hfind : (fs.directoryOn d).findIndex name.bytes = some i) :
    ∃ d', (fs.remove junk name).run d = .ok (true, d') ∧ Removes fs d d' name.bytes i := by
  have hu := (Directory.findIndex_some hfind).1
  have hsDisk := hc.sector_onDisk hu
  have hsMem := Consistent.sector_mem hu
  have hnodup := hc.ownership.nodup (some i)
  rw [owned, DirectoryEntry.sectors, if_pos hu, List.nodup_cons] at hnodup
  have hneg : (fs.directoryOn d).find name.bytes ≠ -1 := by
    rw [find_of_some hfind]
    have := hsDisk.1
    omega
  have hmarked : ∀ t ∈ (d.header ((fs.directoryOn d).table i).sector).sectors,
      (fs.freeMapOn d).bit t.toNat = true :=
    fun t ht => (hc.ownership.marked_of_mem (Consistent.data_mem hu ht)).2
  obtain ⟨m, hm, hbits⟩ := FileHeader.deallocate_ok (hc.fileValid i hu) hmarked
  have hremove : ((fs.directoryOn d).remove name.bytes).2 =
      (fs.directoryOn d).setEntry i ((fs.directoryOn d).table i).free := by
    rw [Directory.remove, hfind]
  have hdirFits : ((fs.directoryOn d).setEntry i ((fs.directoryOn d).table i).free).Fits :=
    (Directory.fits_ofBlock _ _).setEntry (Directory.fits_ofBlock _ _ i)
  obtain ⟨d₁, hrun₁, hframe₁, hmap₁⟩ := BitMap.writeBack_run hc.files.mapValid hc.files.mapLength
    (m.clearBit ((fs.directoryOn d).table i).sector.toNat) (junk 2) d
  obtain ⟨d₂, hrun₂, hframe₂, hdir₂⟩ :=
    Directory.writeBack_run hc.files.dirValid hc.files.dirLength hdirFits (junk 3) d₁
  refine ⟨d₂, ?_, hfind, hdir₂, fun j hj => ?_, fun t hmap hdir => ?_⟩
  · rw [remove, run_bind (fetch_directory hc _), if_neg hneg, find_of_some hfind, hremove,
      run_bind (fetch_header hsDisk d), run_bind (fetch_freeMap hc _),
      run_lift_bind hm, run_lift_bind (BitMap.clear_ok m hsDisk), run_bind hrun₁, run_bind hrun₂,
      run_pure]
  · have hsector : decide (j = ((fs.directoryOn d).table i).sector.toNat) =
        decide ((j : Int) = ((fs.directoryOn d).table i).sector) := by
      have := hsDisk.1
      exact decide_eq_decide.mpr (by omega)
    rw [freeMapOn_of_frame hc.files hframe₂, freeMapOn, hmap₁, BitMap.bit_clearBit m hj,
      hbits j hj, owned, DirectoryEntry.sectors, if_pos hu, hsector, Bool.and_assoc]
    simp only [List.mem_cons, Bool.decide_or, Bool.not_or, Bool.and_comm]
  · rw [hframe₂ t hdir, hframe₁ t hmap]

section Removes

variable {name : Block} {i : Fin numDirEntries}

theorem Removes.table_self (hr : Removes fs d d' name i) :
    (fs.directoryOn d').table i = ((fs.directoryOn d).table i).free := by
  rw [hr.directory]
  exact if_pos rfl

theorem Removes.table_other (hr : Removes fs d d' name i) {j : Fin numDirEntries} (hj : j ≠ i) :
    (fs.directoryOn d').table j = (fs.directoryOn d).table j := by
  rw [hr.directory]
  exact if_neg hj

theorem Removes.frame_owned (hc : Consistent fs d) (hr : Removes fs d d' name i)
    {j : Fin numDirEntries} {t : Int} (ht : t ∈ fs.owned d (some j)) :
    d'.sector t = d.sector t := by
  have hsystem := hc.not_system ht
  rw [mem_systemSectors] at hsystem
  simp only [not_or] at hsystem
  exact hr.frame t hsystem.2.2.1 hsystem.2.2.2

theorem Removes.owned_self (hr : Removes fs d d' name i) : fs.owned d' (some i) = [] := by
  rw [owned, hr.table_self, DirectoryEntry.sectors]
  exact if_neg Bool.false_ne_true

theorem Removes.owned_other (hc : Consistent fs d) (hr : Removes fs d d' name i) {k : Owner}
    (hk : k ≠ some i) : fs.owned d' k = fs.owned d k := by
  cases k with
  | none => rfl
  | some j =>
    have hj : j ≠ i := fun e => hk (by rw [e])
    rw [owned, owned, hr.table_other hj]
    exact DirectoryEntry.sectors_congr fun hu => hr.frame_owned hc (Consistent.sector_mem hu)

theorem Removes.consistent (hc : Consistent fs d) (hr : Removes fs d d' name i) :
    Consistent fs d' := by
  have hfree : ((fs.directoryOn d').table i).inUse ≠ true := by
    rw [hr.table_self]
    exact Bool.false_ne_true
  refine hc.update i (fun t ht => ?_) (fun j hj => hr.table_other hj)
    (fun j _ hu => hr.frame_owned hc (Consistent.sector_mem hu)) (fun hu => absurd hu hfree)
    (fun hu => absurd hu hfree) ?_
  · have hwell := hc.files.wellKnown ht
    exact hr.frame t hwell.1 hwell.2
  · rw [DirectoryEntry.sectors, if_neg hfree]
    refine (hc.ownership.release (some i)).congr (fun _ => rfl) fun a => ?_
    rw [Marked, Marked, and_assoc]
    refine and_congr_right fun hdisk => ?_
    rw [hr.freeMap a.toNat ((Int.toNat_lt hdisk.1).mpr hdisk.2), Int.toNat_of_nonneg hdisk.1,
      Bool.and_eq_true, Bool.not_eq_true', decide_eq_false_iff_not]

end Removes

end FileSystem
end FileSys
end Nachos
