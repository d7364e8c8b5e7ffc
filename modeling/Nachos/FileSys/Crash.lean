import Nachos.FileSys.Accesses
import Nachos.FileSys.Isolation

/-!
# Stopped half way

What a disk is like when the machine stops between two sector writes of
`create` or of `remove`.  `create` writes the directory before the free map, so
that an entry can be there whose sectors are not marked, and `remove` writes the
free map first, so that sectors can be clear whose entry is still there.  The
directory file has two sectors, and entry 6 lies in both.
-/

namespace Nachos
namespace FileSys

open Lib FileSystem

/-! ## Between two disks -/

/-- One entry of a directory of which the first `m` sectors are written. -/
def tornEntry (m : Nat) (old new : DirectoryEntry) (i : Fin numDirEntries) : DirectoryEntry :=
  if m = 0 then old
  else if 2 ≤ m ∨ (i : Nat) ≤ 5 then new
  else if (i : Nat) = 6 then { new with name := old.name, tail := old.tail }
  else old

theorem tornEntry_self (m : Nat) (e : DirectoryEntry) (i : Fin numDirEntries) :
    tornEntry m e e i = e := by
  rw [tornEntry]
  split
  · rfl
  · split
    · rfl
    · split <;> rfl

namespace FileSystem

/-- The sectors of `dn` are as in `d'` for the first `n` of `l`, and as in `d` for the rest. -/
def Between (l : List Int) (d d' : Disk) (n : Nat) (dn : Disk) : Prop :=
  ∀ s, OnDisk s → dn.sector s = if s ∈ l.take n then d'.sector s else d.sector s

theorem mem_take_iff {l : List Int} (h : l.Nodup) (n : Nat) {j : Nat} {s : Int}
    (hj : l[j]? = some s) : s ∈ l.take n ↔ j < n := by
  obtain ⟨hlt, rfl⟩ := List.getElem?_eq_some_iff.mp hj
  constructor
  · intro hmem
    obtain ⟨i, hi, he⟩ := List.mem_iff_getElem.mp hmem
    rw [List.length_take] at hi
    rw [List.getElem_take] at he
    have := h.getElem_inj_iff.mp he
    omega
  · intro hn
    exact List.mem_iff_getElem.mpr ⟨j, by rw [List.length_take]; omega, List.getElem_take⟩

variable {fs : FileSystem} {d d' dn : Disk}

theorem SystemFiles.dir_numSectors (hf : fs.SystemFiles) :
    fs.directoryFile.hdr.numSectors = 2 := by
  rw [hf.dirValid.count, hf.dirLength]
  decide

theorem SystemFiles.dir_sectors (hf : fs.SystemFiles) : fs.directoryFile.hdr.sectors =
    [fs.directoryFile.hdr.sectorNo 0, fs.directoryFile.hdr.sectorNo 1] := by
  rw [FileHeader.sectors, hf.dir_numSectors]
  rfl

theorem SystemFiles.map_sectors (hf : fs.SystemFiles) :
    fs.freeMapFile.hdr.sectors = [fs.freeMapFile.hdr.sectorNo 0] := by
  have hcount : fs.freeMapFile.hdr.numSectors = 1 := by
    rw [hf.mapValid.count, hf.mapLength]
    decide
  rw [FileHeader.sectors, hcount]
  rfl

/-- The directory when `m` of its two sectors are those of `d'`. -/
theorem directoryOn_torn {m : Nat} (h : ∀ j, j < 2 →
      dn.sector (fs.directoryFile.hdr.sectorNo j) = if j < m
        then d'.sector (fs.directoryFile.hdr.sectorNo j)
        else d.sector (fs.directoryFile.hdr.sectorNo j)) (i : Fin numDirEntries) :
    (fs.directoryOn dn).table i =
      tornEntry m ((fs.directoryOn d).table i) ((fs.directoryOn d').table i) i := by
  have hi : (i : Nat) < 10 := i.isLt
  have hbyte : ∀ k, k < 256 → fileByte dn fs.directoryFile.hdr k =
      if k / 128 < m then fileByte d' fs.directoryFile.hdr k
      else fileByte d fs.directoryFile.hdr k := by
    intro k hk
    rw [fileByte, fileByte, fileByte, h (k / sectorSize) (by simp only [sectorSize]; omega)]
    split <;> rfl
  have hnew : (∀ k, k < 20 → (20 * (i : Nat) + k) / 128 < m) →
      (fs.directoryOn dn).table i = (fs.directoryOn d').table i := fun hm =>
    DirectoryEntry.ofBlock_congr fun k hk => by
      simp only [Block.from, sizeofDirectoryEntry] at hk ⊢
      rw [hbyte _ (by omega), if_pos (hm k hk)]
  have hold : (∀ k, k < 20 → ¬ (20 * (i : Nat) + k) / 128 < m) →
      (fs.directoryOn dn).table i = (fs.directoryOn d).table i := fun hm =>
    DirectoryEntry.ofBlock_congr fun k hk => by
      simp only [Block.from, sizeofDirectoryEntry] at hk ⊢
      rw [hbyte _ (by omega), if_neg (hm k hk)]
  rw [tornEntry]
  by_cases hzero : m = 0
  · rw [if_pos hzero]
    exact hold fun k _ => by omega
  · rw [if_neg hzero]
    by_cases hlow : 2 ≤ m ∨ (i : Nat) ≤ 5
    · rw [if_pos hlow]
      exact hnew fun k hk => by omega
    · rw [if_neg hlow]
      by_cases hsix : (i : Nat) = 6
      · -- `inUse` and `sector` lie in the first sector, and `name` in the second
        rw [if_pos hsix]
        have hfirst : ∀ k, k < 8 → fileByte dn fs.directoryFile.hdr (20 * i + k) =
            fileByte d' fs.directoryFile.hdr (20 * i + k) := fun k hk => by
          rw [hbyte _ (by omega), if_pos (by omega)]
        have hsecond : ∀ k, 8 ≤ k → k < 20 → fileByte dn fs.directoryFile.hdr (20 * i + k) =
            fileByte d fs.directoryFile.hdr (20 * i + k) := fun k hlo hk => by
          rw [hbyte _ (by omega), if_neg (by omega)]
        simp only [directoryOn, Directory.ofBlock, DirectoryEntry.ofBlock,
          DirectoryEntry.mk.injEq, Block.from, sizeofDirectoryEntry]
        refine ⟨by rw [hfirst 0 (by omega)], funext fun k => hfirst _ (by omega),
          Block.int_congr fun k hk => hfirst _ (by omega),
          funext fun k => hsecond _ (by omega) (by have : (k : Nat) < 10 := k.isLt; omega),
          funext fun k => hsecond _ (by omega) (by omega)⟩
      · rw [if_neg hsix]
        exact hold fun k hk => by omega

/-! ## What the directory and the free map decide -/

/-- A disk with the same directory, free map and headers is as consistent. -/
theorem Consistent.congr (hc : Consistent fs d)
    (hdir : fs.directoryOn d' = fs.directoryOn d) (hmap : fs.freeMapOn d' = fs.freeMapOn d)
    (hwell : ∀ s : Int, s = (freeMapSector : Int) ∨ s = (directorySector : Int) →
      d'.sector s = d.sector s)
    (hheader : ∀ i, ((fs.directoryOn d).table i).inUse = true →
      d'.sector ((fs.directoryOn d).table i).sector =
        d.sector ((fs.directoryOn d).table i).sector) : Consistent fs d' := by
  have howned : ∀ k, fs.owned d' k = fs.owned d k := by
    intro k
    cases k with
    | none => rfl
    | some i =>
      rw [owned, owned, hdir]
      exact DirectoryEntry.sectors_congr (hheader i)
  refine ⟨hc.files, ?_, ?_, fun i hu => ?_, hc.ownership.congr howned fun a => ?_, ?_⟩
  · rw [header_congr (hwell _ (Or.inl rfl)), hc.mapHeader]
  · rw [header_congr (hwell _ (Or.inr rfl)), hc.dirHeader]
  · rw [hdir] at hu ⊢
    rw [header_congr (hheader i hu)]
    exact hc.fileValid i hu
  · rw [Marked, Marked, hmap]
  · rw [hdir]
    exact hc.names

/-- An entry in use whose header is not marked. -/
theorem not_consistent_of_clear {i : Fin numDirEntries}
    (hu : ((fs.directoryOn d).table i).inUse = true)
    (hclear : ¬ fs.Marked d ((fs.directoryOn d).table i).sector) : ¬ Consistent fs d :=
  fun hc => hclear (hc.ownership.marked_of_mem (Consistent.sector_mem hu))

/-- How many of the directory's sectors a stop after `n` writes of `create` or of `remove`
has got to: one other sector is written before the first of them. -/
theorem Between.directory {l : List Int} {n k : Nat} (h : Between l d d' n dn)
    (hf : fs.SystemFiles) (hl : l.Nodup)
    (hat : ∀ j, j < 2 → l[j + k]? = some (fs.directoryFile.hdr.sectorNo j)) :
    ∀ j, j < 2 → dn.sector (fs.directoryFile.hdr.sectorNo j) = if j < n - k
      then d'.sector (fs.directoryFile.hdr.sectorNo j)
      else d.sector (fs.directoryFile.hdr.sectorNo j) := by
  intro j hj
  have hmem : fs.directoryFile.hdr.sectorNo j ∈ fs.directoryFile.hdr.sectors :=
    FileHeader.sectorNo_mem (by rw [hf.dir_numSectors]; omega)
  have hiff := mem_take_iff hl n (hat j hj)
  rw [h _ (hf.dirValid.onDisk _ hmem)]
  by_cases hn : j + k < n
  · rw [if_pos (hiff.mpr hn), if_pos (by omega)]
  · rw [if_neg (fun hm => hn (hiff.mp hm)), if_neg (by omega)]

theorem Between.freeMap {l : List Int} {n k : Nat} (h : Between l d d' n dn)
    (hf : fs.SystemFiles) (hl : l.Nodup)
    (hat : l[k]? = some (fs.freeMapFile.hdr.sectorNo 0)) :
    fs.freeMapOn dn = if k < n then fs.freeMapOn d' else fs.freeMapOn d := by
  have hiff := mem_take_iff hl n hat
  by_cases hn : k < n
  · rw [if_pos hn]
    refine freeMapOn_congr hf fun s hs => ?_
    rw [hf.map_sectors, List.mem_singleton] at hs
    subst hs
    rw [h _ (hf.mapValid.onDisk _ (by rw [hf.map_sectors]; exact List.mem_singleton_self _)),
      if_pos (hiff.mpr hn)]
  · rw [if_neg hn]
    refine freeMapOn_congr hf fun s hs => ?_
    rw [hf.map_sectors, List.mem_singleton] at hs
    subst hs
    rw [h _ (hf.mapValid.onDisk _ (by rw [hf.map_sectors]; exact List.mem_singleton_self _)),
      if_neg (fun hm => hn (hiff.mp hm))]

/-- Sectors with an owner other than the system lie outside the system files. -/
theorem Consistent.outside (hc : Consistent fs d) {j : Fin numDirEntries} {t : Int}
    (ht : t ∈ fs.owned d (some j)) :
    t ∉ fs.freeMapFile.hdr.sectors ∧ t ∉ fs.directoryFile.hdr.sectors := by
  have hsystem := hc.not_system ht
  rw [mem_systemSectors, not_or, not_or, not_or] at hsystem
  exact ⟨hsystem.2.2.1, hsystem.2.2.2⟩

/-! ## `create` -/

section Create

variable {name : CString} {initialSize : Int} {i : Fin numDirEntries} {s : Nat}

/-- The sectors that `create` writes, in order. -/
def createSectors (fs : FileSystem) (s : Nat) : List Int :=
  [(s : Int), fs.directoryFile.hdr.sectorNo 0, fs.directoryFile.hdr.sectorNo 1,
    fs.freeMapFile.hdr.sectorNo 0]

theorem createSectors_eq (hf : fs.SystemFiles) (s : Nat) : createSectors fs s =
    (s : Int) :: (fs.directoryFile.hdr.sectors ++ fs.freeMapFile.hdr.sectors) := by
  rw [hf.dir_sectors, hf.map_sectors]
  rfl

theorem createSectors_nodup (hc : Consistent fs d) (hs : s ∈ (fs.freeMapOn d).clearBits) :
    (createSectors fs s).Nodup := by
  have hsystem := hc.not_owned_of_clear hs none
  have hfiles := (List.nodup_cons.mp (List.nodup_cons.mp hc.files.nodup).2).2
  rw [createSectors_eq hc.files, List.nodup_cons]
  refine ⟨fun hm => hsystem (mem_systemSectors.mpr (Or.inr (Or.inr ?_))), ?_⟩
  · exact (List.mem_append.mp hm).symm
  · exact List.nodup_append_comm.mp hfiles

theorem create_program (hc : Consistent fs d) {junk : Junk}
    (hrun : (fs.create junk name initialSize).run d =
      .ok (⟨true, List.range (divRoundUp initialSize sectorSize).toNat⟩, d'))
    (ha : Adds fs d d' name.bytes initialSize i s) :
    (SectorProgram.FileSystem.create fs junk name initialSize).run d =
        .ok (⟨true, List.range (divRoundUp initialSize sectorSize).toNat⟩, d') ∧
      SectorProgram.sectorsWritten (SectorProgram.FileSystem.create fs junk name initialSize) d =
        createSectors fs s := by
  have hrun' : (SectorProgram.FileSystem.create fs junk name initialSize).run d =
      .ok (⟨true, List.range (divRoundUp initialSize sectorSize).toNat⟩, d') := by
    rw [SectorProgram.run_create]
    exact hrun
  obtain ⟨s', hs', hwritten⟩ := SectorProgram.sectorsWritten_create hc hrun' rfl
  obtain rfl : s = s' := Option.some.inj (ha.clear.symm.trans hs')
  exact ⟨hrun', hwritten.trans (createSectors_eq hc.files s).symm⟩

/-- After four writes nothing is left to write. -/
theorem create_finished (hc : Consistent fs d) {junk : Junk}
    (hrun : (fs.create junk name initialSize).run d =
      .ok (⟨true, List.range (divRoundUp initialSize sectorSize).toNat⟩, d'))
    (ha : Adds fs d d' name.bytes initialSize i s) {n : Nat} (hn : 4 ≤ n) :
    (SectorProgram.FileSystem.create fs junk name initialSize).stopped d n = d' := by
  obtain ⟨hrun', hwritten⟩ := create_program hc hrun ha
  exact SectorProgram.stopped_of_length hrun' (by rw [hwritten]; exact hn)

theorem create_between (hc : Consistent fs d) {junk : Junk}
    (hrun : (fs.create junk name initialSize).run d =
      .ok (⟨true, List.range (divRoundUp initialSize sectorSize).toNat⟩, d'))
    (ha : Adds fs d d' name.bytes initialSize i s) (n : Nat) :
    Between (createSectors fs s) d d' n
      ((SectorProgram.FileSystem.create fs junk name initialSize).stopped d n) := by
  obtain ⟨hrun', hwritten⟩ := create_program hc hrun ha
  have hnodup := createSectors_nodup hc ha.mem_clear
  rw [← hwritten] at hnodup ⊢
  exact fun t ht => SectorProgram.sector_stopped hrun' hnodup n ht

/-- After `n` writes the directory has the new entry, has part of it, or is the old one. -/
theorem create_directory (hc : Consistent fs d) (ha : Adds fs d d' name.bytes initialSize i s)
    {n : Nat} (h : Between (createSectors fs s) d d' n dn) (j : Fin numDirEntries) :
    (fs.directoryOn dn).table j = if j = i
      then tornEntry (n - 1) ((fs.directoryOn d).table i) ((fs.directoryOn d').table i) i
      else (fs.directoryOn d).table j := by
  rw [directoryOn_torn (h.directory (k := 1) hc.files (createSectors_nodup hc ha.mem_clear)
    fun | 0, _ => rfl | 1, _ => rfl) j]
  by_cases hj : j = i
  · subst hj
    rw [if_pos rfl]
  · rw [if_neg hj, ha.table_other hj, tornEntry_self]

theorem create_freeMap (hc : Consistent fs d) (ha : Adds fs d d' name.bytes initialSize i s)
    {n : Nat} (h : Between (createSectors fs s) d d' n dn) :
    fs.freeMapOn dn = if 3 < n then fs.freeMapOn d' else fs.freeMapOn d :=
  h.freeMap hc.files (createSectors_nodup hc ha.mem_clear) rfl

/-- Other files' sectors are none of those that `create` writes. -/
theorem create_frame (hc : Consistent fs d) {n : Nat}
    (h : Between (createSectors fs s) d d' n dn) {t : Int} (ht : OnDisk t)
    (hne : t ≠ s) (hmap : t ∉ fs.freeMapFile.hdr.sectors)
    (hdir : t ∉ fs.directoryFile.hdr.sectors) : dn.sector t = d.sector t := by
  rw [h t ht, if_neg]
  intro hmem
  have hall := List.mem_of_mem_take hmem
  rw [createSectors_eq hc.files, List.mem_cons, List.mem_append] at hall
  rcases hall with he | hm | hm
  · exact hne he
  · exact hdir hm
  · exact hmap hm

theorem create_wellKnown (hc : Consistent fs d) {n : Nat}
    (ha : Adds fs d d' name.bytes initialSize i s)
    (h : Between (createSectors fs s) d d' n dn) {t : Int}
    (ht : t = (freeMapSector : Int) ∨ t = (directorySector : Int)) :
    dn.sector t = d.sector t := by
  have hwell := hc.files.wellKnown ht
  refine create_frame hc h (by rcases ht with rfl | rfl <;> decide) (fun he => ?_) hwell.1 hwell.2
  refine hc.not_owned_of_clear ha.mem_clear none ?_
  rw [← he]
  exact mem_systemSectors.mpr (ht.imp id Or.inl)

/-- After one write, or after two when the entry is not in the directory's first sector,
nothing shows yet. -/
theorem create_early_directory (hc : Consistent fs d)
    (ha : Adds fs d d' name.bytes initialSize i s) {n : Nat}
    (h : Between (createSectors fs s) d d' n dn) (hn : n ≤ 1 ∨ n = 2 ∧ 6 < (i : Nat)) :
    fs.directoryOn dn = fs.directoryOn d := by
  have htable : (fs.directoryOn dn).table = (fs.directoryOn d).table := by
    funext j
    rw [create_directory hc ha h j]
    by_cases hj : j = i
    · subst hj
      rw [if_pos rfl, tornEntry]
      by_cases hzero : n - 1 = 0
      · rw [if_pos hzero]
      · rw [if_neg hzero, if_neg (by omega), if_neg (by omega)]
    · rw [if_neg hj]
  show Directory.mk _ = Directory.mk _
  exact congrArg _ htable

theorem create_early (hc : Consistent fs d) (ha : Adds fs d d' name.bytes initialSize i s)
    {n : Nat} (h : Between (createSectors fs s) d d' n dn)
    (hn : n ≤ 1 ∨ n = 2 ∧ 6 < (i : Nat)) : Consistent fs dn := by
  have hmap := create_freeMap hc ha h
  rw [if_neg (by omega)] at hmap
  have hclear := hc.not_owned_of_clear ha.mem_clear
  refine hc.congr (create_early_directory hc ha h hn) hmap
    (fun t ht => create_wellKnown hc ha h ht) fun j hu => ?_
  have hmem := Consistent.sector_mem hu
  exact create_frame hc h (hc.sector_onDisk hu) (fun he => hclear (some j) (he ▸ hmem))
    (hc.outside hmem).1 (hc.outside hmem).2

/-- The new entry is there and the map is the old one: the header is not marked. -/
theorem create_late (hc : Consistent fs d) (ha : Adds fs d d' name.bytes initialSize i s)
    {n : Nat} (h : Between (createSectors fs s) d d' n dn)
    (hn : n = 3 ∨ n = 2 ∧ (i : Nat) ≤ 6) : ¬ Consistent fs dn := by
  have hmap := create_freeMap hc ha h
  rw [if_neg (by omega)] at hmap
  have hentry := create_directory hc ha h i
  have hnew : ((fs.directoryOn dn).table i).inUse = true ∧
      ((fs.directoryOn dn).table i).sector = (s : Int) := by
    rw [hentry, if_pos rfl, ha.table_self, tornEntry, if_neg (by omega)]
    by_cases hlow : 2 ≤ n - 1 ∨ (i : Nat) ≤ 5
    · rw [if_pos hlow]
      exact ⟨rfl, rfl⟩
    · rw [if_neg hlow, if_pos (by omega)]
      exact ⟨rfl, rfl⟩
  refine not_consistent_of_clear hnew.1 fun hmarked => ?_
  rw [hnew.2, Marked, hmap, Int.toNat_natCast, (BitMap.mem_clearBits.mp ha.mem_clear).2] at hmarked
  exact Bool.false_ne_true hmarked.2

/-- A `create` that fails has not written. -/
theorem create_refused (hc : Consistent fs d) (junk : Junk) {name : CString} {initialSize : Int}
    (hnot : ¬ CanCreate fs d name.bytes initialSize) (n : Nat) :
    (SectorProgram.FileSystem.create fs junk name initialSize).stopped d n = d := by
  have hrun : (SectorProgram.FileSystem.create fs junk name initialSize).run d =
      .ok (⟨false, []⟩, d) := by
    rw [SectorProgram.run_create]
    exact create_of_not hc junk hnot
  exact SectorProgram.stopped_of_nil (SectorProgram.sectorsWritten_failed hc hrun rfl) n

/-- The machine stops after `n` sector writes of `create` with a legal size.  A `create`
that fails has not written.  One that goes through leaves a consistent disk exactly when it
has written at most the new header, or all four sectors, or else the header and the first
sector of the directory where the new entry lies behind that sector. -/
theorem create_stopped (hc : Consistent fs d) (junk : Junk) (name : CString) {initialSize : Int}
    (hlegal : 0 ≤ initialSize ∧ initialSize ≤ maxFileSize) :
    (¬ CanCreate fs d name.bytes initialSize → ∀ n,
      (SectorProgram.FileSystem.create fs junk name initialSize).stopped d n = d) ∧
    (CanCreate fs d name.bytes initialSize → ∃ d' i s, (fs.create junk name initialSize).run d =
        .ok (⟨true, List.range (divRoundUp initialSize sectorSize).toNat⟩, d') ∧
      Adds fs d d' name.bytes initialSize i s ∧ ∀ n, Consistent fs
        ((SectorProgram.FileSystem.create fs junk name initialSize).stopped d n) ↔
          n ≤ 1 ∨ n = 2 ∧ 6 < (i : Nat) ∨ 4 ≤ n) := by
  refine ⟨fun hnot n => create_refused hc junk hnot n, fun hcan => ?_⟩
  obtain ⟨d', i, s, hrun, ha⟩ := create_of_can hc junk (fits_of_legal hlegal) hcan
  refine ⟨d', i, s, hrun, ha, fun n => ?_⟩
  have hbetween := create_between hc hrun ha n
  by_cases hall : 4 ≤ n
  · rw [create_finished hc hrun ha hall]
    exact iff_of_true (ha.consistent hc hcan.absent hlegal.1 hlegal.2) (Or.inr (Or.inr hall))
  · by_cases hearly : n ≤ 1 ∨ n = 2 ∧ 6 < (i : Nat)
    · exact iff_of_true (create_early hc ha hbetween hearly) (by omega)
    · exact iff_of_false (create_late hc ha hbetween (by omega)) (by omega)

theorem create_stopped_fileA : ∃ fs d, (format zeroJunk).run zeroDisk = .ok (fs, d) ∧
    (¬ CanCreate fs d fileA.bytes 128 → ∀ n,
      (SectorProgram.FileSystem.create fs zeroJunk fileA 128).stopped d n = d) ∧
    (CanCreate fs d fileA.bytes 128 → ∃ d' i s, (fs.create zeroJunk fileA 128).run d =
        .ok (⟨true, List.range (divRoundUp 128 sectorSize).toNat⟩, d') ∧
      Adds fs d d' fileA.bytes 128 i s ∧ ∀ n, Consistent fs
        ((SectorProgram.FileSystem.create fs zeroJunk fileA 128).stopped d n) ↔
          n ≤ 1 ∨ n = 2 ∧ 6 < (i : Nat) ∨ 4 ≤ n) := by
  obtain ⟨fs, d, hformat, hf⟩ := format_run zeroJunk zeroDisk
  exact ⟨fs, d, hformat, create_stopped hf.consistent zeroJunk fileA (by decide)⟩

end Create

/-! ## `remove` -/

section Remove

variable {name : CString} {i : Fin numDirEntries}

/-- The sectors that `remove` writes, in order. -/
def removeSectors (fs : FileSystem) : List Int :=
  [fs.freeMapFile.hdr.sectorNo 0, fs.directoryFile.hdr.sectorNo 0,
    fs.directoryFile.hdr.sectorNo 1]

theorem removeSectors_eq (hf : fs.SystemFiles) : removeSectors fs =
    fs.freeMapFile.hdr.sectors ++ fs.directoryFile.hdr.sectors := by
  rw [hf.dir_sectors, hf.map_sectors]
  rfl

theorem removeSectors_nodup (hf : fs.SystemFiles) : (removeSectors fs).Nodup := by
  rw [removeSectors_eq hf]
  exact (List.nodup_cons.mp (List.nodup_cons.mp hf.nodup).2).2

theorem remove_program (hc : Consistent fs d) {junk : Junk}
    (hrun : (fs.remove junk name).run d = .ok (true, d')) :
    (SectorProgram.FileSystem.remove fs junk name).run d = .ok (true, d') ∧
      SectorProgram.sectorsWritten (SectorProgram.FileSystem.remove fs junk name) d =
        removeSectors fs := by
  have hrun' : (SectorProgram.FileSystem.remove fs junk name).run d = .ok (true, d') := by
    rw [SectorProgram.run_remove]
    exact hrun
  exact ⟨hrun', (SectorProgram.sectorsWritten_remove hc hrun').trans
    (removeSectors_eq hc.files).symm⟩

theorem remove_between (hc : Consistent fs d) {junk : Junk}
    (hrun : (fs.remove junk name).run d = .ok (true, d')) (n : Nat) :
    Between (removeSectors fs) d d' n
      ((SectorProgram.FileSystem.remove fs junk name).stopped d n) := by
  obtain ⟨hrun', hwritten⟩ := remove_program hc hrun
  have hnodup := removeSectors_nodup hc.files
  rw [← hwritten] at hnodup ⊢
  exact fun t ht => SectorProgram.sector_stopped hrun' hnodup n ht

/-- After `n` writes the old entry is still there or is free; its other fields never change. -/
theorem remove_directory (hc : Consistent fs d) (hr : Removes fs d d' name.bytes i) {n : Nat}
    (h : Between (removeSectors fs) d d' n dn) (j : Fin numDirEntries) :
    (fs.directoryOn dn).table j =
      if n ≤ 1 ∨ n = 2 ∧ 6 < (i : Nat) then (fs.directoryOn d).table j
      else (fs.directoryOn d').table j := by
  rw [directoryOn_torn (h.directory (k := 1) hc.files (removeSectors_nodup hc.files)
    fun | 0, _ => rfl | 1, _ => rfl) j]
  by_cases hj : j = i
  · subst hj
    have hpart : ({ (fs.directoryOn d').table j with
        name := ((fs.directoryOn d).table j).name
        tail := ((fs.directoryOn d).table j).tail } : DirectoryEntry) =
        (fs.directoryOn d').table j := by
      rw [hr.table_self]
      rfl
    rw [tornEntry, hpart]
    by_cases hzero : n - 1 = 0
    · rw [if_pos hzero, if_pos (by omega)]
    · rw [if_neg hzero]
      by_cases hlow : 2 ≤ n - 1 ∨ (j : Nat) ≤ 5
      · rw [if_pos hlow, if_neg (by omega)]
      · rw [if_neg hlow]
        by_cases hsix : (j : Nat) = 6
        · rw [if_pos hsix, if_neg (by omega)]
        · rw [if_neg hsix, if_pos (by omega)]
  · rw [hr.table_other hj, tornEntry_self, ite_self]

theorem remove_freeMap (hc : Consistent fs d) {n : Nat}
    (h : Between (removeSectors fs) d d' n dn) :
    fs.freeMapOn dn = if 0 < n then fs.freeMapOn d' else fs.freeMapOn d :=
  h.freeMap hc.files (removeSectors_nodup hc.files) rfl

theorem remove_frame (hc : Consistent fs d) {n : Nat} (h : Between (removeSectors fs) d d' n dn)
    {t : Int} (ht : OnDisk t) (hmap : t ∉ fs.freeMapFile.hdr.sectors)
    (hdir : t ∉ fs.directoryFile.hdr.sectors) : dn.sector t = d.sector t := by
  rw [h t ht, if_neg]
  intro hmem
  have hall := List.mem_of_mem_take hmem
  rw [removeSectors_eq hc.files, List.mem_append] at hall
  exact hall.elim hmap hdir

theorem remove_wellKnown (hc : Consistent fs d) {n : Nat}
    (h : Between (removeSectors fs) d d' n dn) {t : Int}
    (ht : t = (freeMapSector : Int) ∨ t = (directorySector : Int)) :
    dn.sector t = d.sector t := by
  have hwell := hc.files.wellKnown ht
  exact remove_frame hc h (by rcases ht with rfl | rfl <;> decide) hwell.1 hwell.2

/-- The map is the new one and the entry still the old one: its header is not marked. -/
theorem remove_early (hc : Consistent fs d) (hr : Removes fs d d' name.bytes i) {n : Nat}
    (h : Between (removeSectors fs) d d' n dn) (hn : n = 1 ∨ n = 2 ∧ 6 < (i : Nat)) :
    ¬ Consistent fs dn := by
  have hmap := remove_freeMap hc h
  rw [if_pos (by omega)] at hmap
  have hentry := remove_directory hc hr h i
  rw [if_pos (by omega)] at hentry
  have hu := (Directory.findIndex_some hr.found).1
  have hdisk := hc.sector_onDisk hu
  refine not_consistent_of_clear (i := i) (by rw [hentry]; exact hu) fun hmarked => ?_
  rw [hentry, Marked, hmap, hr.freeMap _ ((Int.toNat_lt hdisk.1).mpr hdisk.2),
    Int.toNat_of_nonneg hdisk.1] at hmarked
  have hmem := Consistent.sector_mem hu
  rw [decide_eq_true hmem, Bool.not_true, Bool.and_false] at hmarked
  exact Bool.false_ne_true hmarked.2

theorem remove_late_directory (hc : Consistent fs d) (hr : Removes fs d d' name.bytes i) {n : Nat}
    (h : Between (removeSectors fs) d d' n dn) (hn : 2 ≤ n) (hi : n ≠ 2 ∨ (i : Nat) ≤ 6) :
    fs.directoryOn dn = fs.directoryOn d' := by
  have htable : (fs.directoryOn dn).table = (fs.directoryOn d').table := funext fun j => by
    rw [remove_directory hc hr h j, if_neg (by omega)]
  show Directory.mk _ = Directory.mk _
  exact congrArg _ htable

/-- The directory and the map are the new ones. -/
theorem remove_late (hc : Consistent fs d) (hr : Removes fs d d' name.bytes i) {n : Nat}
    (h : Between (removeSectors fs) d d' n dn) (hn : 2 ≤ n) (hi : n ≠ 2 ∨ (i : Nat) ≤ 6) :
    Consistent fs dn := by
  have hc' := hr.consistent hc
  have hmap := remove_freeMap hc h
  rw [if_pos (by omega)] at hmap
  refine hc'.congr (remove_late_directory hc hr h hn hi) hmap (fun t ht => ?_) fun j hu => ?_
  · have hwell := hc.files.wellKnown ht
    rw [remove_wellKnown hc h ht, hr.frame t hwell.1 hwell.2]
  · have hout := hc'.outside (Consistent.sector_mem hu)
    rw [remove_frame hc h (hc'.sector_onDisk hu) hout.1 hout.2, hr.frame _ hout.1 hout.2]

/-- The machine stops after `n` sector writes of `remove`.  The disk is consistent exactly
when nothing has been written, or all three sectors, or else the map and the first sector of
the directory where the mark of the entry lies in that sector. -/
theorem remove_stopped (hc : Consistent fs d) (junk : Junk) (name : CString)
    {i : Fin numDirEntries} (hfind : (fs.directoryOn d).findIndex name.bytes = some i) (n : Nat) :
    Consistent fs ((SectorProgram.FileSystem.remove fs junk name).stopped d n) ↔
      n = 0 ∨ n = 2 ∧ (i : Nat) ≤ 6 ∨ 3 ≤ n := by
  obtain ⟨d', hrun, hr⟩ := remove_of_some hc junk hfind
  have hbetween := remove_between hc hrun n
  by_cases hzero : n = 0
  · subst hzero
    exact iff_of_true hc (Or.inl rfl)
  · by_cases hearly : n = 1 ∨ n = 2 ∧ 6 < (i : Nat)
    · exact iff_of_false (remove_early hc hr hbetween hearly) (by omega)
    · exact iff_of_true (remove_late hc hr hbetween (by omega) (by omega)) (by omega)

theorem remove_stopped_fileA : ∃ (fs : FileSystem) (d : Disk) (i : Fin numDirEntries),
    (fs.directoryOn d).findIndex fileA.bytes = some i ∧ (Consistent fs
      ((SectorProgram.FileSystem.remove fs zeroJunk fileA).stopped d 2) ↔
        2 = 0 ∨ 2 = 2 ∧ (i : Nat) ≤ 6 ∨ 3 ≤ 2) := by
  obtain ⟨fs, d₀, -, hf⟩ := format_run zeroJunk zeroDisk
  obtain ⟨d, i, -, ha, hc, -⟩ := hf.create zeroJunk fileA
  exact ⟨fs, d, i, ha.findIndex hc, remove_stopped hc zeroJunk fileA (ha.findIndex hc) 2⟩

end Remove

/-! ## What a restart finds -/

/-- What a stop leaves of the file of entry `j`: the entry, all its sectors and their marks. -/
structure Intact (fs : FileSystem) (d dn : Disk) (j : Fin numDirEntries) : Prop where
  entry : (fs.directoryOn dn).table j = (fs.directoryOn d).table j
  sectors : ∀ t ∈ fs.owned d (some j), dn.sector t = d.sector t
  marked : ∀ t ∈ fs.owned d (some j), fs.Marked dn t

theorem Intact.refl (hc : Consistent fs d) (j : Fin numDirEntries) : Intact fs d d j :=
  ⟨rfl, fun _ _ => rfl, fun _ ht => hc.ownership.marked_of_mem ht⟩

/-- The two system files as a kernel that starts opens them. -/
def rewound (fs : FileSystem) : FileSystem :=
  ⟨{ fs.freeMapFile with seekPosition := 0 }, { fs.directoryFile with seekPosition := 0 }⟩

/-- The headers of the system files decide what is mounted. -/
theorem mount_run (hc : Consistent fs d) (hwell : ∀ s : Int,
      s = (freeMapSector : Int) ∨ s = (directorySector : Int) → dn.sector s = d.sector s) :
    mount.run dn = .ok (fs.rewound, dn) := by
  have hmap : dn.header freeMapSector = fs.freeMapFile.hdr := by
    rw [header_congr (hwell _ (Or.inl rfl)), hc.mapHeader]
  have hdir : dn.header directorySector = fs.directoryFile.hdr := by
    rw [header_congr (hwell _ (Or.inr rfl)), hc.dirHeader]
  rw [mount, run_bind (openFile_run (by decide) dn), run_bind (openFile_run (by decide) dn),
    hmap, hdir]
  rfl

theorem create_intact (hc : Consistent fs d) {name : CString} {initialSize : Int}
    {i : Fin numDirEntries} {s n : Nat} (ha : Adds fs d d' name.bytes initialSize i s)
    (h : Between (createSectors fs s) d d' n dn) {j : Fin numDirEntries}
    (hu : ((fs.directoryOn d).table j).inUse = true) : Intact fs d dn j := by
  have hclear := hc.not_owned_of_clear ha.mem_clear
  have hji : j ≠ i := fun he => by
    rw [he, ha.unused] at hu
    exact Bool.false_ne_true hu
  refine ⟨by rw [create_directory hc ha h j, if_neg hji], fun t ht => ?_, fun t ht => ?_⟩
  · exact create_frame hc h (hc.onDisk_of_owned ht) (fun he => hclear (some j) (he ▸ ht))
      (hc.outside ht).1 (hc.outside ht).2
  · have hmarked := hc.ownership.marked_of_mem ht
    by_cases hn : 3 < n
    · rw [Marked, create_freeMap hc ha h, if_pos hn]
      exact (ha.marked t).mpr (Or.inl hmarked)
    · rw [Marked, create_freeMap hc ha h, if_neg hn]
      exact hmarked

theorem remove_intact (hc : Consistent fs d) {name : CString} {i : Fin numDirEntries} {n : Nat}
    (hr : Removes fs d d' name.bytes i) (h : Between (removeSectors fs) d d' n dn)
    {j : Fin numDirEntries} (hji : j ≠ i) : Intact fs d dn j := by
  refine ⟨?_, fun t ht => ?_, fun t ht => ?_⟩
  · rw [remove_directory hc hr h j, hr.table_other hji, ite_self]
  · exact remove_frame hc h (hc.onDisk_of_owned ht) (hc.outside ht).1 (hc.outside ht).2
  · have hmarked := hc.ownership.marked_of_mem ht
    by_cases hn : 0 < n
    · rw [Marked, remove_freeMap hc h, if_pos hn]
      refine ⟨hmarked.1, ?_⟩
      have hother : t ∉ fs.owned d (some i) :=
        hc.ownership.disjoint (some j) (some i) (fun e => hji (Option.some.inj e)) t ht
      rw [hr.freeMap _ ((Int.toNat_lt hmarked.1.1).mpr hmarked.1.2),
        Int.toNat_of_nonneg hmarked.1.1, hmarked.2, decide_eq_false hother]
      rfl
    · rw [Marked, remove_freeMap hc h, if_neg hn]
      exact hmarked

namespace Update

/-- A legal update as a program. -/
def program (fs : FileSystem) (junk : Junk) : Update → SectorProgram Bool
  | create name initialSize => do
    let created ← SectorProgram.FileSystem.create fs junk name initialSize
    pure created.success
  | remove name => SectorProgram.FileSystem.remove fs junk name

end Update

/-- The machine stops anywhere in a legal update.  A kernel that starts on that disk mounts
the two system files as they were, and every file with another name has its entry, its
sectors and their marks as before. -/
theorem update_stopped (hc : Consistent fs d) (junk : Junk) {u : Update} (hu : u.Legal) (n : Nat) :
    mount.run ((u.program fs junk).stopped d n) =
        .ok (fs.rewound, (u.program fs junk).stopped d n) ∧
      ∀ j, ((fs.directoryOn d).table j).inUse = true →
        ((fs.directoryOn d).table j).sameName u.name.bytes = false →
        Intact fs d ((u.program fs junk).stopped d n) j := by
  cases u with
  | create name initialSize =>
    have hstop : (Update.program fs junk (.create name initialSize)).stopped d n =
        (SectorProgram.FileSystem.create fs junk name initialSize).stopped d n :=
      StoreProgram.stopped_bind_pure _ n
    rw [hstop]
    by_cases hcan : CanCreate fs d name.bytes initialSize
    · obtain ⟨d', i, s, hrun, ha⟩ := create_of_can hc junk (fits_of_legal hu) hcan
      have hbetween := create_between hc hrun ha n
      exact ⟨mount_run hc fun t ht => create_wellKnown hc ha hbetween ht,
        fun j hj _ => create_intact hc ha hbetween hj⟩
    · rw [(create_stopped hc junk name hu).1 hcan n]
      exact ⟨mount_run hc fun _ _ => rfl, fun j _ _ => Intact.refl hc j⟩
  | remove name =>
    cases hfind : (fs.directoryOn d).findIndex name.bytes with
    | none =>
      have hstop : (SectorProgram.FileSystem.remove fs junk name).stopped d n = d :=
        SectorProgram.stopped_of_nil (SectorProgram.sectorsWritten_absent hc junk hfind) n
      rw [Update.program, hstop]
      exact ⟨mount_run hc fun _ _ => rfl, fun j _ _ => Intact.refl hc j⟩
    | some i =>
      obtain ⟨d', hrun, hr⟩ := remove_of_some hc junk hfind
      have hbetween := remove_between hc hrun n
      refine ⟨mount_run hc fun t ht => remove_wellKnown hc hbetween ht, fun j hj hne => ?_⟩
      refine remove_intact hc hr hbetween fun he => ?_
      rw [he, Update.name, (Directory.findIndex_some hfind).2] at hne
      exact Bool.false_ne_true hne.symm

/-- File A is on the disk, and the machine stops in the create of file B, with the free map
still to be written. -/
theorem update_stopped_fileA : ∃ fs d j, Consistent fs d ∧
    ((fs.directoryOn d).table j).inUse = true ∧
    ((fs.directoryOn d).table j).sameName fileA.bytes = true ∧
    mount.run ((Update.program fs zeroJunk (.create fileB 128)).stopped d 3) =
        .ok (fs.rewound, (Update.program fs zeroJunk (.create fileB 128)).stopped d 3) ∧
      Intact fs d ((Update.program fs zeroJunk (.create fileB 128)).stopped d 3) j := by
  obtain ⟨fs, d₀, -, hf⟩ := format_run zeroJunk zeroDisk
  obtain ⟨d, i, -, ha, hc, -⟩ := hf.create zeroJunk fileA
  obtain ⟨hmount, hintact⟩ := update_stopped hc zeroJunk
    (u := .create fileB 128) (by decide : (0 : Int) ≤ 128 ∧ (128 : Int) ≤ maxFileSize) 3
  have hinUse : ((fs.directoryOn d).table i).inUse = true := by
    rw [ha.table_self]
    rfl
  have hname : ∀ name, ((fs.directoryOn d).table i).sameName name =
      strncmpEq fileA.bytes name 0 fileNameMaxLen := fun name => by
    rw [ha.table_self, DirectoryEntry.sameName_fill]
  exact ⟨fs, d, i, hc, hinUse, (hname _).trans (by decide), hmount,
    hintact i hinUse ((hname _).trans (by decide))⟩

/-! ## A transfer -/

section Transfer

variable {h : Handle} {numBytes position : Int}

theorem sectorsWritten_nodup (hv : h.file.hdr.Valid) (junk src : Block)
    (hspan : Transfer.Span numBytes position) :
    (SectorProgram.sectorsWritten
      (SectorProgram.OpenFile.writeAt h.file junk src numBytes position) d).Nodup := by
  rw [SectorProgram.sectorsWritten_writeAt hv junk src hspan.1 hspan.2 rfl]
  have hle := (SectorProgram.writeAt_eq hv junk src hspan.1 hspan.2).1
  have hb := hv.numSectors_bounds
  generalize (OpenFile.transferred h.file.hdr.numBytes numBytes position).toNat = m at hle
  by_cases hm : m = 0
  · rw [if_pos hm]
    exact List.nodup_nil
  · have hend := hle hm
    rw [if_neg hm]
    refine (List.nodup_range' 1).map_on fun j hj k hk he => ?_
    rw [List.mem_range'_1] at hj hk
    exact hv.sectorNo_inj (by omega) (by omega) he

theorem writeAt_between (hv : h.file.hdr.Valid) (junk src : Block)
    (hspan : Transfer.Span numBytes position) (d : Disk) : ∃ d',
    (h.file.writeAt junk src numBytes position).run d =
        .ok (OpenFile.transferred h.file.hdr.numBytes numBytes position, d') ∧
      ∀ n, Between (SectorProgram.sectorsWritten
        (SectorProgram.OpenFile.writeAt h.file junk src numBytes position) d) d d' n
        ((SectorProgram.OpenFile.writeAt h.file junk src numBytes position).stopped d n) := by
  obtain ⟨d', hrun, -, -⟩ := OpenFile.writeAt_run hv junk src hspan.1 hspan.2 d
  have hrun' : (SectorProgram.OpenFile.writeAt h.file junk src numBytes position).run d =
      .ok (OpenFile.transferred h.file.hdr.numBytes numBytes position, d') := by
    rw [SectorProgram.run_writeAt]
    exact hrun
  exact ⟨d', hrun, fun n t ht =>
    SectorProgram.sector_stopped hrun' (sectorsWritten_nodup hv junk src hspan) n ht⟩

theorem writeAt_frame (hv : h.file.hdr.Valid) (junk src : Block)
    (hspan : Transfer.Span numBytes position) (d : Disk) (n : Nat) {t : Int} (ht : OnDisk t)
    (hne : t ∉ h.file.hdr.sectors) : Disk.sector
      ((SectorProgram.OpenFile.writeAt h.file junk src numBytes position).stopped d n) t =
        d.sector t := by
  obtain ⟨d', hrun, hbetween⟩ := writeAt_between hv junk src hspan d
  obtain ⟨d'', hrun', hframe, -⟩ := OpenFile.writeAt_run hv junk src hspan.1 hspan.2 d
  obtain rfl : d' = d'' := by
    rw [hrun, Except.ok.injEq, Prod.mk.injEq] at hrun'
    exact hrun'.2
  rw [hbetween n t ht, hframe t hne, ite_self]

/-- The file has the new bytes up to the end of the `n`th sector of the request. -/
theorem fileByte_stopped (hv : h.file.hdr.Valid) (junk src : Block)
    (hspan : Transfer.Span numBytes position) (d : Disk) (n : Nat) {k : Nat}
    (hk : (k : Int) < h.file.hdr.numBytes) : fileByte
      ((SectorProgram.OpenFile.writeAt h.file junk src numBytes position).stopped d n)
        h.file.hdr k =
      if position ≤ k ∧
          k < position + OpenFile.transferred h.file.hdr.numBytes numBytes position ∧
          k / 128 < position.toNat / 128 + n
      then src (k - position.toNat) else fileByte d h.file.hdr k := by
  have hb := hv.numSectors_bounds
  obtain ⟨d', hrun, hbetween⟩ := writeAt_between hv junk src hspan d
  obtain ⟨d'', hrun', -, hbytes⟩ := OpenFile.writeAt_run hv junk src hspan.1 hspan.2 d
  obtain rfl : d' = d'' := by
    rw [hrun, Except.ok.injEq, Prod.mk.injEq] at hrun'
    exact hrun'.2
  have hnodup := sectorsWritten_nodup (d := d) hv junk src hspan
  have hmem := FileHeader.sectorNo_mem (h := h.file.hdr) (i := k / 128) (by omega)
  have hbyte : fileByte
      ((SectorProgram.OpenFile.writeAt h.file junk src numBytes position).stopped d n)
      h.file.hdr k =
      if h.file.hdr.sectorNo (k / 128) ∈ (SectorProgram.sectorsWritten
        (SectorProgram.OpenFile.writeAt h.file junk src numBytes position) d).take n
      then fileByte d' h.file.hdr k else fileByte d h.file.hdr k := by
    rw [fileByte, fileByte, fileByte, sectorSize, hbetween n _ (hv.onDisk _ hmem)]
    split <;> rfl
  rw [hbyte, hbytes k hk]
  by_cases hin : position ≤ k ∧
      k < position + OpenFile.transferred h.file.hdr.numBytes numBytes position
  · -- the sector of the byte is the one at its place in the request
    have hm : (OpenFile.transferred h.file.hdr.numBytes numBytes position).toNat ≠ 0 := by omega
    have hpos := hspan.1
    have hat : (SectorProgram.sectorsWritten
        (SectorProgram.OpenFile.writeAt h.file junk src numBytes position) d)[
          k / 128 - position.toNat / 128]? = some (h.file.hdr.sectorNo (k / 128)) := by
      have hj : position.toNat / 128 + (k / 128 - position.toNat / 128) = k / 128 := by omega
      rw [SectorProgram.sectorsWritten_writeAt hv junk src hspan.1 hspan.2 rfl, if_neg hm,
        List.getElem?_map, List.getElem?_range' (by omega), Nat.one_mul, hj]
      rfl
    have hiff := mem_take_iff hnodup n hat
    rw [if_pos hin]
    by_cases hn : k / 128 < position.toNat / 128 + n
    · rw [if_pos (hiff.mpr (by omega)), if_pos ⟨hin.1, hin.2, hn⟩]
    · rw [if_neg (fun hmn => hn (by have := hiff.mp hmn; omega)), if_neg (fun hall => hn hall.2.2)]
  · rw [if_neg hin, ite_self, if_neg fun hall => hin ⟨hall.1, hall.2.1⟩]

/-- The machine stops after `n` sector writes of a `WriteAt` through a handle.  The file has
the new bytes up to the end of the `n`th sector of the request and the old ones from there
on, and all else is as it was. -/
theorem writeAt_stopped (hc : Consistent fs d) (hcur : h.Current fs d) (junk src : Block)
    (hspan : Transfer.Span numBytes position) (n : Nat) :
    let dn := (SectorProgram.OpenFile.writeAt h.file junk src numBytes position).stopped d n
    Consistent fs dn ∧ fs.directoryOn dn = fs.directoryOn d ∧ fs.freeMapOn dn = fs.freeMapOn d ∧
      (∀ t, OnDisk t → t ∉ h.file.hdr.sectors → Disk.sector dn t = d.sector t) ∧
      ∀ k : Nat, (k : Int) < h.file.hdr.numBytes → fileByte dn h.file.hdr k =
        if position ≤ k ∧
            k < position + OpenFile.transferred h.file.hdr.numBytes numBytes position ∧
            k / 128 < position.toNat / 128 + n
        then src (k - position.toNat) else fileByte d h.file.hdr k := by
  intro dn
  have hv := hcur.valid hc
  have hother : ∀ t, OnDisk t → t ∉ h.file.hdr.sectors → Disk.sector dn t = d.sector t :=
    fun t ht hne => writeAt_frame hv junk src hspan d n ht hne
  have hdata := hcur.dataOnly hc
  obtain ⟨hcn, hdir, -, hmap⟩ := hc.data_write
    (fun t ht => hother t (hc.onDisk_of_owned (k := none) ht) fun hm => (hdata t hm).1 ht)
    fun i hu => hother _ (hc.sector_onDisk hu) fun hm => (hdata _ hm).2 i hu rfl
  exact ⟨hcn, hdir, hmap, hother, fun k hk => fileByte_stopped hv junk src hspan d n hk⟩

theorem writeAt_stopped_fileA : ∃ (fs : FileSystem) (d : Disk) (h : Handle), h.Current fs d ∧
    let dn := (SectorProgram.OpenFile.writeAt h.file (fun _ => 0) (fun _ => 7) 100 20).stopped d 1
    Consistent fs dn ∧ fs.directoryOn dn = fs.directoryOn d ∧ fs.freeMapOn dn = fs.freeMapOn d ∧
      (∀ t, OnDisk t → t ∉ h.file.hdr.sectors → Disk.sector dn t = Disk.sector d t) ∧
      ∀ k : Nat, (k : Int) < h.file.hdr.numBytes → fileByte dn h.file.hdr k =
        if (20 : Int) ≤ k ∧ k < 20 + OpenFile.transferred h.file.hdr.numBytes 100 20 ∧
            k / 128 < (20 : Int).toNat / 128 + 1
        then (7 : UInt8) else fileByte d h.file.hdr k := by
  obtain ⟨fs, d₀, -, hf⟩ := format_run zeroJunk zeroDisk
  obtain ⟨d, i, -, ha, hc, -⟩ := hf.create zeroJunk fileA
  have hcur : Handle.Current ⟨⟨d.header (5 : Nat), 0⟩, (5 : Nat), true⟩ fs d :=
    ⟨i, by rw [ha.table_self]; rfl, by rw [ha.table_self]; rfl, rfl⟩
  exact ⟨fs, d, _, hcur, writeAt_stopped hc hcur (fun _ => 0) (fun _ => 7)
    ⟨by decide, by decide⟩ 1⟩

end Transfer

end FileSystem

end FileSys
end Nachos
