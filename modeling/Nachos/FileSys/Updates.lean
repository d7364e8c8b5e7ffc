import Nachos.FileSys.Format

/-!
# Runs of `create` and `remove`

Every run that starts by formatting a disk and goes on with calls of `create`
and `remove` stays on consistent disks and never fails.  The size given to
`create` is checked against free space only, so a run has to respect
`maxFileSize` by itself; what happens to the other sizes is `create_usable_iff`.
-/

namespace Nachos
namespace FileSys
namespace FileSystem

open Lib

/-- The calls that change the directory. -/
inductive Update
  | create (name : CString) (initialSize : Int)
  | remove (name : CString)

namespace Update

/-- Sizes that a header's sector table can cover. -/
def Legal : Update → Prop
  | create _ initialSize => 0 ≤ initialSize ∧ initialSize ≤ maxFileSize
  | remove _ => True

def name : Update → CString
  | create name _ => name
  | remove name => name

def run (fs : FileSystem) (junk : Junk) : Update → SynchDisk Bool
  | create name initialSize => do
    let created ← fs.create junk name initialSize
    pure created.success
  | remove name => fs.remove junk name

end Update

/-- The calls of a list, one after the other, each with what it finds on the heap. -/
def runUpdates (fs : FileSystem) : List (Junk × Update) → SynchDisk Unit
  | [] => pure ()
  | (junk, u) :: us => do
    let _ ← u.run fs junk
    runUpdates fs us

variable {fs : FileSystem} {d d' : Disk}

theorem fits_of_legal {initialSize : Int} (h : 0 ≤ initialSize ∧ initialSize ≤ maxFileSize) :
    LittleEndian.Fits initialSize := by
  obtain ⟨hnonneg, hmax⟩ := h
  simp only [maxFileSize, numDirect, sectorSize, sizeofInt] at hmax
  exact ⟨by omega, by omega⟩

/-- What a legal update does: nothing, add a file, or remove one. -/
inductive Effect (fs : FileSystem) (d d' : Disk) : Update → Bool → Prop
  | none (u : Update) : d' = d → Effect fs d d' u false
  | adds (name : CString) (initialSize : Int) (i : Fin numDirEntries) (s : Nat) :
      CanCreate fs d name.bytes initialSize → Adds fs d d' name.bytes initialSize i s →
      Effect fs d d' (.create name initialSize) true
  | removes (name : CString) (i : Fin numDirEntries) : Removes fs d d' name.bytes i →
      Effect fs d d' (.remove name) true

theorem update_run (hc : Consistent fs d) (junk : Junk) {u : Update} (hu : u.Legal) :
    ∃ b d', (u.run fs junk).run d = .ok (b, d') ∧ Effect fs d d' u b := by
  cases u with
  | create name initialSize =>
    by_cases hcan : CanCreate fs d name.bytes initialSize
    · obtain ⟨d', i, s, hrun, ha⟩ := create_of_can hc junk (fits_of_legal hu) hcan
      exact ⟨true, d', by rw [Update.run, run_bind hrun, run_pure],
        .adds name initialSize i s hcan ha⟩
    · exact ⟨false, d, by rw [Update.run, run_bind (create_of_not hc junk hcan), run_pure],
        .none _ rfl⟩
  | remove name =>
    cases hfind : (fs.directoryOn d).findIndex name.bytes with
    | none => exact ⟨false, d, remove_of_none hc junk hfind, .none _ rfl⟩
    | some i =>
      obtain ⟨d', hrun, hr⟩ := remove_of_some hc junk hfind
      exact ⟨true, d', hrun, .removes name i hr⟩

theorem Effect.consistent {u : Update} {b : Bool} (he : Effect fs d d' u b)
    (hc : Consistent fs d) (hu : u.Legal) : Consistent fs d' := by
  cases he with
  | none _ h => exact h ▸ hc
  | adds name initialSize i s hcan ha => exact ha.consistent hc hcan.absent hu.1 hu.2
  | removes name i hr => exact hr.consistent hc

theorem runUpdates_run (us : List (Junk × Update)) (hus : ∀ u ∈ us, u.2.Legal) :
    ∀ d, Consistent fs d → ∃ d', (runUpdates fs us).run d = .ok ((), d') ∧ Consistent fs d' := by
  induction us with
  | nil => exact fun d hc => ⟨d, rfl, hc⟩
  | cons u us ih =>
    intro d hc
    have hlegal := hus u List.mem_cons_self
    obtain ⟨b, d₁, hrun, he⟩ := update_run hc u.1 hlegal
    obtain ⟨d', hrest, hc'⟩ := ih (fun v hv => hus v (List.mem_cons_of_mem _ hv)) d₁
      (he.consistent hc hlegal)
    exact ⟨d', by rw [runUpdates, run_bind hrun, hrest], hc'⟩

/-- A disk formatted and then used by any calls of `create` and `remove` is
consistent, and no call on the way fails an `ASSERT`. -/
theorem format_then_updates (junk : Junk) (d : Disk) (us : List (Junk × Update))
    (hus : ∀ u ∈ us, u.2.Legal) :
    ∃ fs d₀ d', (format junk).run d = .ok (fs, d₀) ∧ Consistent fs d₀ ∧
      (runUpdates fs us).run d₀ = .ok ((), d') ∧ Consistent fs d' := by
  obtain ⟨fs, d₀, hformat, hf⟩ := format_run junk d
  obtain ⟨d', hrun, hc'⟩ := runUpdates_run us hus d₀ hf.consistent
  exact ⟨fs, d₀, d', hformat, hf.consistent, hrun, hc'⟩

/-- The heap and the disk of the examples below, and their file name. -/
def zeroJunk : Junk := fun _ _ => 0

def zeroDisk : Disk := fun _ _ => 0

def fileA : CString := ⟨[97], by simp⟩

theorem format_then_updates_fileA : ∃ fs d₀ d', (format zeroJunk).run zeroDisk = .ok (fs, d₀) ∧
    Consistent fs d₀ ∧
    (runUpdates fs [(zeroJunk, .create fileA 128), (zeroJunk, .remove fileA)]).run d₀ =
      .ok ((), d') ∧ Consistent fs d' :=
  format_then_updates zeroJunk zeroDisk _ (by simp [Update.Legal])

/-! ## When `create` succeeds -/

/-- `create` of a legal size succeeds exactly when the name is new, an entry is
unused and the free map has room for header and data; else the disk keeps every
byte. -/
theorem create_iff (hc : Consistent fs d) (junk : Junk) (name : CString) {initialSize : Int}
    (hnonneg : 0 ≤ initialSize) (hmax : initialSize ≤ maxFileSize) :
    ∃ r d', (fs.create junk name initialSize).run d = .ok (r, d') ∧
      (r.success = true ↔
        (∀ i, ((fs.directoryOn d).table i).inUse = true →
          ((fs.directoryOn d).table i).sameName name.bytes = false) ∧
        (∃ i, ((fs.directoryOn d).table i).inUse = false) ∧
        1 + divRoundUp initialSize sectorSize ≤ (fs.freeMapOn d).numClear) ∧
      (r.success = false → d' = d) := by
  have hround : max 0 (divRoundUp initialSize sectorSize) = divRoundUp initialSize sectorSize := by
    rw [divRoundUp_of_nonneg hnonneg]
    simp only [sectorSize]
    split <;> omega
  by_cases hcan : CanCreate fs d name.bytes initialSize
  · obtain ⟨d', i, s, hrun, -⟩ := create_of_can hc junk (fits_of_legal ⟨hnonneg, hmax⟩) hcan
    have hroom := hcan.room
    rw [hround] at hroom
    exact ⟨_, d', hrun, iff_of_true rfl ⟨hcan.absent, hcan.unused, hroom⟩,
      fun h => absurd h.symm Bool.false_ne_true⟩
  · refine ⟨_, d, create_of_not hc junk hcan, iff_of_false Bool.false_ne_true fun h => hcan ?_,
      fun _ => rfl⟩
    exact ⟨h.1, h.2.1, by rw [hround]; exact h.2.2⟩

theorem create_iff_fileA : ∃ fs d, (format zeroJunk).run zeroDisk = .ok (fs, d) ∧
    ∃ r d', (fs.create zeroJunk fileA 128).run d = .ok (r, d') ∧
      (r.success = true ↔
        (∀ i, ((fs.directoryOn d).table i).inUse = true →
          ((fs.directoryOn d).table i).sameName fileA.bytes = false) ∧
        (∃ i, ((fs.directoryOn d).table i).inUse = false) ∧
        1 + divRoundUp 128 sectorSize ≤ (fs.freeMapOn d).numClear) ∧
      (r.success = false → d' = d) := by
  obtain ⟨fs, d, hformat, hf⟩ := format_run zeroJunk zeroDisk
  exact ⟨fs, d, hformat, create_iff hf.consistent zeroJunk fileA (by decide) (by decide)⟩

/-! ## What a successful `create` is worth -/

/-- The file created under `name` can be used in full: its size is one that a
header can hold, no store of `Allocate` went past the sector table, and opening
it gives a file of that length whose blocks have marked sectors of their own. -/
structure Usable (fs : FileSystem) (d : Disk) (name : CString) (initialSize : Int)
    (written : List Nat) : Prop where
  size : 0 ≤ initialSize ∧ initialSize ≤ maxFileSize
  inTable : ∀ i ∈ written, i < numDirect
  opens : ∀ junk, ∃ f, (fs.open junk name).run d = .ok (some f, d) ∧ f.length = initialSize ∧
    (∀ offset, 0 ≤ offset → offset < initialSize →
      ∃ s ∈ f.hdr.sectors, f.hdr.byteToSector offset = .ok s ∧ fs.Marked d s) ∧
    ∀ offset offset', 0 ≤ offset → offset < initialSize → 0 ≤ offset' → offset' < initialSize →
      offset / sectorSize ≠ offset' / sectorSize →
      f.hdr.byteToSector offset ≠ f.hdr.byteToSector offset'

theorem byteToSector_of_valid {h : FileHeader} (hv : h.Valid) {offset : Int} (hnonneg : 0 ≤ offset)
    (hlt : offset < h.numBytes) :
    h.byteToSector offset = .ok (h.sectorNo (offset / sectorSize).toNat) ∧
      (((offset / sectorSize).toNat : Nat) : Int) < h.numSectors := by
  have hb := hv.numSectors_bounds
  have hrange : 0 ≤ offset / (sectorSize : Nat) ∧ offset / (sectorSize : Nat) < h.numSectors := by
    simp only [sectorSize]
    omega
  refine ⟨?_, by rw [Int.toNat_of_nonneg hrange.1]; exact hrange.2⟩
  rw [FileHeader.byteToSector, divRoundDown_of_nonneg hnonneg]
  exact h.sectorAt_ok ⟨hrange.1, by rw [numDirect_eq]; omega⟩

/-- The new file is found by its name. -/
theorem Adds.findIndex {name : CString} {initialSize : Int} {i : Fin numDirEntries} {s : Nat}
    (ha : Adds fs d d' name.bytes initialSize i s) (hc' : Consistent fs d') :
    (fs.directoryOn d').findIndex name.bytes = some i := by
  have hself : ((fs.directoryOn d').table i).inUse = true ∧
      ((fs.directoryOn d').table i).sameName name.bytes = true := by
    rw [ha.table_self, DirectoryEntry.sameName_fill]
    exact ⟨rfl, strncmpEq_refl _ _ _⟩
  cases hj : (fs.directoryOn d').findIndex name.bytes with
  | none => exact absurd hself.2 (by rw [Directory.findIndex_none hj i hself.1]; simp)
  | some j =>
    obtain ⟨hu, hname⟩ := Directory.findIndex_some hj
    by_contra hne
    have hdiff := hc'.names j i (fun e => hne (by rw [e])) hu hself.1
    rw [DirectoryEntry.sameName, strncmpEq_trans hname (strncmpEq_symm hself.2)] at hdiff
    exact Bool.false_ne_true hdiff.symm

theorem Adds.open_run {name : CString} {initialSize : Int} {i : Fin numDirEntries} {s : Nat}
    (ha : Adds fs d d' name.bytes initialSize i s) (hc' : Consistent fs d') (junk : Junk) :
    (fs.open junk name).run d' = .ok (some ⟨d'.header s, 0⟩, d') := by
  rw [FileSystem.open_run hc' junk name, ha.findIndex hc', Option.map_some, ha.table_self]
  rfl

theorem Adds.usable {name : CString} {initialSize : Int} {i : Fin numDirEntries} {s : Nat}
    (hc : Consistent fs d) (ha : Adds fs d d' name.bytes initialSize i s)
    (hcan : CanCreate fs d name.bytes initialSize)
    (hsize : 0 ≤ initialSize ∧ initialSize ≤ maxFileSize) :
    Usable fs d' name initialSize (List.range (divRoundUp initialSize sectorSize).toNat) := by
  have hc' := ha.consistent hc hcan.absent hsize.1 hsize.2
  have hv := ha.valid hsize.1 hsize.2
  have hb := hv.numSectors_bounds
  have hcount := hv.count
  rw [ha.length] at hb hcount
  have hu : ((fs.directoryOn d').table i).inUse = true := by rw [ha.table_self]; rfl
  have hsector : ((fs.directoryOn d').table i).sector = s := by rw [ha.table_self]; rfl
  refine ⟨hsize, fun j hj => ?_, fun junk => ⟨_, ha.open_run hc' junk, ha.length,
    fun offset h₀ h₁ => ?_, fun offset offset' h₀ h₁ h₀' h₁' hne heq => ?_⟩⟩
  · rw [List.mem_range, ← hcount] at hj
    rw [numDirect_eq]
    omega
  · obtain ⟨hto, hlt⟩ := byteToSector_of_valid hv h₀ (by rw [ha.length]; exact h₁)
    have hmem := FileHeader.sectorNo_mem hlt
    refine ⟨_, hmem, hto, hc'.ownership.marked_of_mem (Consistent.data_mem (i := i) hu ?_)⟩
    rw [hsector]
    exact hmem
  · obtain ⟨hto, hlt⟩ := byteToSector_of_valid hv h₀ (by rw [ha.length]; exact h₁)
    obtain ⟨hto', hlt'⟩ := byteToSector_of_valid hv h₀' (by rw [ha.length]; exact h₁')
    simp only [hto, hto', Except.ok.injEq] at heq
    have hblock := hv.sectorNo_inj hlt hlt' heq
    simp only [sectorSize] at hne hblock
    omega

/-- A successful `create` of a new name gives a usable file if and only if the
size is legal: nothing else rejects a size for which there is free space. -/
theorem create_usable_iff (hc : Consistent fs d) (junk : Junk) (name : CString) {initialSize : Int}
    (habsent : ∀ i, ((fs.directoryOn d).table i).inUse = true →
      ((fs.directoryOn d).table i).sameName name.bytes = false)
    (hfit : LittleEndian.Fits initialSize) :
    (∀ r d', (fs.create junk name initialSize).run d = .ok (r, d') → r.success = true →
        Usable fs d' name initialSize r.written) ↔
      (0 ≤ initialSize ∧ initialSize ≤ maxFileSize) ∨
      (∀ i, ((fs.directoryOn d).table i).inUse = true) ∨
      (fs.freeMapOn d).numClear < 1 + max 0 (divRoundUp initialSize sectorSize) := by
  by_cases hcan : CanCreate fs d name.bytes initialSize
  · obtain ⟨d₁, i, s, hrun, ha⟩ := create_of_can hc junk hfit hcan
    constructor
    · exact fun h => Or.inl (h _ d₁ hrun rfl).size
    · rintro (hsize | hfull | hfew)
      · intro r d' hrun' _
        rw [hrun, Except.ok.injEq, Prod.mk.injEq] at hrun'
        obtain ⟨rfl, rfl⟩ := hrun'
        exact ha.usable hc hcan hsize
      · obtain ⟨j, hj⟩ := hcan.unused
        exact absurd (hj.symm.trans (hfull j)) Bool.false_ne_true
      · have := hcan.room
        omega
  · have hrun := create_of_not hc junk hcan
    refine iff_of_true (fun r d' hrun' hsuccess => ?_) ?_
    · rw [hrun, Except.ok.injEq, Prod.mk.injEq] at hrun'
      obtain ⟨rfl, rfl⟩ := hrun'
      exact absurd hsuccess Bool.false_ne_true
    · by_contra hnot
      simp only [not_or, not_forall, Bool.not_eq_true, Int.not_lt] at hnot
      exact hcan ⟨habsent, hnot.2.1, hnot.2.2⟩

theorem create_usable_iff_fileA : ∃ fs d, (format zeroJunk).run zeroDisk = .ok (fs, d) ∧
    ((∀ r d', (fs.create zeroJunk fileA 128).run d = .ok (r, d') → r.success = true →
        Usable fs d' fileA 128 r.written) ↔
      ((0 : Int) ≤ 128 ∧ (128 : Int) ≤ maxFileSize) ∨
      (∀ i, ((fs.directoryOn d).table i).inUse = true) ∨
      (fs.freeMapOn d).numClear < 1 + max 0 (divRoundUp 128 sectorSize)) := by
  obtain ⟨fs, d, hformat, hf⟩ := format_run zeroJunk zeroDisk
  refine ⟨fs, d, hformat, create_usable_iff hf.consistent zeroJunk fileA (fun i hu => ?_)
    (by decide)⟩
  exact absurd ((hf.empty i).symm.trans hu) Bool.false_ne_true

/-- Any name can be created in an empty directory, if there is room. -/
theorem Fresh.canCreate (hf : Fresh fs d) (name : Block) {initialSize : Int}
    (hroom : divRoundUp initialSize sectorSize ≤ 1018) : CanCreate fs d name initialSize := by
  refine ⟨fun i hu => absurd ((hf.empty i).symm.trans hu) Bool.false_ne_true, ⟨0, hf.empty 0⟩, ?_⟩
  rw [BitMap.numClear_eq, hf.clear, List.length_range']
  omega

/-- One byte more than a header can hold: `create` stores past the sector table
and reports success. -/
theorem create_past_table : ∃ fs d, (format zeroJunk).run zeroDisk = .ok (fs, d) ∧
    Consistent fs d ∧ (∀ i, ((fs.directoryOn d).table i).inUse = false) ∧
    ∃ r d', (fs.create zeroJunk fileA 3841).run d = .ok (r, d') ∧ r.success = true ∧
      30 ∈ r.written ∧ ¬ Usable fs d' fileA 3841 r.written := by
  obtain ⟨fs, d, hformat, hf⟩ := format_run zeroJunk zeroDisk
  have hround : divRoundUp 3841 sectorSize = 31 := by decide
  have hcan : CanCreate fs d fileA.bytes 3841 := hf.canCreate _ (by rw [hround]; decide)
  obtain ⟨d', i, s, hrun, -⟩ := create_of_can hf.consistent zeroJunk (by decide) hcan
  refine ⟨fs, d, hformat, hf.consistent, hf.empty, _, d', hrun, rfl, ?_, fun h => ?_⟩
  · rw [hround]
    decide
  · exact absurd h.size.2 (by decide)

end FileSystem
end FileSys
end Nachos
