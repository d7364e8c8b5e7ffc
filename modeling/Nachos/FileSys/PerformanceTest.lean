import Nachos.FileSys.Copy
import Nachos.FileSys.NamedFiles

/-!
# The performance test

`PerformanceTest` creates an empty file, appends to it, reads it back and removes it.
Files keep the size that they are created with, and none is as large as the test expects.
-/

namespace Nachos
namespace FileSys

open Lib LittleEndian FileSystem OpenFile

namespace PerformanceTest

/-! ## The test -/

/-- The text of a string of ASCII characters. -/
def text (s : List Char) : List UInt8 := s.map fun c => UInt8.ofNat c.toNat

def fileName : CString :=
  ⟨text ['T', 'e', 's', 't', 'F', 'i', 'l', 'e'], by simp [text]⟩

/-- `Contents` -/
def testContents : Block :=
  fun k => (text ['1', '2', '3', '4', '5', '6', '7', '8', '9', '0']).getD k 0

abbrev contentSize : Nat := 10

/-- The passes of a loop from 0 to `FileSize` in steps of `ContentSize`. -/
abbrev passes : Nat := 5000

/-- The messages after which a part of the test gives up. -/
inductive Message
  /-- "can't create" -/
  | cannotCreate
  /-- "unable to open", in `FileWrite` -/
  | cannotOpen
  /-- "unable to write" -/
  | cannotWrite
  /-- "unable to open file", in `FileRead` -/
  | cannotOpenFile
  /-- "unable to read" -/
  | cannotRead
  /-- "unable to remove" -/
  | cannotRemove

/-- The loop of `FileWrite`. -/
def writeLoop (junk : Junk) (openFile : OpenFile) : Nat → SynchDisk (List Message)
  | 0 => pure []
  | n + 1 => do
    let (openFile, numBytes) ← openFile.write (junk 0) testContents contentSize
    if numBytes < 10 then pure [.cannotWrite]
    else writeLoop (fun k => junk (k + 1)) openFile n

def fileWrite (fs : FileSystem) (junk : Nat → Junk) : SynchDisk (List Message) := do
  let created ← fs.create (junk 0) fileName 0
  if created.success = false then pure [.cannotCreate]
  else
    match ← fs.open (junk 1) fileName with
    | none => pure [.cannotOpen]
    | some openFile => writeLoop (junk 2) openFile passes

/-- The loop of `FileRead`. -/
def readLoop (openFile : OpenFile) (buffer : Block) : Nat → SynchDisk (List Message)
  | 0 => pure []
  | n + 1 => do
    let (openFile, numBytes, buffer) ← openFile.read buffer contentSize
    if numBytes < 10 ∨ strncmpEq buffer testContents 0 contentSize = false then
      pure [.cannotRead]
    else readLoop openFile buffer n

def fileRead (fs : FileSystem) (junk : Nat → Junk) : SynchDisk (List Message) := do
  match ← fs.open (junk 0) fileName with
  | none => pure [.cannotOpenFile]
  | some openFile => readLoop openFile (junk 1 0) passes

/-- `PerformanceTest`, with the messages that it prints. -/
def performanceTest (fs : FileSystem) (junk : Nat → Nat → Junk) : SynchDisk (List Message) := do
  let written ← fileWrite fs (junk 0)
  let read ← fileRead fs (junk 1)
  let removed ← fs.remove (junk 2 0) fileName
  if removed then pure (written ++ read) else pure (written ++ read ++ [.cannotRemove])

/-! ## The loops -/

section

variable {f : OpenFile} {fs : FileSystem} {d d' : Disk}

/-- Nothing can be written to an empty file. -/
theorem writeLoop_empty (hempty : f.length = 0) (junk : Junk) (n : Nat)
    (d : Disk) : (writeLoop junk (f.seek 0) (n + 1)).run d = .ok ([.cannotWrite], d) := by
  have hwrite : ((f.seek 0).writeAt (junk 0) testContents contentSize 0).run d = .ok (0, d) := by
    have hend : (0 : Int) ≥ (f.seek 0).length := hempty.le
    rw [writeAt, if_pos (.inr hend), run_pure]
  rw [writeLoop]
  refine (run_bind (run_bind hwrite)).trans ?_
  rfl

/-- The file ends before the loop does, so a pass reads too little if none before it reads
something else. -/
theorem readLoop_run (hv : f.hdr.Valid) (n : Nat) (p : Nat) (buffer : Block)
    (hp : (p : Int) ≤ f.length) (hend : f.length < (p : Int) + 10 * n) (d : Disk) :
    (readLoop (f.seek p) buffer n).run d = .ok ([.cannotRead], d) := by
  induction n generalizing p buffer with
  | zero => omega
  | succ n ih =>
    have hmax : f.length ≤ 3840 := numBytes_le hv
    have hsize : ((contentSize : Nat) : Int) = 10 := rfl
    obtain ⟨m, hm, hle⟩ := transferred_bounds f contentSize p
    obtain ⟨buffer', -, hread, -⟩ :=
      read_exact hv d buffer ⟨by omega, by omega⟩ (by omega) ⟨by omega, by omega⟩ hm hle
    rw [readLoop]
    refine (run_bind hread).trans ?_
    dsimp only
    by_cases hstop : (m : Int) < 10 ∨ strncmpEq buffer' testContents 0 contentSize = false
    · rw [if_pos hstop]
      rfl
    · rw [if_neg hstop]
      have hten : (10 : Int) ≤ m := not_lt.mp fun h => hstop (.inl h)
      have hinside : (p : Int) + m ≤ f.length := by
        refine hle.resolve_right fun hzero => ?_
        omega
      have hmove : (p : Int) + (m : Int) = ((p + m : Nat) : Int) := rfl
      rw [hmove]
      exact ih (p + m) buffer' hinside (by omega)

/-! ## The three parts -/

theorem fileRead_absent (hc : Consistent fs d) (junk : Nat → Junk)
    (hnone : (fs.directoryOn d).findIndex fileName.bytes = none) :
    (fileRead fs junk).run d = .ok ([.cannotOpenFile], d) := by
  have hopen := FileSystem.open_run hc (junk 0) fileName
  rw [hnone] at hopen
  exact run_bind hopen

/-- No file is as long as the test expects. -/
theorem fileRead_present (hc : Consistent fs d) (junk : Nat → Junk) {i : Fin numDirEntries}
    (hsome : (fs.directoryOn d).findIndex fileName.bytes = some i) :
    (fileRead fs junk).run d = .ok ([.cannotRead], d) := by
  have hopen := FileSystem.open_run hc (junk 0) fileName
  rw [hsome] at hopen
  have hv := hc.fileValid i (Directory.findIndex_some hsome).1
  have hmax : (d.header ((fs.directoryOn d).table i).sector).numBytes ≤ 3840 := numBytes_le hv
  have hnonneg := hv.nonneg
  have hloop := readLoop_run (f := ⟨d.header ((fs.directoryOn d).table i).sector, 0⟩) hv passes 0
    (junk 1 0) hnonneg (hmax.trans_lt (by decide)) d
  refine (run_bind hopen).trans ?_
  exact hloop

theorem fileWrite_refused (hc : Consistent fs d) (junk : Nat → Junk)
    (hnot : ¬ CanCreate fs d fileName.bytes 0) :
    (fileWrite fs junk).run d = .ok ([.cannotCreate], d) :=
  run_bind (create_of_not hc (junk 0) hnot)

/-- The file is created without data, and stays so. -/
theorem fileWrite_created (hc : Consistent fs d) (junk : Nat → Junk)
    (hcan : CanCreate fs d fileName.bytes 0) :
    ∃ d' i s, (fileWrite fs junk).run d = .ok ([.cannotWrite], d') ∧ Consistent fs d' ∧
      Adds fs d d' fileName.bytes 0 i s := by
  obtain ⟨d', i, s, hcreate, ha⟩ := create_of_can hc (junk 0) (by decide) hcan
  have hc' := ha.consistent hc hcan.absent le_rfl (by decide)
  have hloop := writeLoop_empty (f := ⟨d'.header s, 0⟩) ha.length (junk 2) 4999 d'
  refine ⟨d', i, s, ?_, hc', ha⟩
  refine (run_bind hcreate).trans ((run_bind (ha.open_run hc' (junk 1))).trans ?_)
  exact hloop

/-! ## The whole test -/

/-- The performance test passes on no disk.  If the file can be created, no byte is written
to it, none is read from it, and the file system is left as it was.  If a file of that name is
there, its bytes are not what the test looks for, and it is removed.  Else nothing happens. -/
theorem performanceTest_fails (hc : Consistent fs d) (junk : Nat → Nat → Junk) :
    (CanCreate fs d fileName.bytes 0 →
      ∃ d', (performanceTest fs junk).run d = .ok ([.cannotWrite, .cannotRead], d') ∧
        Consistent fs d' ∧ (∀ i, fs.fileSlot d' i = fs.fileSlot d i) ∧
        (fs.freeMapOn d').clearBits = (fs.freeMapOn d).clearBits) ∧
    (∀ i, (fs.directoryOn d).findIndex fileName.bytes = some i →
      ∃ d', (performanceTest fs junk).run d = .ok ([.cannotCreate, .cannotRead], d') ∧
        Consistent fs d' ∧ fs.fileSlot d' i = none ∧
        ∀ j, j ≠ i → fs.fileSlot d' j = fs.fileSlot d j) ∧
    (¬ CanCreate fs d fileName.bytes 0 → (fs.directoryOn d).findIndex fileName.bytes = none →
      (performanceTest fs junk).run d =
        .ok ([.cannotCreate, .cannotOpenFile, .cannotRemove], d)) := by
  refine ⟨fun hcan => ?_, fun i hsome => ?_, fun hnot hnone => ?_⟩
  · obtain ⟨d₁, i, s, hwrite, hc₁, ha⟩ := fileWrite_created hc (junk 0) hcan
    have hfound := ha.findIndex hc₁
    obtain ⟨d₂, hremove, hr⟩ := remove_of_some hc₁ (junk 2 0) hfound
    have hrun : (performanceTest fs junk).run d = .ok ([.cannotWrite, .cannotRead], d₂) :=
      (run_bind hwrite).trans ((run_bind (fileRead_present hc₁ (junk 1) hfound)).trans
        (run_bind hremove))
    refine ⟨d₂, hrun, hr.consistent hc₁, fun j => ?_, hr.restores ha (by decide)⟩
    by_cases hj : j = i
    · rw [hj, fileSlot_removed hr, fileSlot_of_unused ha.unused]
    · rw [fileSlot_removes hc₁ hr hj, fileSlot_adds hc ha hj]
  · have hnot : ¬ CanCreate fs d fileName.bytes 0 := fun hcan => by
      obtain ⟨hu, hname⟩ := Directory.findIndex_some hsome
      exact Bool.false_ne_true ((hcan.absent i hu).symm.trans hname)
    obtain ⟨d', hremove, hr⟩ := remove_of_some hc (junk 2 0) hsome
    have hrun : (performanceTest fs junk).run d = .ok ([.cannotCreate, .cannotRead], d') :=
      (run_bind (fileWrite_refused hc (junk 0) hnot)).trans
        ((run_bind (fileRead_present hc (junk 1) hsome)).trans (run_bind hremove))
    exact ⟨d', hrun, hr.consistent hc, fileSlot_removed hr, fun j hj => fileSlot_removes hc hr hj⟩
  · exact (run_bind (fileWrite_refused hc (junk 0) hnot)).trans
      ((run_bind (fileRead_absent hc (junk 1) hnone)).trans
        (run_bind (remove_of_none hc (junk 2 0) hnone)))

/-- On a disk that has just been formatted. -/
theorem performanceTest_fails_fresh : ∃ fs d, (format zeroJunk).run zeroDisk = .ok (fs, d) ∧
    ∃ d', (performanceTest fs fun _ _ => zeroJunk).run d =
        .ok ([.cannotWrite, .cannotRead], d') ∧
      Consistent fs d' ∧ (∀ i, fs.fileSlot d' i = fs.fileSlot d i) ∧
      (fs.freeMapOn d').clearBits = (fs.freeMapOn d).clearBits := by
  obtain ⟨fs, d, hformat, hf⟩ := format_run zeroJunk zeroDisk
  have hcan : CanCreate fs d fileName.bytes 0 := hf.canCreate _ (by decide)
  exact ⟨fs, d, hformat, (performanceTest_fails hf.consistent fun _ _ => zeroJunk).1 hcan⟩

end

end PerformanceTest

end FileSys
end Nachos
