import Nachos.FileSys.Copy
import Nachos.FileSys.NamedFiles
import Nachos.UserProg.Image

/-!
# Programs on the simulated disk

`AddrSpace::AddrSpace` once more, in a build whose `OpenFile` is the one of the Nachos
file system.  It loads what it loads from a file of the host, so that a program which
`coff2noff` has converted and `Copy` has put on the disk is in memory as the linker laid
it out.
-/

namespace Nachos
namespace UserProg

open Lib LittleEndian FileSys Machine

/-! ## The constructor -/

/-- `ReadAt`, with the bytes it puts into the buffer. -/
def readBytes (executable : OpenFile) (into : Block) (numBytes position : Int) :
    SynchDisk (List UInt8) := do
  let result ← executable.readAt into numBytes position
  pure (result.2.bytes result.1.toNat)

/-- Copying a segment into memory, which holds `memory` before. -/
def Segment.loadFrom (s : Segment) (executable : OpenFile) (memory : Int → UInt8) :
    SynchDisk (List (Int × UInt8)) :=
  if s.size > 0 then do
    let bytes ← readBytes executable (fun k => memory (s.virtualAddr + k)) s.size s.inFileAddr
    pure (storedAt s.virtualAddr bytes)
  else pure []

/-- `AddrSpace::AddrSpace`. -/
def addrSpaceFrom (junk : Block) (virtualPage : Nat → Word) (memory : Int → UInt8)
    (executable : OpenFile) : SynchDisk (Except LoadError AddrSpace) := do
  let header ← executable.readAt junk headerSize 0
  let noffH := NoffHeader.ofBlock header.2
  if noffH.noffMagic ≠ noffMagicNumber then pure (.error .abort)
  else
    -- how big is the address space?
    let size := unsigned (noffH.code.size + noffH.initData.size + noffH.uninitData.size +
      userStacksAreaSize)
    let numPages := (divRoundUp size pageSize).toNat
    -- check we're not trying to run anything too big
    if numPages > numPhysPages then pure (.error .badAlloc)
    else do
      let pageTable := newPageTable virtualPage numPages
      -- then, copy in the code and data segments into memory
      let code ← noffH.code.loadFrom executable memory
      let initData ← noffH.initData.loadFrom executable (store memory code)
      -- catch NULL dereference
      let pageTable := pageTable.modify 0 fun e => { e with valid := false }
      pure (.ok { noffH, pageTable, numPages, stored := code ++ initData })

/-- `StartProcess` up to `InitRegisters`: nothing when it is unable to open the file. -/
def startProcess (fs : FileSystem) (junk : Junk) (header : Block) (virtualPage : Nat → Word)
    (memory : Int → UInt8) (filename : CString) :
    SynchDisk (Option (Except LoadError AddrSpace)) := do
  match ← fs.open junk filename with
  | none => pure none
  | some executable => some <$> addrSpaceFrom header virtualPage memory executable

/-! ## The two builds -/

section Builds

variable {f : OpenFile} {d : Disk} {junk : Block} {virtualPage : Nat → Word}
  {memory : Int → UInt8}

/-- A request of the constructor does not pass the end of the integers. -/
def Segment.InRange (s : Segment) : Prop :=
  0 < s.size → 0 ≤ s.inFileAddr ∧ LittleEndian.Fits (s.inFileAddr + s.size)

theorem readBytes_run (hv : f.hdr.Valid) (into : Block) {numBytes position : Int}
    (hpos : 0 ≤ position) (hfit : LittleEndian.Fits (position + numBytes)) :
    (readBytes f into numBytes position).run d =
      .ok (((contents d f.hdr).drop position.toNat).take numBytes.toNat, d) := by
  obtain ⟨n, -, hn, hle⟩ := transferred_contents hv d numBytes position
  obtain ⟨into', hrun, hbytes⟩ := readAt_contents hv into ⟨hpos, hfit⟩ (d := d) hn hle
  have htake : ((contents d f.hdr).drop position.toNat).take n =
      ((contents d f.hdr).drop position.toNat).take numBytes.toNat := by
    have hlength := length_contents_int hv d
    rw [List.take_eq_take_iff, List.length_drop]
    unfold OpenFile.transferred at hn
    split at hn <;> omega
  unfold readBytes
  rw [run_bind hrun]
  show Except.ok (into'.bytes ((n : Int).toNat), d) = _
  rw [Int.toNat_natCast, hbytes, htake]

theorem Segment.loadFrom_run (hv : f.hdr.Valid) (d : Disk) (memory : Int → UInt8) {s : Segment}
    (h : s.InRange) :
    ∃ stored, s.load (contents d f.hdr) = .ok stored ∧
      (s.loadFrom f memory).run d = .ok (stored, d) := by
  refine ⟨_, Segment.load_ok _ fun hs => (h hs).1, ?_⟩
  unfold Segment.loadFrom Segment.stored
  by_cases hs : s.size > 0
  · rw [if_pos hs, if_pos hs, run_bind (readBytes_run hv _ (h hs).1 (h hs).2)]
    rfl
  · rw [if_neg hs, if_neg hs]
    rfl

/-- The header, when the file is too short for one as well. -/
theorem header_run (hv : f.hdr.Valid) (d : Disk) (junk : Block) : ∃ count block,
    (f.readAt junk headerSize 0).run d = .ok ((count, block), d) ∧
      NoffHeader.ofBlock block = headerOf junk (contents d f.hdr) := by
  have hfit : LittleEndian.Fits (0 + (headerSize : Int)) := by decide
  refine ⟨_, _, OpenFile.readAt_run hv junk le_rfl hfit, ?_⟩
  unfold headerOf
  congr 1
  funext k
  unfold fileBlock
  rw [List.getD_eq_getElem?_getD, List.getElem?_take]
  by_cases hk : k < headerSize ∧ (k : Int) < f.hdr.numBytes
  · rw [if_pos (OpenFile.lt_transferred_zero.mpr hk), if_pos hk.1, contents,
      getElem?_bytes (by omega), Int.toNat_zero, Nat.zero_add]
    rfl
  · rw [if_neg (mt OpenFile.lt_transferred_zero.mp hk)]
    by_cases hsize : k < headerSize
    · rw [if_pos hsize, contents, getElem?_bytes_of_le (by omega)]
      rfl
    · rw [if_neg hsize]
      rfl

/-- What the constructor loads from a file on the disk is what it loads from a file of
the host with the same bytes. -/
theorem addrSpaceFrom_run (hv : f.hdr.Valid)
    (hcode : (headerOf junk (contents d f.hdr)).code.InRange)
    (hinitData : (headerOf junk (contents d f.hdr)).initData.InRange) :
    (addrSpaceFrom junk virtualPage memory f).run d =
      .ok (addrSpace junk virtualPage (contents d f.hdr), d) := by
  obtain ⟨count, block, hrun, hheader⟩ := header_run hv d junk
  obtain ⟨code, hcodeLoad, hcodeRun⟩ := Segment.loadFrom_run hv d memory hcode
  obtain ⟨initData, hdataLoad, hdataRun⟩ :=
    Segment.loadFrom_run hv d (store memory code) hinitData
  unfold addrSpaceFrom addrSpace
  rw [run_bind hrun]
  dsimp only
  rw [hheader]
  have hheader' : NoffHeader.ofBlock (fileBlock ((contents d f.hdr).take headerSize) junk) =
      headerOf junk (contents d f.hdr) := rfl
  rw [hheader']
  by_cases hmagic : (headerOf junk (contents d f.hdr)).noffMagic ≠ noffMagicNumber
  · rw [if_pos hmagic, if_pos hmagic]
    rfl
  rw [if_neg hmagic, if_neg hmagic]
  by_cases hpages : (divRoundUp (unsigned ((headerOf junk (contents d f.hdr)).code.size +
      (headerOf junk (contents d f.hdr)).initData.size +
      (headerOf junk (contents d f.hdr)).uninitData.size + userStacksAreaSize))
        pageSize).toNat > numPhysPages
  · rw [if_pos hpages, if_pos hpages]
    rfl
  · rw [if_neg hpages, if_neg hpages, run_bind hcodeRun, run_bind hdataRun, hcodeLoad, hdataLoad]
    rfl

end Builds

/-! ## From the linker to memory -/

section Chain

open FileSystem OpenFile

variable {fs : FileSystem} {d : Disk} {coff noff : List UInt8} {junk : Block} {total : Nat}

theorem Segment.For.inRange {body : List UInt8} {g : Segment} {ss : List Scnhdr}
    (h : g.For coff body ss) (hmax : body.length ≤ maxFileSize) : g.InRange := by
  have hmax' : body.length ≤ 3840 := hmax
  intro hsize
  rcases h with ⟨_, hzero⟩ | ⟨s, _, _, hdescribes⟩
  · omega
  · have hstart : (40 : Int) ≤ g.inFileAddr := hdescribes.start
    have hin : g.inFileAddr - (40 : Int) + s.sSize ≤ body.length := hdescribes.inBody
    have hsame := hdescribes.size
    refine ⟨by omega, ?_⟩
    unfold LittleEndian.Fits
    omega

/-- A converted program that lies in a file of the disk. -/
theorem Converted.starts {l : Loop} (h : Converted coff (sections coff) l)
    (hlaid : LaidOut (sections coff) total) (htotal : total + userStacksAreaSize ≤ memorySize)
    (hmax : l.body.length ≤ maxFileSize) {f : OpenFile} (hv : f.hdr.Valid)
    (hcontents : contents d f.hdr = l.noffH.bytes ++ l.body) (header : Block)
    (virtualPage : Nat → Word) (memory : Int → UInt8) :
    (addrSpaceFrom header virtualPage memory f).run d =
      .ok (.ok (loaded header virtualPage (l.noffH.bytes ++ l.body)), d) := by
  have hheader : headerOf header (contents d f.hdr) = l.noffH := by
    rw [hcontents]
    exact headerOf_converted h
  have hcode : (headerOf header (contents d f.hdr)).code.InRange := by
    rw [hheader]
    exact h.code.inRange hmax
  have hinitData : (headerOf header (contents d f.hdr)).initData.InRange := by
    rw [hheader]
    exact h.initData.inRange hmax
  rw [addrSpaceFrom_run hv hcode hinitData, hcontents, addrSpace_ok (h.accepted hlaid htotal)]

/-- **From the linker to memory.**  A program of a COFF file that is laid out as the linker
does and fits, converted by `coff2noff` and copied to a file on the disk, is in memory as
the COFF file has it when `StartProcess` has loaded that file. -/
theorem program_from_disk (hc : Consistent fs d) (hnoff : coff2noff junk coff = .ok noff)
    (hlaid : LaidOut (sections coff) total) (htotal : total + userStacksAreaSize ≤ memorySize)
    (hptr : ∀ s ∈ sections coff, s.kind.Copied → 0 ≤ s.sScnptr)
    (hmax : noff.length ≤ maxFileSize) {name : CString} {size : Nat} (hsize : 1 ≤ size)
    (hcan : CanCreate fs d name.bytes noff.length) (junk' : Nat → Junk) :
    ∃ f d', (∀ fuel, noff.length / size + 1 < fuel →
        (copy fs junk' size (some noff) name fuel).run d = .ok (some (.copied f), d')) ∧
      Consistent fs d' ∧
      ∀ junk₂ header virtualPage memory, ∃ space,
        (startProcess fs junk₂ header virtualPage memory name).run d' =
          .ok (some (.ok space), d') ∧
        ∀ s ∈ sections coff, space.Shows coff s := by
  obtain ⟨l, rfl, hconverted⟩ := converted_of_coff2noff hnoff (hlaid.bounded htotal)
  obtain ⟨f, d', hcopy, hv, _, _, hcontents, hc', hopen⟩ := copy_run hc junk' hmax hsize hcan
  have hbody : l.body.length ≤ maxFileSize := by
    rw [List.length_append] at hmax
    omega
  refine ⟨_, d', hcopy, hc', fun junk₂ header virtualPage memory => ?_⟩
  have hstarts := hconverted.starts hlaid htotal hbody hv hcontents header virtualPage memory
  refine ⟨loaded header virtualPage (l.noffH.bytes ++ l.body), ?_,
    fun s hs => hconverted.shows hlaid hs (hptr s hs)⟩
  unfold startProcess
  rw [run_bind (hopen junk₂)]
  show (some <$> addrSpaceFrom header virtualPage memory f).run d' = _
  rw [StateT.run_map, hstarts]
  rfl

/-- The program of four bytes, on a disk just formatted. -/
theorem program_from_disk_coffFile : ∃ fs d, (format zeroJunk).run zeroDisk = .ok (fs, d) ∧
    ∃ f d', (∀ fuel, 44 / 10 + 1 < fuel →
        (copy fs (fun _ => zeroJunk) 10 (some noffFile) fileA fuel).run d =
          .ok (some (.copied f), d')) ∧
      Consistent fs d' ∧
      ∀ junk₂ header virtualPage memory, ∃ space,
        (startProcess fs junk₂ header virtualPage memory fileA).run d' =
          .ok (some (.ok space), d') ∧
        ∀ s ∈ sections (coffFile 116), space.Shows (coffFile 116) s := by
  obtain ⟨fs, d, hformat, hf⟩ := format_run zeroJunk zeroDisk
  have hcan : CanCreate fs d fileA.bytes noffFile.length := hf.canCreate _ (by decide)
  have hnoff : coff2noff (fun _ => 0) (coffFile 116) = .ok noffFile := by rfl
  have hlaid : LaidOut (sections (coffFile 116)) 4 := by
    rw [sections_coffFile]
    exact laidOut_textSection 116
  have hptr : ∀ s ∈ sections (coffFile 116), s.kind.Copied → 0 ≤ s.sScnptr := by
    intro s hs _
    rw [sections_coffFile] at hs
    rw [List.mem_singleton.mp hs]
    decide
  exact ⟨fs, d, hformat, program_from_disk hf.consistent hnoff hlaid (by decide) hptr
    (by decide) (by decide) hcan fun _ => zeroJunk⟩

end Chain

end UserProg
end Nachos
