import Nachos.FileSys.FileHdr

/-!
# Open files

An `OpenFile` keeps a copy of the file's header in memory.  `readAt` and
`writeAt` go through whole sectors: a read copies the part asked for out of
them, and a write first reads the sectors it changes in part.
-/

namespace Nachos
namespace FileSys

open Lib LittleEndian

structure OpenFile where
  hdr : FileHeader
  seekPosition : Int

/-- Byte `k` of the file whose header is `h`, on the disk `d`. -/
def fileByte (d : Disk) (h : FileHeader) : Block :=
  fun k => (d.sector (h.sectorNo (k / sectorSize))).get (k % sectorSize)

namespace OpenFile

/-- `OpenFile::OpenFile`. -/
def new (sector : Int) : SynchDisk OpenFile := do
  let hdr ← FileHeader.fetchFrom sector
  pure { hdr, seekPosition := 0 }

/-- `OpenFile::Length`. -/
def length (f : OpenFile) : Int := f.hdr.numBytes

/-- `OpenFile::Seek`. -/
def seek (f : OpenFile) (position : Int) : OpenFile := { f with seekPosition := position }

/-- The request cut at the end of the file. -/
def clip (fileLength numBytes position : Int) : Int :=
  if wrap (position + numBytes) > fileLength then wrap (fileLength - position) else numBytes

def firstSector (position : Int) : Int := divRoundDown position sectorSize

def lastSector (position numBytes : Int) : Int :=
  divRoundDown (wrap (position + numBytes - 1)) sectorSize

/-- The size of so many sectors, in an `int`. -/
def sectorBytes (sectors : Int) : Int := wrap (sectors * sectorSize)

/-- The loop of `ReadAt`, from sector `i` of the file on. -/
def readLoop (h : FileHeader) (first : Int) (buf : Block) (i : Int) : Nat → SynchDisk Block
  | 0 => pure buf
  | count + 1 => do
    let sector ← h.byteToSector (i * sectorSize)
    let data ← readSector sector
    readLoop h first (buf.copy ((i - first) * sectorSize).toNat sectorSize data.get) (i + 1) count

/-- `ReadAt` after its request check.  The loop fills all of `buf`, unless
`numSectors` is negative and its product wraps.  The buffer then has nearly 2^31 bytes,
fresh from the host and zero, and they are copied. -/
def readSpan (f : OpenFile) (into : Block) (numBytes position : Int) :
    SynchDisk (Int × Block) := do
  let first := firstSector position
  let count := 1 + lastSector position numBytes - first
  let size := sectorBytes count
  if size < 0 then throw .badAlloc
  else
    let buf ← readLoop f.hdr first (fun _ => 0) first count.toNat
    checkRange (position - first * sectorSize) numBytes size
    pure (numBytes,
      into.copy 0 numBytes.toNat (buf.from (position - first * sectorSize).toNat))

/-- `OpenFile::ReadAt`: the count it returns, and the buffer `into` after it. -/
def readAt (f : OpenFile) (into : Block) (numBytes position : Int) : SynchDisk (Int × Block) :=
  if numBytes ≤ 0 ∨ position ≥ f.length then pure (0, into)
  else f.readSpan into (clip f.length numBytes position) position

/-- The file with its seek position moved past `numBytes` bytes. -/
def advance (f : OpenFile) (numBytes : Int) : OpenFile :=
  { f with seekPosition := wrap (f.seekPosition + numBytes) }

/-- `OpenFile::Read`. -/
def read (f : OpenFile) (into : Block) (numBytes : Int) : SynchDisk (OpenFile × Int × Block) := do
  let result ← f.readAt into numBytes f.seekPosition
  pure (f.advance result.1, result)

/-- The loop of `WriteAt`, from sector `i` of the file on. -/
def writeLoop (h : FileHeader) (first : Int) (buf : Block) (i : Int) : Nat → SynchDisk Unit
  | 0 => pure ()
  | count + 1 => do
    let sector ← h.byteToSector (i * sectorSize)
    writeSector sector (Sector.ofBlock (buf.from ((i - first) * sectorSize).toNat))
    writeLoop h first buf (i + 1) count

/-- `ReadAt(&buf[off], SectorSize, sector * SectorSize)` into a buffer of `size`
bytes, skipped unless `wanted`. -/
def readPartial (f : OpenFile) (wanted : Bool) (buf : Block) (off sector size : Int) :
    SynchDisk Block :=
  if wanted then do
    checkRange off sectorSize size
    let result ← f.readAt (buf.from off.toNat) sectorSize (sector * sectorSize)
    pure fun k => if off.toNat ≤ k then result.2 (k - off.toNat) else buf k
  else pure buf

/-- `WriteAt` after its request check.  `junk` is what `new` left in `buf`. -/
def writeSpan (f : OpenFile) (junk src : Block) (numBytes position : Int) : SynchDisk Int := do
  let first := firstSector position
  let last := lastSector position numBytes
  let count := 1 + last - first
  let size := sectorBytes count
  if size < 0 then throw .badAlloc
  else
    let firstAligned := decide (position = first * sectorSize)
    let lastAligned := decide (wrap (position + numBytes) = sectorBytes (last + 1))
    -- read in first and last sector, if they are to be partially modified
    let buf ← f.readPartial (!firstAligned) junk 0 first size
    let buf ← f.readPartial (!lastAligned && (decide (first ≠ last) || firstAligned)) buf
      (sectorBytes (last - first)) last size
    -- copy in the bytes we want to change
    checkRange (position - first * sectorSize) numBytes size
    let buf := buf.copy (position - first * sectorSize).toNat numBytes.toNat src
    -- write modified sectors back
    writeLoop f.hdr first buf first count.toNat
    pure numBytes

/-- `OpenFile::WriteAt` of the bytes at `src`. -/
def writeAt (f : OpenFile) (junk src : Block) (numBytes position : Int) : SynchDisk Int :=
  if numBytes ≤ 0 ∨ position ≥ f.length then pure 0
  else f.writeSpan junk src (clip f.length numBytes position) position

/-- `OpenFile::Write`. -/
def write (f : OpenFile) (junk src : Block) (numBytes : Int) : SynchDisk (OpenFile × Int) := do
  let result ← f.writeAt junk src numBytes f.seekPosition
  pure (f.advance result, result)

/-! ## Reading -/

section Read

variable {h : FileHeader} {d : Disk}

theorem byteToSector_run (hv : h.Valid) {i : Nat} (hi : (i : Int) < h.numSectors) :
    h.byteToSector ((i : Int) * sectorSize) = .ok (h.sectorNo i) := by
  have hb := hv.numSectors_bounds
  have hnonneg : (0 : Int) ≤ (i : Int) * sectorSize := by simp only [sectorSize]; omega
  have hdiv : divRoundDown ((i : Int) * sectorSize) sectorSize = i := by
    rw [divRoundDown_of_nonneg hnonneg]
    simp only [sectorSize]
    omega
  rw [FileHeader.byteToSector, hdiv, h.sectorAt_ok ⟨by omega, by rw [numDirect_eq]; omega⟩,
    Int.toNat_natCast]

theorem fileByte_of_div {i k : Nat} (hk : k / 128 = i) :
    fileByte d h k = (d.sector (h.sectorNo i)).get (k % 128) := by
  simp only [fileByte, sectorSize, hk]

/-- The loop fills the buffer with the file's bytes, sector by sector. -/
theorem readLoop_run (hv : h.Valid) (first : Nat) (count : Nat) :
    ∀ (i : Nat) (buf : Block), first ≤ i → ((i + count : Nat) : Int) ≤ h.numSectors →
      (readLoop h first buf i count).run d =
        .ok (fun k => if (i - first) * 128 ≤ k ∧ k < (i - first + count) * 128
          then fileByte d h (first * 128 + k) else buf k, d) := by
  induction count with
  | zero =>
    intro i buf _ _
    rw [readLoop, run_pure]
    congr 2
    funext k
    exact (if_neg (by omega)).symm
  | succ count ih =>
    intro i buf hi hcount
    have hin : (i : Int) < h.numSectors := by omega
    have hoff : (((i : Int) - first) * sectorSize).toNat = (i - first) * 128 := by
      simp only [sectorSize]
      omega
    have hnext : (i : Int) + 1 = ((i + 1 : Nat) : Int) := by omega
    rw [readLoop, run_lift_bind (byteToSector_run hv hin),
      run_bind (readSector_run (hv.onDisk _ (FileHeader.sectorNo_mem hin)) d), hnext,
      ih (i + 1) _ (by omega) (by omega), hoff]
    congr 2
    funext k
    simp only [Block.copy, sectorSize]
    by_cases hlo : (i - first) * 128 ≤ k
    · by_cases hmid : k < (i - first) * 128 + 128
      · -- the sector just read
        have hdiv : (first * 128 + k) / 128 = i := by omega
        have hmod : (first * 128 + k) % 128 = k - (i - first) * 128 := by omega
        rw [if_neg (by omega), if_pos ⟨hlo, hmid⟩, if_pos (by omega), fileByte_of_div hdiv, hmod]
      · rw [if_neg (c := (i - first) * 128 ≤ k ∧ k < (i - first) * 128 + 128) (by omega)]
        by_cases hhi : k < (i - first + (count + 1)) * 128
        · rw [if_pos (by omega), if_pos (by omega)]
        · rw [if_neg (by omega), if_neg (by omega)]
    · rw [if_neg (by omega), if_neg (by omega), if_neg (by omega)]

theorem firstSector_natCast (p : Nat) : firstSector p = ((p / 128 : Nat) : Int) := by
  rw [firstSector, divRoundDown_of_nonneg (by omega)]
  simp only [sectorSize]
  omega

/-- No product of a request in range wraps. -/
theorem sectorBytes_natCast {n : Nat} (hn : n ≤ 30) : sectorBytes n = ((n * 128 : Nat) : Int) := by
  have hbytes : (n : Int) * sectorSize = ((n * 128 : Nat) : Int) := by
    simp only [sectorSize]
    omega
  rw [sectorBytes, hbytes, wrap_of_fits ⟨by omega, by omega⟩]

theorem lastSector_natCast {p n : Nat} (hn : 0 < n) (hpn : p + n ≤ 3840) :
    lastSector p n = (((p + n - 1) / 128 : Nat) : Int) := by
  have hfit : Fits ((p : Int) + n - 1) := ⟨by omega, by omega⟩
  rw [lastSector, wrap_of_fits hfit, divRoundDown_of_nonneg (by omega)]
  simp only [sectorSize]
  omega

theorem numBytes_le (hv : h.Valid) : h.numBytes ≤ 3840 := by
  have := hv.numSectors_bounds
  omega

/-- A read that stays inside the file returns the bytes asked for. -/
theorem readSpan_run {f : OpenFile} (hv : f.hdr.Valid) (into : Block) {p n : Nat} (hn : 0 < n)
    (hpn : ((p + n : Nat) : Int) ≤ f.hdr.numBytes) :
    (f.readSpan into n p).run d =
      .ok (((n : Int), fun k => if k < n then fileByte d f.hdr (p + k) else into k), d) := by
  have hlen := numBytes_le hv
  have hb := hv.numSectors_bounds
  have hcount : (1 : Int) + (((p + n - 1) / 128 : Nat) : Int) - ((p / 128 : Nat) : Int)
      = ((1 + (p + n - 1) / 128 - p / 128 : Nat) : Int) := by omega
  have hpos : ((p : Int) - ((p / 128 : Nat) : Int) * sectorSize).toNat = p % 128 := by
    simp only [sectorSize]
    omega
  have hrange : (0 : Int) ≤ (p : Int) - ((p / 128 : Nat) : Int) * sectorSize ∧ (0 : Int) ≤ n ∧
      (p : Int) - ((p / 128 : Nat) : Int) * sectorSize + n ≤
        (((1 + (p + n - 1) / 128 - p / 128) * 128 : Nat) : Int) := by
    simp only [sectorSize]
    omega
  have hsize := sectorBytes_natCast (n := 1 + (p + n - 1) / 128 - p / 128) (by omega)
  have hnot : ¬ ((((1 + (p + n - 1) / 128 - p / 128) * 128 : Nat) : Int) < 0) := by omega
  have hlast := lastSector_natCast (p := p) hn (by omega)
  simp only [readSpan, firstSector_natCast, hlast, hcount, hsize, if_neg hnot, Int.toNat_natCast]
  rw [run_bind (readLoop_run hv (p / 128) _ (p / 128) _ (Nat.le_refl _) (by omega)),
    run_lift_bind (checkRange_ok hrange), run_pure]
  refine congrArg (fun b : Block => Except.ok (((n : Int), b), d)) (funext fun k => ?_)
  simp only [Block.copy, Block.from, hpos, Nat.zero_le, true_and, Nat.zero_add, Nat.sub_zero]
  by_cases hk : k < n
  · have hadd : p / 128 * 128 + (p % 128 + k) = p + k := by omega
    rw [if_pos hk, if_pos hk, if_pos (by omega), hadd]
  · rw [if_neg hk, if_neg hk]

/-- How many bytes a request at `position` transfers. -/
def transferred (fileLength numBytes position : Int) : Int :=
  if numBytes ≤ 0 ∨ position ≥ fileLength then 0 else min numBytes (fileLength - position)

/-- A byte that is transferred lies inside the file. -/
theorem lt_of_transferred {len numBytes position : Int} (hpos : 0 ≤ position) {k : Nat}
    (hk : (k : Int) < transferred len numBytes position) :
    ((position.toNat + k : Nat) : Int) < len := by
  rw [transferred] at hk
  split at hk <;> omega

theorem lt_transferred_zero {len : Int} {size k : Nat} :
    (k : Int) < transferred len size 0 ↔ k < size ∧ (k : Int) < len := by
  rw [transferred]
  split <;> omega

theorem clip_eq {len numBytes position : Int} (hn : 0 < numBytes) (hpos : 0 ≤ position)
    (hlt : position < len) (hlen : len ≤ 3840) (hfit : Fits (position + numBytes)) :
    clip len numBytes position = transferred len numBytes position := by
  have hreq : ¬ (numBytes ≤ 0 ∨ position ≥ len) := by omega
  have hrest : Fits (len - position) := ⟨by omega, by omega⟩
  rw [clip, wrap_of_fits hfit, wrap_of_fits hrest, transferred, if_neg hreq]
  by_cases hgt : position + numBytes > len
  · rw [if_pos hgt]
    omega
  · rw [if_neg hgt]
    omega

/-- `ReadAt` of a request in range returns the count of bytes that lie inside
the file and puts exactly those bytes in the buffer. -/
theorem readAt_run {f : OpenFile} (hv : f.hdr.Valid) (into : Block) {numBytes position : Int}
    (hpos : 0 ≤ position) (hfit : Fits (position + numBytes)) :
    (f.readAt into numBytes position).run d =
      .ok ((transferred f.hdr.numBytes numBytes position,
        fun k => if (k : Int) < transferred f.hdr.numBytes numBytes position
          then fileByte d f.hdr (position.toNat + k) else into k), d) := by
  by_cases hreq : numBytes ≤ 0 ∨ position ≥ f.hdr.numBytes
  · have hzero : transferred f.hdr.numBytes numBytes position = 0 := if_pos hreq
    have hnone : (fun k : Nat => if (k : Int) < 0
        then fileByte d f.hdr (position.toNat + k) else into k) = into :=
      funext fun k => if_neg (by omega)
    rw [readAt, length, if_pos hreq, hzero, hnone, run_pure]
  · have hlen := numBytes_le hv
    have hclip := clip_eq (by omega) hpos (by omega) hlen hfit
    obtain ⟨p, rfl⟩ := Int.eq_ofNat_of_zero_le hpos
    have hn : 0 < transferred f.hdr.numBytes numBytes p := by rw [transferred, if_neg hreq]; omega
    have hle : p + transferred f.hdr.numBytes numBytes p ≤ f.hdr.numBytes := by
      rw [transferred, if_neg hreq]
      omega
    obtain ⟨n, hnat⟩ := Int.eq_ofNat_of_zero_le (Int.le_of_lt hn)
    rw [hnat] at hn hle hclip
    rw [readAt, length, if_neg hreq, hclip, hnat, readSpan_run hv into (by omega) (by omega)]
    simp only [Int.toNat_natCast, Int.ofNat_lt]

end Read

/-! ## Writing -/

section Write

variable {h : FileHeader} {d : Disk}

/-- What a file's handle can read depends on its data sectors only. -/
theorem fileByte_congr {d' : Disk} (hv : h.Valid)
    (hsame : ∀ s ∈ h.sectors, d'.sector s = d.sector s) {k : Nat} (hk : (k : Int) < h.numBytes) :
    fileByte d' h k = fileByte d h k := by
  have hb := hv.numSectors_bounds
  have hmem := FileHeader.sectorNo_mem (h := h) (i := k / 128) (by omega)
  simp only [fileByte, sectorSize, hsame _ hmem]

/-- The loop changes the data sectors `i .. i + count - 1` of the file and no
other sector. -/
theorem writeLoop_run (hv : h.Valid) (first : Nat) (buf : Block) (count : Nat) :
    ∀ (i : Nat) (d : Disk), first ≤ i → ((i + count : Nat) : Int) ≤ h.numSectors →
      ∃ d', (writeLoop h first buf i count).run d = .ok ((), d') ∧
        (∀ s, s ∉ h.sectors → d'.sector s = d.sector s) ∧
        ∀ k : Nat, ((k / 128 : Nat) : Int) < h.numSectors → fileByte d' h k =
          if i * 128 ≤ k ∧ k < (i + count) * 128 then buf (k - first * 128)
          else fileByte d h k := by
  induction count with
  | zero =>
    intro i d _ _
    exact ⟨d, rfl, fun _ _ => rfl, fun k _ => (if_neg (by omega)).symm⟩
  | succ count ih =>
    intro i d hi hcount
    have hin : (i : Int) < h.numSectors := by omega
    have hmem := FileHeader.sectorNo_mem hin
    have hoff : (((i : Int) - first) * sectorSize).toNat = (i - first) * 128 := by
      simp only [sectorSize]
      omega
    have hnext : (i : Int) + 1 = ((i + 1 : Nat) : Int) := by omega
    have honDisk := hv.onDisk _ hmem
    obtain ⟨d', hrun, hframe, hbytes⟩ := ih (i + 1)
      (d.store (h.sectorNo i) (Sector.ofBlock (buf.from ((i - first) * 128))))
      (by omega) (by omega)
    refine ⟨d', ?_, fun s hs => ?_, fun k hk => ?_⟩
    · rw [writeLoop, run_lift_bind (byteToSector_run hv hin), hoff,
        run_bind (writeSector_run honDisk _ d), hnext, hrun]
    · have hne : s ≠ h.sectorNo i := fun he => hs (by rwa [he])
      rw [hframe s hs, Disk.sector_store_of_ne hne]
    · rw [hbytes k hk]
      by_cases hlater : (i + 1) * 128 ≤ k ∧ k < (i + 1 + count) * 128
      · rw [if_pos hlater, if_pos (by omega)]
      · rw [if_neg hlater]
        by_cases hki : k / 128 = i
        · -- the sector this pass writes
          have hmod : k % 128 < sectorSize := Nat.mod_lt _ (by decide)
          have hsub : (i - first) * 128 + k % 128 = k - first * 128 := by omega
          rw [if_pos (by omega), fileByte_of_div hki, Disk.sector_store_self honDisk,
            Sector.get_ofBlock hmod, Block.from, hsub]
        · have hne : h.sectorNo (k / 128) ≠ h.sectorNo i :=
            fun he => hki (hv.sectorNo_inj hk hin he)
          rw [if_neg (by omega), fileByte, fileByte, Disk.sector_store_of_ne hne]

/-- Fetching sector `j` of the file into the buffer of a write. -/
theorem readPartial_run {f : OpenFile} (hv : f.hdr.Valid) (wanted : Bool) (buf : Block)
    {first j size : Nat} (hj : first ≤ j) (hlen : ((j * 128 : Nat) : Int) < f.hdr.numBytes)
    (hsize : (j - first) * 128 + 128 ≤ size) :
    (f.readPartial wanted buf (((j - first) * 128 : Nat) : Int) j size).run d =
      .ok (fun k => if wanted = true ∧ (j - first) * 128 ≤ k ∧ k < (j - first) * 128 + 128 ∧
          ((first * 128 + k : Nat) : Int) < f.hdr.numBytes
        then fileByte d f.hdr (first * 128 + k) else buf k, d) := by
  have hmax := numBytes_le hv
  cases wanted with
  | false =>
    rw [readPartial, if_neg Bool.false_ne_true, run_pure]
    simp only [Bool.false_eq_true, false_and, if_false]
  | true =>
    have hpos : (0 : Int) ≤ (j : Int) * sectorSize := by simp only [sectorSize]; omega
    have hfit : Fits ((j : Int) * sectorSize + sectorSize) := by
      simp only [sectorSize]
      exact ⟨by omega, by omega⟩
    have hread := readAt_run (d := d) hv (buf.from ((j - first) * 128)) hpos hfit
    have hto : ((j : Int) * sectorSize).toNat = j * 128 := by
      simp only [sectorSize]
      omega
    have ht : transferred f.hdr.numBytes sectorSize ((j : Int) * sectorSize)
        = min 128 (f.hdr.numBytes - (j * 128 : Nat)) := by
      rw [transferred, if_neg (by simp only [sectorSize]; omega)]
      simp only [sectorSize]
      omega
    rw [hto, ht] at hread
    rw [readPartial, if_pos rfl, Int.toNat_natCast,
      run_lift_bind (checkRange_ok (by simp only [sectorSize]; omega)), run_bind hread, run_pure]
    congr 2
    funext k
    simp only [Int.lt_min]
    by_cases hlo : (j - first) * 128 ≤ k
    · rw [if_pos hlo]
      by_cases hin : k < (j - first) * 128 + 128 ∧ ((first * 128 + k : Nat) : Int) < f.hdr.numBytes
      · have hadd : j * 128 + (k - (j - first) * 128) = first * 128 + k := by omega
        rw [if_pos (by omega), if_pos ⟨trivial, hlo, hin⟩, hadd]
      · have hsub : (j - first) * 128 + (k - (j - first) * 128) = k := by omega
        rw [if_neg (by omega), if_neg (fun hk => hin hk.2.2), Block.from, hsub]
    · rw [if_neg hlo, if_neg (fun hk => hlo hk.2.1)]

/-- What a write that stays inside the file makes of the sectors it goes through.
The bytes behind the end of the file come out of the buffer as `new` left it. -/
theorem writeSpan_bytes {f : OpenFile} (hv : f.hdr.Valid) (junk src : Block) {p n : Nat}
    (hn : 0 < n) (hpn : ((p + n : Nat) : Int) ≤ f.hdr.numBytes) (d : Disk) :
    ∃ d', (f.writeSpan junk src n p).run d = .ok ((n : Int), d') ∧
      (∀ s, s ∉ f.hdr.sectors → d'.sector s = d.sector s) ∧
      ∀ k : Nat, ((k / 128 : Nat) : Int) < f.hdr.numSectors → fileByte d' f.hdr k =
        if p ≤ k ∧ k < p + n then src (k - p)
        else if k / 128 ≤ (p + n - 1) / 128 ∧ f.hdr.numBytes ≤ k then junk (k - p / 128 * 128)
        else fileByte d f.hdr k := by
  have hmax := numBytes_le hv
  have hb := hv.numSectors_bounds
  have hlast := lastSector_natCast (p := p) hn (by omega)
  have hwrap : wrap ((p : Int) + n) = ((p + n : Nat) : Int) :=
    wrap_of_fits ⟨by omega, by omega⟩
  generalize hfd : p / 128 = first at *
  generalize hld : (p + n - 1) / 128 = last at *
  have hle : first ≤ last := by omega
  have hcount : (1 : Int) + (last : Int) - (first : Int) = ((last - first + 1 : Nat) : Int) := by
    omega
  have hnot : ¬ ((((last - first + 1) * 128 : Nat) : Int) < 0) := by omega
  have hpos : ((p : Int) - (first : Int) * sectorSize).toNat = p - first * 128 := by
    simp only [sectorSize]
    omega
  have hrange : (0 : Int) ≤ (p : Int) - (first : Int) * sectorSize ∧ (0 : Int) ≤ n ∧
      (p : Int) - (first : Int) * sectorSize + n ≤ (((last - first + 1) * 128 : Nat) : Int) := by
    simp only [sectorSize]
    omega
  have hsize := sectorBytes_natCast (n := last - first + 1) (by omega)
  have hoff : sectorBytes ((last : Int) - first) = (((last - first) * 128 : Nat) : Int) := by
    rw [← Int.natCast_sub hle, sectorBytes_natCast (by omega)]
  have hend : sectorBytes ((last : Int) + 1) = ((last : Int) + 1) * sectorSize := by
    rw [show (last : Int) + 1 = ((last + 1 : Nat) : Int) from rfl, sectorBytes_natCast (by omega)]
    simp only [sectorSize]
    omega
  -- the two partial sectors, fetched before the bytes of the request go in
  have hspan : (last - first) * 128 + 128 ≤ (last - first + 1) * 128 := by omega
  have hspan₀ : (first - first) * 128 + 128 ≤ (last - first + 1) * 128 := by omega
  have hfirst := readPartial_run (d := d) hv (!decide ((p : Int) = first * sectorSize)) junk
    (Nat.le_refl first) (by omega) hspan₀
  rw [Nat.sub_self, Nat.zero_mul, Int.natCast_zero] at hfirst
  have hlastPart := fun buf => readPartial_run (d := d) hv
    (!decide (((p + n : Nat) : Int) = (last + 1) * sectorSize) &&
      (decide ((first : Int) ≠ last) || decide ((p : Int) = first * sectorSize)))
    buf hle (by omega) hspan
  simp only [writeSpan, firstSector_natCast, hfd, hlast, hcount, if_neg hnot, hwrap, hsize, hoff,
    hend, Int.toNat_natCast, hpos]
  rw [run_bind hfirst, run_bind (hlastPart _),
    run_lift_bind (checkRange_ok hrange)]
  generalize hbuf : Block.copy _ (p - first * 128) n src = buf
  obtain ⟨d', hrun, hframe, hbytes⟩ := writeLoop_run hv first buf (last - first + 1) first d
    (Nat.le_refl _) (by omega)
  refine ⟨d', ?_, hframe, fun k hk => ?_⟩
  · rw [run_bind hrun, run_pure]
  · rw [hbytes k hk]
    by_cases hspan : first * 128 ≤ k ∧ k < (first + (last - first + 1)) * 128
    · have hback : first * 128 + (k - first * 128) = k := by omega
      rw [if_pos hspan, ← hbuf, Block.copy]
      by_cases hin : p ≤ k ∧ k < p + n
      · have hsub : k - first * 128 - (p - first * 128) = k - p := by omega
        rw [if_pos (by omega), if_pos hin, hsub]
      · rw [if_neg (by omega), if_neg hin, hback]
        by_cases hend : f.hdr.numBytes ≤ k
        · -- neither fetch gets behind the end of the file
          rw [if_neg (by omega), if_neg (by omega), if_pos (by omega)]
        · -- a byte of the file around the request comes from a fetched sector
          rw [if_neg (c := k / 128 ≤ last ∧ f.hdr.numBytes ≤ k) (fun h => hend h.2)]
          split
          · rfl
          · rename_i hnotLast
            refine if_pos ?_
            simp only [sectorSize, Bool.and_eq_true, Bool.or_eq_true, Bool.not_eq_true',
              decide_eq_false_iff_not, decide_eq_true_eq] at hnotLast ⊢
            omega
    · rw [if_neg hspan, if_neg (by omega), if_neg (by omega)]

/-- What `WriteAt` makes of the sectors of the file when the request is in range. -/
theorem writeAt_bytes {f : OpenFile} (hv : f.hdr.Valid) (junk src : Block)
    {numBytes position : Int} (hpos : 0 ≤ position) (hfit : Fits (position + numBytes))
    (d : Disk) :
    ∃ (n : Nat) (d' : Disk), (n : Int) = transferred f.hdr.numBytes numBytes position ∧
      (f.writeAt junk src numBytes position).run d = .ok ((n : Int), d') ∧
      (∀ s, s ∉ f.hdr.sectors → d'.sector s = d.sector s) ∧
      ∀ k : Nat, ((k / 128 : Nat) : Int) < f.hdr.numSectors → fileByte d' f.hdr k =
        if position ≤ k ∧ k < position + n then src (k - position.toNat)
        else if 0 < n ∧ k / 128 ≤ (position.toNat + n - 1) / 128 ∧ f.hdr.numBytes ≤ k
        then junk (k - position.toNat / 128 * 128)
        else fileByte d f.hdr k := by
  by_cases hreq : numBytes ≤ 0 ∨ position ≥ f.hdr.numBytes
  · have hzero : transferred f.hdr.numBytes numBytes position = 0 := if_pos hreq
    refine ⟨0, d, hzero.symm, ?_, fun _ _ => rfl, fun k _ => ?_⟩
    · rw [writeAt, length, if_pos hreq]
      rfl
    · rw [if_neg (by omega), if_neg (fun h => absurd h.1 (Nat.lt_irrefl 0))]
  · have hlen := numBytes_le hv
    have hclip := clip_eq (by omega) hpos (by omega) hlen hfit
    obtain ⟨p, rfl⟩ := Int.eq_ofNat_of_zero_le hpos
    have ht : transferred f.hdr.numBytes numBytes p = min numBytes (f.hdr.numBytes - p) :=
      if_neg hreq
    obtain ⟨n, hnat⟩ := Int.eq_ofNat_of_zero_le
      (show 0 ≤ transferred f.hdr.numBytes numBytes p by omega)
    have hn : 0 < n := by omega
    obtain ⟨d', hrun, hframe, hbytes⟩ :=
      writeSpan_bytes hv junk src (p := p) (n := n) hn (by omega) d
    refine ⟨n, d', hnat.symm, ?_, hframe, fun k hk => ?_⟩
    · rw [writeAt, length, if_neg hreq, hclip, hnat, hrun]
    · rw [hbytes k hk, Int.toNat_natCast]
      by_cases hin : p ≤ k ∧ k < p + n
      · rw [if_pos hin, if_pos (by omega)]
      · rw [if_neg hin, if_neg (c := (p : Int) ≤ k ∧ (k : Int) < p + n) (by omega)]
        simp only [hn, true_and]

/-- `WriteAt` of a request in range returns the count of bytes that lie inside
the file, changes exactly those bytes of the file, and no sector that is not one
of the file's own. -/
theorem writeAt_run {f : OpenFile} (hv : f.hdr.Valid) (junk src : Block) {numBytes position : Int}
    (hpos : 0 ≤ position) (hfit : Fits (position + numBytes)) (d : Disk) :
    ∃ d', (f.writeAt junk src numBytes position).run d =
        .ok (transferred f.hdr.numBytes numBytes position, d') ∧
      (∀ s, s ∉ f.hdr.sectors → d'.sector s = d.sector s) ∧
      ∀ k : Nat, (k : Int) < f.hdr.numBytes → fileByte d' f.hdr k =
        if position ≤ k ∧ k < position + transferred f.hdr.numBytes numBytes position
        then src (k - position.toNat) else fileByte d f.hdr k := by
  have hb := hv.numSectors_bounds
  obtain ⟨n, d', hn, hrun, hframe, hbytes⟩ := writeAt_bytes hv junk src hpos hfit d
  refine ⟨d', ?_, hframe, fun k hk => ?_⟩
  · rw [hrun, hn]
  · rw [hbytes k (by omega), ← hn]
    by_cases hin : position ≤ k ∧ (k : Int) < position + n
    · rw [if_pos hin, if_pos hin]
    · rw [if_neg hin, if_neg hin, if_neg (by omega)]

/-- A request for all of a file. -/
theorem transferred_whole {n : Nat} : transferred n n 0 = n := by
  rw [transferred]
  split <;> omega

theorem readAt_whole {f : OpenFile} (hv : f.hdr.Valid) {n : Nat} (hlen : f.hdr.numBytes = n)
    (into : Block) (d : Disk) :
    (f.readAt into n 0).run d =
      .ok (((n : Int), fun k => if k < n then fileByte d f.hdr k else into k), d) := by
  have hmax := numBytes_le hv
  have hfit : Fits (0 + (n : Int)) := ⟨by omega, by omega⟩
  rw [readAt_run hv into (Int.le_refl 0) hfit, hlen, transferred_whole]
  simp only [Int.ofNat_lt, Int.toNat_zero, Nat.zero_add]

theorem writeAt_whole {f : OpenFile} (hv : f.hdr.Valid) {n : Nat} (hlen : f.hdr.numBytes = n)
    (junk src : Block) (d : Disk) :
    ∃ d', (f.writeAt junk src n 0).run d = .ok ((n : Int), d') ∧
      (∀ s, s ∉ f.hdr.sectors → d'.sector s = d.sector s) ∧
      ∀ k, k < n → fileByte d' f.hdr k = src k := by
  have hmax := numBytes_le hv
  have hfit : Fits (0 + (n : Int)) := ⟨by omega, by omega⟩
  obtain ⟨d', hrun, hframe, hbytes⟩ := writeAt_run hv junk src (Int.le_refl 0) hfit d
  rw [hlen, transferred_whole] at hrun hbytes
  refine ⟨d', hrun, hframe, fun k hk => ?_⟩
  rw [hbytes k (by omega), if_pos (by omega), Int.toNat_zero, Nat.sub_zero]

end Write

end OpenFile
end FileSys
end Nachos
