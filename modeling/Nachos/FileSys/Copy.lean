import Nachos.FileSys.ByteArrays
import Nachos.FileSys.Session

/-!
# Copying a file in chunks

`Copy` writes a host file into a new Nachos file, some bytes at a time, and
`Print` reads a Nachos file so.  The source moves `TransferSize` bytes in each
pass; here the two loops have a size each.  Their passes are counted by fuel.
-/

namespace Nachos
namespace FileSys

open Lib LittleEndian FileSystem OpenFile

/-! ## The loops -/

/-- `fread(buffer, sizeof(char), size, fp)`, where `fp` is what is left of the host
file: the count, the buffer, and what is left then. -/
def fread (buffer : Block) (size : Nat) (fp : List UInt8) : Nat × Block × List UInt8 :=
  let chunk := fp.take size
  (chunk.length, buffer.copy 0 chunk.length fun k => chunk.getD k 0, fp.drop size)

/-- The loop of `Copy`. -/
def copyLoop (junk : Junk) (transferSize : Nat) (openFile : OpenFile) (buffer : Block)
    (fp : List UInt8) : Nat → SynchDisk (Option OpenFile)
  | 0 => pure none
  | fuel + 1 =>
    let input := fread buffer transferSize fp
    let amountRead := wrap input.1
    if amountRead > 0 then do
      let result ← openFile.write (junk 0) input.2.1 amountRead
      copyLoop (fun k => junk (k + 1)) transferSize result.1 input.2.1 input.2.2 fuel
    else pure (some openFile)

/-- The loop of `Print`, with the characters each pass prints. -/
def printLoop (transferSize : Int) (openFile : OpenFile) (buffer : Block) :
    Nat → SynchDisk (Option (OpenFile × List (List UInt8)))
  | 0 => pure none
  | fuel + 1 => do
    let result ← openFile.read buffer transferSize
    let amountRead := result.2.1
    if amountRead > 0 then do
      let rest ← printLoop transferSize result.1 result.2.2 fuel
      pure (rest.map fun r => (r.1, result.2.2.bytes amountRead.toNat :: r.2))
    else pure (some (result.1, []))

/-- What `Copy` comes to: the host file or the Nachos file could not be opened, or
the file has been copied, and `openFile` is its handle when the loop ends. -/
inductive Copied
  | noInput
  | notCreated
  | copied (openFile : OpenFile)

/-- What `Print` comes to. -/
inductive Printed
  | notFound
  | printed (openFile : OpenFile) (chunks : List (List UInt8))

/-- `Copy` of the host file with contents `source` to the file `name`. -/
def copy (fs : FileSystem) (junk : Nat → Junk) (transferSize : Nat) (source : Option (List UInt8))
    (name : CString) (fuel : Nat) : SynchDisk (Option Copied) :=
  match source with
  | none => pure (some .noInput)
  | some fp => do
    let created ← fs.create (junk 0) name (wrap fp.length)
    if created.success = false then pure (some .notCreated)
    else
      match ← fs.open (junk 1) name with
      | none => throw .assertFailed
      | some openFile => do
        let result ← copyLoop (junk 2) transferSize openFile (junk 3 0) fp fuel
        pure (result.map .copied)

/-- `Print` of the file `name`. -/
def print (fs : FileSystem) (junk : Nat → Junk) (transferSize : Int) (name : CString)
    (fuel : Nat) : SynchDisk (Option Printed) := do
  match ← fs.open (junk 0) name with
  | none => pure (some .notFound)
  | some openFile =>
    let result ← printLoop transferSize openFile (junk 1 0) fuel
    pure (result.map fun r => .printed r.1 r.2)

/-! ## The loop that writes -/

section Loops

variable {f : OpenFile} {d : Disk}

theorem bytes_fread (buffer : Block) (size : Nat) (fp : List UInt8) :
    (fread buffer size fp).2.1.bytes (fread buffer size fp).1 = fp.take size := by
  apply List.ext_getElem?
  intro k
  simp only [fread]
  by_cases hk : k < (fp.take size).length
  · rw [getElem?_bytes hk, Block.copy, if_pos ⟨Nat.zero_le k, by omega⟩, Nat.sub_zero,
      List.getD_eq_getElem?_getD, List.getElem?_eq_getElem hk, Option.getD_some]
  · rw [getElem?_bytes_of_le (by omega), List.getElem?_eq_none (by omega)]

/-- A request that ends inside the file is transferred in full. -/
theorem transferred_inside {p n : Nat} (hin : ((p + n : Nat) : Int) ≤ f.length) :
    transferred f.length n p = n := by
  rw [transferred]
  by_cases hn : n = 0
  · subst hn
    exact if_pos (.inl (Int.le_refl 0))
  · rw [if_neg (by omega)]
    omega

theorem copyLoop_end (junk : Junk) (size : Nat) (f : OpenFile) (buffer : Block) (fuel : Nat)
    (d : Disk) : (copyLoop junk size f buffer [] (fuel + 1)).run d = .ok (some f, d) := by
  have hread : (fread buffer size []).1 = 0 := by
    rw [fread, List.take_nil]
    rfl
  have hzero : ¬ wrap ((fread buffer size []).1 : Int) > 0 := by
    rw [hread]
    decide
  rw [copyLoop]
  simp only [if_neg hzero]
  rfl

/-- One pass of the loop writes the next chunk of the host file. -/
theorem copyLoop_pass (hv : f.hdr.Valid) {size p : Nat} (hsize : 1 ≤ size) {fp : List UInt8}
    (hfp : fp ≠ []) (hin : ((p + fp.length : Nat) : Int) ≤ f.length) (junk : Junk)
    (buffer : Block) (d : Disk) :
    ∃ d₁, (∀ fuel, (copyLoop junk size (f.seek p) buffer fp (fuel + 1)).run d =
        (copyLoop (fun k => junk (k + 1)) size
          (f.seek ((p + (fp.take size).length : Nat) : Int)) (fread buffer size fp).2.1
          (fp.drop size) fuel).run d₁) ∧
      contents d₁ f.hdr = splice (contents d f.hdr) p (fp.take size) ∧
      ∀ s, s ∉ f.hdr.sectors → d₁.sector s = d.sector s := by
  have hlength : f.length = f.hdr.numBytes := rfl
  have hmax := numBytes_le hv
  have hbytes := bytes_fread buffer size fp
  have hcount : (fread buffer size fp).1 = (fp.take size).length := rfl
  have hlen := List.length_take_le' size fp
  have hpos : 0 < (fp.take size).length := by
    have := List.length_pos_iff.mpr hfp
    rw [List.length_take]
    omega
  have hwrap : wrap ((fp.take size).length : Int) = (fp.take size).length :=
    wrap_of_fits ⟨by omega, by omega⟩
  have hle : ((p + (fp.take size).length : Nat) : Int) ≤ f.length := by
    omega
  have hposition : Fits (p : Int) := ⟨by omega, by omega⟩
  have hfit : Fits ((p : Int) + ((fp.take size).length : Nat)) := ⟨by omega, by omega⟩
  obtain ⟨d₁, -, hwrite, hcontents, hframe⟩ := write_exact hv d (junk 0)
    (fread buffer size fp).2.1 hposition (by omega) hfit (transferred_inside hle).symm (.inl hle)
  refine ⟨d₁, fun fuel => ?_, ?_, hframe⟩
  · rw [copyLoop]
    simp only [hcount, hwrap]
    rw [if_pos (by omega), run_bind hwrite]
    rfl
  · rw [hcontents, Int.toNat_natCast, ← hcount, hbytes]

/-- `k` passes of the loop write all of `fp` to the file, from the seek position on. -/
theorem copyLoop_run (hv : f.hdr.Valid) {size : Nat} (hsize : 1 ≤ size) (k : Nat) :
    ∀ (fp : List UInt8) (p : Nat) (junk : Junk) (buffer : Block) (d : Disk),
      ((p + fp.length : Nat) : Int) ≤ f.length → fp.length ≤ size * k →
      ∃ d', (∀ fuel, k < fuel → (copyLoop junk size (f.seek p) buffer fp fuel).run d =
          .ok (some (f.seek ((p + fp.length : Nat) : Int)), d')) ∧
        contents d' f.hdr = splice (contents d f.hdr) p fp ∧
        ∀ s, s ∉ f.hdr.sectors → d'.sector s = d.sector s := by
  have hlength : f.length = f.hdr.numBytes := rfl
  induction k with
  | zero =>
    intro fp p junk buffer d _ hlen
    obtain rfl : fp = [] := List.length_eq_zero_iff.mp (by omega)
    refine ⟨d, fun fuel hfuel => ?_, (splice_nil _ _).symm, fun _ _ => rfl⟩
    obtain ⟨fuel, rfl⟩ : ∃ n, fuel = n + 1 := ⟨fuel - 1, by omega⟩
    exact copyLoop_end junk size (f.seek p) buffer fuel d
  | succ k ih =>
    intro fp p junk buffer d hin hlen
    by_cases hfp : fp = []
    · subst hfp
      refine ⟨d, fun fuel hfuel => ?_, (splice_nil _ _).symm, fun _ _ => rfl⟩
      obtain ⟨fuel, rfl⟩ : ∃ n, fuel = n + 1 := ⟨fuel - 1, by omega⟩
      exact copyLoop_end junk size (f.seek p) buffer fuel d
    · obtain ⟨d₁, hpass, hfirst, hframe₁⟩ := copyLoop_pass hv hsize hfp hin junk buffer d
      have hsplit : (fp.take size).length + (fp.drop size).length = fp.length := by
        rw [← List.length_append, List.take_append_drop]
      have hrest : (fp.drop size).length ≤ size * k := by
        rw [Nat.mul_succ] at hlen
        rw [List.length_drop]
        omega
      obtain ⟨d', hrun, hcontents, hframe⟩ := ih (fp.drop size) (p + (fp.take size).length)
        (fun k => junk (k + 1)) (fread buffer size fp).2.1 d₁ (by omega) hrest
      have hend : p + (fp.take size).length + (fp.drop size).length = p + fp.length := by omega
      rw [hend] at hrun
      refine ⟨d', fun fuel hfuel => ?_, ?_, fun s hs => (hframe s hs).trans (hframe₁ s hs)⟩
      · obtain ⟨fuel, rfl⟩ : ∃ n, fuel = n + 1 := ⟨fuel - 1, by omega⟩
        rw [hpass, hrun fuel (by omega)]
      · have hspan : p + (fp.take size ++ fp.drop size).length ≤ (contents d f.hdr).length := by
          rw [List.take_append_drop, length_contents]
          omega
        rw [hcontents, hfirst, splice_splice hspan, List.take_append_drop]

/-! ## The loop that reads -/

/-- At the end of the file `Read` returns 0. -/
theorem read_end (hv : f.hdr.Valid) (numBytes : Int) (buffer : Block) (d : Disk) :
    ((f.seek f.length).read buffer numBytes).run d = .ok ((f.seek f.length, 0, buffer), d) := by
  have hlength : f.length = f.hdr.numBytes := rfl
  have hmax := numBytes_le hv
  have hnonneg := hv.nonneg
  have hread : ((f.seek f.length).readAt buffer numBytes f.length).run d =
      .ok ((0, buffer), d) := by
    rw [readAt, if_pos (.inr (Int.le_refl _)), run_pure]
  have hstay : (f.seek f.length).advance ((0 : Nat) : Int) = f.seek f.length := by
    rw [advance_seek f ⟨by omega, by omega⟩, Int.natCast_zero, Int.add_zero]
  rw [OpenFile.read]
  refine (run_bind hread).trans ?_
  rw [run_pure]
  exact congrArg (fun g => Except.ok ((g, 0, buffer), d)) hstay

/-- The position is the end of the file, or `size` bytes can be asked for there. -/
def AtChunk (f : OpenFile) (size p : Nat) : Prop :=
  (p : Int) = f.length ∨ (p : Int) < f.length ∧ Fits (p + size)

/-- One pass of the loop prints the next chunk of the file. -/
theorem printLoop_pass (hv : f.hdr.Valid) {size p : Nat} (hsize : 1 ≤ size)
    (hlt : (p : Int) < f.length) (hfit : Fits ((p : Int) + size)) (buffer : Block) (d : Disk) :
    ∃ (n : Nat) (buffer' : Block), (n : Int) = min (size : Int) (f.length - p) ∧
      buffer'.bytes n = ((contents d f.hdr).drop p).take n ∧
      ∀ fuel, (printLoop size (f.seek p) buffer (fuel + 1)).run d =
        (do
          let rest ← printLoop size (f.seek ((p + n : Nat) : Int)) buffer' fuel
          pure (rest.map fun r => (r.1, buffer'.bytes n :: r.2)) :
            SynchDisk (Option (OpenFile × List (List UInt8)))).run d := by
  have hlength : f.length = f.hdr.numBytes := rfl
  have hmax := numBytes_le hv
  have ht : transferred f.length size p = min (size : Int) (f.length - p) := if_neg (by omega)
  obtain ⟨n, hn, hle⟩ := transferred_bounds f size p
  have hposition : Fits (p : Int) := ⟨by omega, by omega⟩
  obtain ⟨buffer', -, hread, hbytes, -⟩ :=
    read_exact hv d buffer hposition (by omega) hfit hn hle
  refine ⟨n, buffer', hn.trans ht, by rwa [Int.toNat_natCast] at hbytes, fun fuel => ?_⟩
  rw [printLoop, run_bind hread]
  simp only [Int.toNat_natCast]
  rw [if_pos (by omega)]
  rfl

/-- `k` passes of the loop of `Print` from position `p` on print `chunks`: what the
file has from there on, in as many parts as it takes. -/
structure Prints (f : OpenFile) (d : Disk) (size p k : Nat) (buffer : Block)
    (chunks : List (List UInt8)) : Prop where
  run : ∀ fuel, k < fuel → (printLoop size (f.seek p) buffer fuel).run d =
    .ok (some (f.seek f.length, chunks), d)
  flatten : chunks.flatten = (contents d f.hdr).drop p
  length : chunks.length = (f.length.toNat - p + size - 1) / size
  nonempty : ∀ chunk ∈ chunks, chunk ≠ []

theorem prints_end (hv : f.hdr.Valid) {size p : Nat} (hsize : 1 ≤ size) (hp : (p : Int) = f.length)
    (k : Nat) (buffer : Block) (d : Disk) : Prints f d size p k buffer [] := by
  have hlength : f.length = f.hdr.numBytes := rfl
  refine ⟨fun fuel hfuel => ?_, ?_, ?_, fun chunk hmem => absurd hmem List.not_mem_nil⟩
  · obtain ⟨fuel, rfl⟩ : ∃ n, fuel = n + 1 := ⟨fuel - 1, by omega⟩
    rw [hp, printLoop, run_bind (read_end hv size buffer d)]
    rfl
  · rw [List.drop_of_length_le (by rw [length_contents]; omega)]
    rfl
  · rw [List.length_nil, Nat.div_eq_of_lt (by omega)]

/-- One chunk less is left after a pass. -/
theorem chunks_succ {size q n : Nat} (hsize : 1 ≤ size) (hq : 1 ≤ q) (hn : n = min size q) :
    (q - n + size - 1) / size + 1 = (q + size - 1) / size := by
  have hadd : q + size - 1 = q - 1 + size := by omega
  rw [hadd, Nat.add_div_right _ hsize]
  by_cases hle : size ≤ q
  · have hsub : q - n + size - 1 = q - 1 := by omega
    rw [hsub]
  · have hsub : q - n + size - 1 = size - 1 := by omega
    rw [hsub, Nat.div_eq_of_lt (by omega), Nat.div_eq_of_lt (by omega)]

theorem printLoop_run (hv : f.hdr.Valid) {size : Nat} (hsize : 1 ≤ size) (d : Disk) (k : Nat) :
    ∀ (p : Nat) (buffer : Block), AtChunk f size p → f.length ≤ ((p + size * k : Nat) : Int) →
      ∃ chunks, Prints f d size p k buffer chunks := by
  have hlength : f.length = f.hdr.numBytes := rfl
  have hmax := numBytes_le hv
  induction k with
  | zero =>
    intro p buffer hat hle
    rw [Nat.mul_zero, Nat.add_zero] at hle
    rcases hat with heq | ⟨hlt, -⟩
    · exact ⟨[], prints_end hv hsize heq 0 buffer d⟩
    · omega
  | succ k ih =>
    intro p buffer hat hle
    rcases hat with heq | ⟨hlt, hfit⟩
    · exact ⟨[], prints_end hv hsize heq (k + 1) buffer d⟩
    · obtain ⟨n, buffer', hn, hbytes, hpass⟩ := printLoop_pass hv hsize hlt hfit buffer d
      have hnext : AtChunk f size (p + n) := by
        by_cases hlast : f.length ≤ ((p + n : Nat) : Int)
        · exact .inl (by omega)
        · exact .inr ⟨by omega, by omega, by omega⟩
      rw [Nat.mul_succ] at hle
      obtain ⟨chunks, hrest⟩ := ih (p + n) buffer' hnext (by omega)
      refine ⟨buffer'.bytes n :: chunks, fun fuel hfuel => ?_, ?_, ?_, ?_⟩
      · obtain ⟨fuel, rfl⟩ : ∃ n, fuel = n + 1 := ⟨fuel - 1, by omega⟩
        rw [hpass, run_bind (hrest.run fuel (by omega))]
        rfl
      · rw [List.flatten_cons, hrest.flatten, hbytes, ← List.drop_drop, List.take_append_drop]
      · have hsub : f.length.toNat - (p + n) = f.length.toNat - p - n := by omega
        rw [List.length_cons, hrest.length, hsub]
        exact chunks_succ hsize (by omega) (by omega)
      · intro chunk hmem
        rcases List.mem_cons.mp hmem with rfl | hmem
        · exact List.ne_nil_of_length_pos (by rw [length_bytes]; omega)
        · exact hrest.nonempty chunk hmem

end Loops

/-! ## Copying and printing -/

section RoundTrip

variable {fs : FileSystem} {d d₁ d₂ : Disk}

/-- Writing the data of a new file keeps the file system consistent and the file
under its name. -/
theorem FileSystem.Adds.data_write {name : CString} {initialSize : Int} {i : Fin numDirEntries}
    {s : Nat} (ha : Adds fs d d₁ name.bytes initialSize i s) (hc : Consistent fs d₁)
    (hframe : ∀ t, t ∉ (d₁.header s).sectors → d₂.sector t = d₁.sector t) :
    Consistent fs d₂ ∧
      ∀ junk, (fs.open junk name).run d₂ = .ok (some ⟨d₁.header s, 0⟩, d₂) := by
  have hentry : ((fs.directoryOn d₁).table i).inUse = true ∧
      ((fs.directoryOn d₁).table i).sector = s := by
    rw [ha.table_self]
    exact ⟨rfl, rfl⟩
  have hcurrent : Handle.Current ⟨⟨d₁.header s, 0⟩, s, true⟩ fs d₁ :=
    ⟨i, hentry.1, hentry.2, rfl⟩
  have hdata := hcurrent.dataOnly hc
  have hheader : ∀ j, ((fs.directoryOn d₁).table j).inUse = true →
      d₂.sector ((fs.directoryOn d₁).table j).sector =
        d₁.sector ((fs.directoryOn d₁).table j).sector :=
    fun j hj => hframe _ fun hmem => (hdata _ hmem).2 j hj rfl
  obtain ⟨hc₂, hdir, -⟩ := hc.data_write
    (fun t ht => hframe t fun hmem => (hdata t hmem).1 ht) hheader
  have hsame := hheader i hentry.1
  rw [hentry.2] at hsame
  refine ⟨hc₂, fun junk => ?_⟩
  rw [FileSystem.open_run hc₂ junk name, hdir, ha.findIndex hc, Option.map_some, hentry.2,
    header_congr hsame]

theorem print_run {f : OpenFile} (hv : f.hdr.Valid) {name : CString} {size : Nat}
    (hsize : 1 ≤ size) (hfit : Fits size) (hseek : f.seekPosition = 0)
    (hopen : ∀ junk, (fs.open junk name).run d = .ok (some f, d)) (junk : Nat → Junk) :
    ∃ chunks, Prints f d size 0 (f.length.toNat / size + 1) (junk 1 0) chunks ∧
      ∀ fuel, f.length.toNat / size + 1 < fuel → (print fs junk size name fuel).run d =
        .ok (some (.printed (f.seek f.length) chunks), d) := by
  have hlength : f.length = f.hdr.numBytes := rfl
  have hnonneg := hv.nonneg
  obtain ⟨hlo, hhi⟩ := hfit
  have hat : AtChunk f size 0 := by
    by_cases hzero : f.length = 0
    · exact .inl hzero.symm
    · exact .inr ⟨by omega, by omega, by omega⟩
  have hpasses := Nat.lt_mul_div_succ f.length.toNat hsize
  obtain ⟨chunks, hprints⟩ := printLoop_run hv hsize d (f.length.toNat / size + 1) 0 (junk 1 0)
    hat (by omega)
  have hstart : f.seek ((0 : Nat) : Int) = f := by
    rw [Int.natCast_zero, ← hseek]
    rfl
  refine ⟨chunks, hprints, fun fuel hfuel => ?_⟩
  have hrun := hprints.run fuel hfuel
  rw [hstart] at hrun
  rw [print, run_bind (hopen _)]
  exact run_bind hrun

/-- `Copy` to a name that can be created fills a file of that name. -/
theorem copy_run (hc : Consistent fs d) (junk : Nat → Junk) {source : List UInt8}
    (hmax : source.length ≤ maxFileSize) {name : CString} {size : Nat} (hsize : 1 ≤ size)
    (hcan : CanCreate fs d name.bytes source.length) :
    ∃ f d', (∀ fuel, source.length / size + 1 < fuel →
        (copy fs junk size (some source) name fuel).run d =
          .ok (some (.copied (f.seek source.length)), d')) ∧
      f.hdr.Valid ∧ f.length = (source.length : Int) ∧ f.seekPosition = 0 ∧
      contents d' f.hdr = source ∧ Consistent fs d' ∧
      ∀ junk, (fs.open junk name).run d' = .ok (some f, d') := by
  have hlegal : (0 : Int) ≤ source.length ∧ (source.length : Int) ≤ maxFileSize :=
    ⟨by omega, by omega⟩
  have hfits := fits_of_legal hlegal
  obtain ⟨d₁, i, s, hcreate, ha⟩ := create_of_can hc (junk 0) hfits hcan
  have hc₁ := ha.consistent hc hcan.absent hlegal.1 hlegal.2
  have hv := ha.valid hlegal.1 hlegal.2
  have hlen : (d₁.header s).numBytes = source.length := ha.length
  have hopen := ha.open_run hc₁ (junk 1)
  have hpasses := Nat.lt_mul_div_succ source.length hsize
  -- the loop fills the new file
  obtain ⟨d', hloop, hcontents, hframe⟩ :=
    copyLoop_run (f := ⟨d₁.header s, 0⟩) hv hsize (source.length / size + 1) source 0 (junk 2)
      (junk 3 0) d₁ (by rw [Nat.zero_add]; exact Int.le_of_eq hlen.symm) (by omega)
  obtain ⟨hc', hopen'⟩ := ha.data_write hc₁ hframe
  refine ⟨⟨d₁.header s, 0⟩, d', fun fuel hfuel => ?_, hv, hlen, rfl, ?_, hc', hopen'⟩
  · have hrun := hloop fuel hfuel
    rw [Nat.zero_add] at hrun
    rw [copy, wrap_of_fits hfits, run_bind hcreate]
    refine (run_bind hopen).trans ?_
    exact run_bind hrun
  · rw [hcontents, splice_whole]
    rw [length_contents]
    show source.length = (d₁.header s).numBytes.toNat
    rw [hlen, Int.toNat_natCast]

/-- Copying a host file to a new name and printing it gives its bytes back, with
any two sizes of chunks. -/
theorem copy_then_print (hc : Consistent fs d) (junk junk' : Nat → Junk) {source : List UInt8}
    (hmax : source.length ≤ maxFileSize) (name : CString) {c size : Nat} (hchunk : 1 ≤ c)
    (hsize : 1 ≤ size) (hfit : Fits size)
    (hcreate : ∃ r d₁, (fs.create (junk 0) name source.length).run d = .ok (r, d₁) ∧
      r.success = true) :
    ∃ f d' g chunks, (∀ fuel, source.length / c + 1 < fuel →
        (copy fs junk c (some source) name fuel).run d = .ok (some (.copied f), d')) ∧
      f.seekPosition = source.length ∧ Consistent fs d' ∧
      (∀ fuel, source.length / size + 1 < fuel →
        (print fs junk' size name fuel).run d' = .ok (some (.printed g chunks), d')) ∧
      g.seekPosition = source.length ∧ chunks.flatten = source ∧
      chunks.length = (source.length + size - 1) / size ∧ ∀ chunk ∈ chunks, chunk ≠ [] := by
  obtain ⟨r, d₁, hrun, hsuccess⟩ := hcreate
  by_cases hcan : CanCreate fs d name.bytes source.length
  · obtain ⟨f, d', hcopy, hv, hlen, hseek, hcontents, hc', hopen⟩ :=
      copy_run hc junk hmax hchunk hcan
    obtain ⟨chunks, hprints, hprint⟩ := print_run hv hsize hfit hseek hopen junk'
    have hto : f.length.toNat = source.length := by rw [hlen, Int.toNat_natCast]
    have hflatten := hprints.flatten
    have hlength := hprints.length
    rw [hto] at hprint
    rw [hcontents, List.drop_zero] at hflatten
    rw [hto, Nat.sub_zero] at hlength
    exact ⟨_, d', _, chunks, hcopy, rfl, hc', hprint, hlen, hflatten, hlength, hprints.nonempty⟩
  · rw [create_of_not hc (junk 0) hcan, Except.ok.injEq, Prod.mk.injEq] at hrun
    rw [← hrun.1] at hsuccess
    exact absurd hsuccess Bool.false_ne_true

/-- Thirteen bytes, ten at a time as in the source, to a fresh disk. -/
theorem copy_then_print_thirteen : ∃ fs d, (format zeroJunk).run zeroDisk = .ok (fs, d) ∧
    ∃ f d' g chunks, (∀ fuel, 13 / 10 + 1 < fuel →
        (copy fs (fun _ => zeroJunk) 10 (some (List.replicate 13 7)) fileA fuel).run d =
          .ok (some (.copied f), d')) ∧
      f.seekPosition = 13 ∧ Consistent fs d' ∧
      (∀ fuel, 13 / 10 + 1 < fuel →
        (print fs (fun _ => zeroJunk) (10 : Nat) fileA fuel).run d' =
          .ok (some (.printed g chunks), d')) ∧
      g.seekPosition = 13 ∧ chunks.flatten = List.replicate 13 7 ∧ chunks.length = 2 ∧
      ∀ chunk ∈ chunks, chunk ≠ [] := by
  obtain ⟨fs, d, hformat, hf⟩ := format_run zeroJunk zeroDisk
  have hcan : CanCreate fs d fileA.bytes 13 := hf.canCreate _ (by decide)
  obtain ⟨d₁, i, s, hcreate, -⟩ := create_of_can hf.consistent zeroJunk (by decide) hcan
  have hmax : (List.replicate 13 (7 : UInt8)).length ≤ maxFileSize := by decide
  exact ⟨fs, d, hformat, copy_then_print hf.consistent (fun _ => zeroJunk) (fun _ => zeroJunk)
    hmax fileA (by decide) (by decide) (by decide) ⟨_, d₁, hcreate, rfl⟩⟩

end RoundTrip

end FileSys
end Nachos
