import Nachos.FileSys.OpenFile
import Nachos.Lib.Splice

/-!
# Files as byte arrays

The contents of a file are the list of its bytes.  `WriteAt` overwrites part of
that list, and `ReadAt` copies part of it out.
-/

namespace Nachos
namespace FileSys

open Lib LittleEndian

/-- The first `n` bytes of a block. -/
def Block.bytes (b : Block) (n : Nat) : List UInt8 := (List.range n).map b

/-- The bytes of the file whose header is `h`. -/
def contents (d : Disk) (h : FileHeader) : List UInt8 := (fileByte d h).bytes h.numBytes.toNat

section Bytes

variable {b c : Block} {n k : Nat}

theorem length_bytes (b : Block) (n : Nat) : (b.bytes n).length = n := by
  rw [Block.bytes, List.length_map, List.length_range]

theorem getElem?_bytes (hk : k < n) : (b.bytes n)[k]? = some (b k) := by
  rw [Block.bytes, List.getElem?_map, List.getElem?_range hk, Option.map_some]

theorem getElem?_bytes_of_le (hk : n ≤ k) : (b.bytes n)[k]? = none :=
  List.getElem?_eq_none (by rwa [length_bytes])

theorem bytes_congr (h : ∀ k, k < n → b k = c k) : b.bytes n = c.bytes n :=
  List.map_congr_left fun k hk => h k (List.mem_range.mp hk)

theorem length_contents (d : Disk) (h : FileHeader) : (contents d h).length = h.numBytes.toNat :=
  length_bytes _ _

end Bytes

namespace OpenFile

section Transfers

variable {f : OpenFile} {d d' : Disk} {numBytes position : Int}

/-- The bytes of a file in which the request has been overwritten. -/
theorem contents_of_write {src : Block} {n : Nat} (hpos : 0 ≤ position)
    (hle : position + n ≤ f.length ∨ n = 0)
    (hbytes : ∀ k : Nat, (k : Int) < f.length → fileByte d' f.hdr k =
      if position ≤ k ∧ k < position + n then src (k - position.toNat)
      else fileByte d f.hdr k) :
    contents d' f.hdr = splice (contents d f.hdr) position.toNat (src.bytes n) := by
  have hlength : f.length = f.hdr.numBytes := rfl
  obtain ⟨p, rfl⟩ := Int.eq_ofNat_of_zero_le hpos
  rw [Int.toNat_natCast] at hbytes ⊢
  rcases Nat.eq_zero_or_pos n with rfl | hn
  · rw [show src.bytes 0 = [] from rfl, splice_nil]
    refine bytes_congr fun k hk => ?_
    rw [hbytes k (by omega), if_neg (by omega)]
  · have hin : p + n ≤ f.hdr.numBytes.toNat := by omega
    apply List.ext_getElem?
    intro k
    rw [getElem?_splice (by rw [length_bytes, length_contents]; exact hin), length_bytes]
    by_cases hk : k < f.hdr.numBytes.toNat
    · rw [contents, getElem?_bytes hk, hbytes k (by omega)]
      by_cases hspan : p ≤ k ∧ k < p + n
      · rw [if_pos (by omega), if_pos hspan, getElem?_bytes (by omega)]
      · rw [if_neg (by omega), if_neg hspan, contents, getElem?_bytes hk]
    · rw [if_neg (by omega), contents, contents, getElem?_bytes_of_le (by omega),
        getElem?_bytes_of_le (by omega)]

/-- The bytes that a read takes out of the file. -/
theorem bytes_of_read {into : Block} {n : Nat} (hpos : 0 ≤ position)
    (hle : position + n ≤ f.length ∨ n = 0)
    (hbytes : ∀ k, k < n → into k = fileByte d f.hdr (position.toNat + k)) :
    into.bytes n = ((contents d f.hdr).drop position.toNat).take n := by
  have hlength : f.length = f.hdr.numBytes := rfl
  obtain ⟨p, rfl⟩ := Int.eq_ofNat_of_zero_le hpos
  rw [Int.toNat_natCast] at hbytes ⊢
  apply List.ext_getElem?
  intro k
  rw [List.getElem?_take, List.getElem?_drop]
  by_cases hk : k < n
  · rw [if_pos hk, getElem?_bytes hk, contents, getElem?_bytes (by omega), hbytes k hk]
  · rw [if_neg hk, getElem?_bytes_of_le (by omega)]

/-- A request stays inside the file. -/
theorem transferred_bounds (f : OpenFile) (numBytes position : Int) :
    ∃ n : Nat, (n : Int) = transferred f.length numBytes position ∧
      (position + n ≤ f.length ∨ n = 0) := by
  rw [transferred]
  by_cases hreq : numBytes ≤ 0 ∨ position ≥ f.length
  · rw [if_pos hreq]
    exact ⟨0, rfl, .inr rfl⟩
  · rw [if_neg hreq]
    exact ⟨(min numBytes (f.length - position)).toNat, by omega, .inl (by omega)⟩

/-- Moving the seek position past the bytes of a request. -/
theorem advance_seek {n : Nat} (f : OpenFile) (hfit : Fits (position + n)) :
    (f.seek position).advance n = f.seek (position + n) := by
  rw [advance, seek, seek, wrap_of_fits hfit]

/-- A request of `n` bytes at `position` ends at a position that is an `int`. -/
theorem fits_moved (hv : f.hdr.Valid) (hposition : Fits position) {n : Nat}
    (hle : position + n ≤ f.length ∨ n = 0) : Fits (position + n) := by
  have hlength : f.length = f.hdr.numBytes := rfl
  have hmax := numBytes_le hv
  obtain ⟨hlo, hhi⟩ := hposition
  rcases hle with hle | hzero
  · exact ⟨by omega, by omega⟩
  · exact ⟨by omega, by omega⟩

/-- `WriteAt`, and `Write` at the seek position, overwrite part of the contents. -/
theorem write_exact (hv : f.hdr.Valid) (d : Disk) (junk src : Block) (hposition : Fits position)
    (hpos : 0 ≤ position) (hfit : Fits (position + numBytes)) {n : Nat}
    (hn : (n : Int) = transferred f.length numBytes position)
    (hle : position + n ≤ f.length ∨ n = 0) :
    ∃ d', (f.writeAt junk src numBytes position).run d = .ok ((n : Int), d') ∧
      ((f.seek position).write junk src numBytes).run d =
        .ok ((f.seek (position + n), (n : Int)), d') ∧
      contents d' f.hdr = splice (contents d f.hdr) position.toNat (src.bytes n) ∧
      ∀ s, s ∉ f.hdr.sectors → d'.sector s = d.sector s := by
  have hlength : f.length = f.hdr.numBytes := rfl
  obtain ⟨d', hrun, hframe, hbytes⟩ := writeAt_run hv junk src hpos hfit d
  rw [← hlength, ← hn] at hrun
  refine ⟨d', hrun, ?_, ?_, hframe⟩
  · have hwrite : ((f.seek position).writeAt junk src numBytes position).run d =
        .ok ((n : Int), d') := hrun
    rw [← advance_seek f (fits_moved hv hposition hle)]
    exact run_bind hwrite
  · refine contents_of_write hpos hle fun k hk => ?_
    rw [hbytes k hk, ← hlength, ← hn]

/-- `ReadAt`, and `Read` at the seek position, copy part of the contents out. -/
theorem read_exact (hv : f.hdr.Valid) (d : Disk) (into : Block) (hposition : Fits position)
    (hpos : 0 ≤ position) (hfit : Fits (position + numBytes)) {n : Nat}
    (hn : (n : Int) = transferred f.length numBytes position)
    (hle : position + n ≤ f.length ∨ n = 0) :
    ∃ into', (f.readAt into numBytes position).run d = .ok (((n : Int), into'), d) ∧
      ((f.seek position).read into numBytes).run d =
        .ok ((f.seek (position + n), (n : Int), into'), d) ∧
      into'.bytes n = ((contents d f.hdr).drop position.toNat).take n ∧
      ∀ k, n ≤ k → into' k = into k := by
  have hlength : f.length = f.hdr.numBytes := rfl
  have hrun := readAt_run (d := d) hv into hpos hfit
  rw [← hlength, ← hn] at hrun
  refine ⟨_, hrun, ?_, ?_, fun k hk => if_neg (by omega)⟩
  · have hread : ((f.seek position).readAt into numBytes position).run d = .ok (_, d) := hrun
    rw [← advance_seek f (fits_moved hv hposition hle)]
    exact run_bind hread
  · exact bytes_of_read hpos hle fun k hk => if_pos (by omega)

/-- What the four transfers have to do: `n` bytes at `position`. -/
structure Exact (f : OpenFile) (d : Disk) (junk into src : Block) (numBytes position : Int)
    (n : Nat) : Prop where
  writeAt : ∃ d', (f.writeAt junk src numBytes position).run d = .ok ((n : Int), d') ∧
    ((f.seek position).write junk src numBytes).run d =
      .ok ((f.seek (position + n), (n : Int)), d') ∧
    contents d' f.hdr = splice (contents d f.hdr) position.toNat (src.bytes n) ∧
    ∀ s, s ∉ f.hdr.sectors → d'.sector s = d.sector s
  readAt : ∃ into', (f.readAt into numBytes position).run d = .ok (((n : Int), into'), d) ∧
    ((f.seek position).read into numBytes).run d =
      .ok ((f.seek (position + n), (n : Int), into'), d) ∧
    into'.bytes n = ((contents d f.hdr).drop position.toNat).take n ∧
    ∀ k, n ≤ k → into' k = into k

/-- `WriteAt` overwrites the bytes of the request that lie inside the file and no
others, `ReadAt` gives just these bytes and leaves the disk alone, and `Write`
and `Read` do the same at the seek position and move it. -/
theorem transfers_exact (hv : f.hdr.Valid) (d : Disk) (junk into src : Block)
    (hposition : Fits position) (hpos : 0 ≤ position) (hfit : Fits (position + numBytes)) :
    ∃ n : Nat, (n : Int) = transferred f.length numBytes position ∧
      Exact f d junk into src numBytes position n := by
  obtain ⟨n, hn, hle⟩ := transferred_bounds f numBytes position
  exact ⟨n, hn, write_exact hv d junk src hposition hpos hfit hn hle,
    read_exact hv d into hposition hpos hfit hn hle⟩

end Transfers

/-- An open file of ten bytes in sector 5. -/
def tenBytes : OpenFile where
  hdr := { numBytes := 10, numSectors := 1, dataSectors := fun _ => 5 }
  seekPosition := 0

theorem tenBytes_valid : tenBytes.hdr.Valid :=
  ⟨by decide, by decide, by decide, by decide, by decide⟩

/-- Of six bytes at position 7 three lie inside that file. -/
theorem transfers_exact_tenBytes : transferred tenBytes.length 6 7 = 3 ∧
    ∃ n : Nat, (n : Int) = transferred tenBytes.length 6 7 ∧
      Exact tenBytes (fun _ _ => 0) (fun _ => 1) (fun _ => 2) (fun _ => 3) 6 7 n :=
  ⟨by decide, transfers_exact tenBytes_valid _ _ _ _ (by decide) (by decide) (by decide)⟩

end OpenFile
end FileSys
end Nachos
