import Nachos.FileSys.Operations
import Nachos.FileSys.SectorProgram

/-!
# The sectors an operation gets to

A transfer reads and writes the sectors that hold the bytes it transfers.
`create` writes the new header, the directory and the free map, in this order,
and `remove` the free map and the directory.  Each writes no sector twice.
-/

namespace Nachos
namespace FileSys
namespace SectorProgram

open Lib LittleEndian

variable {α β : Type} {x : SectorProgram α} {f : α → SectorProgram β} {d d' : Disk} {a : α}
  {R W : Fin numSectors → Prop}

/-- The sectors that the run from `d` writes, in order. -/
def sectorsWritten (x : SectorProgram α) (d : Disk) : List Int :=
  (x.writes d).map fun w => ((w.1 : Nat) : Int)

theorem sectorsWritten_bind (h : x.run d = .ok (a, d')) :
    sectorsWritten (x >>= f) d = sectorsWritten x d ++ sectorsWritten (f a) d' := by
  rw [sectorsWritten, StoreProgram.writes_bind h, List.map_append]
  rfl

theorem sectorsWritten_of_reads (h : x.Touches R (fun _ => False) d) :
    sectorsWritten x d = [] := by
  rw [sectorsWritten, h.writes_eq_nil]
  rfl

/-- Code that reads comes first: the writes are those of the rest. -/
theorem sectorsWritten_reads_bind (hx : x.Touches R (fun _ => False) d)
    (h : x.run d = .ok (a, d)) : sectorsWritten (x >>= f) d = sectorsWritten (f a) d := by
  rw [sectorsWritten_bind h, sectorsWritten_of_reads hx, List.nil_append]

theorem sectorsWritten_of_run {b : β} (hx : x.Touches R (fun _ => False) d)
    (h : (x >>= f).run d = .ok (b, d')) : ∃ a, (f a).run d = .ok (b, d') ∧
      sectorsWritten (x >>= f) d = sectorsWritten (f a) d := by
  obtain ⟨a, d₁, hrun, hf⟩ := StoreProgram.run_bind_ok.mp h
  obtain rfl := hx.reads_run hrun
  exact ⟨a, hf, sectorsWritten_reads_bind hx hrun⟩

theorem sectorsWritten_writeSector {n : Int} (h : OnDisk n) (data : Sector) :
    sectorsWritten (writeSector n data) d = [n] := by
  rw [writeSector_of h]
  exact congrArg (fun m => [m]) (cell_coe h)

/-- A program that writes no sector twice, stopped after `n` of them. -/
theorem sector_stopped (h : x.run d = .ok (a, d')) (hnodup : (sectorsWritten x d).Nodup)
    (n : Nat) {s : Int} (hs : OnDisk s) : Disk.sector (x.stopped d n) s =
      if s ∈ (sectorsWritten x d).take n then d'.sector s else d.sector s := by
  have hcells : sectorsWritten x d =
      ((x.writes d).map Prod.fst).map fun m : Fin numSectors => ((m : Nat) : Int) := by
    rw [sectorsWritten, List.map_map]
    rfl
  have hinj : Function.Injective fun m : Fin numSectors => ((m : Nat) : Int) :=
    fun _ _ he => Fin.ext (Int.ofNat.inj he)
  have hmem : s ∈ (sectorsWritten x d).take n ↔
      cell s hs ∈ ((x.writes d).map Prod.fst).take n := by
    rw [hcells, ← List.map_take, ← List.mem_map_of_injective hinj]
    show _ ↔ ((cell s hs : Nat) : Int) ∈ _
    rw [cell_coe]
  rw [hcells] at hnodup
  rw [sector_eq_cell _ hs, StoreProgram.stopped_eq h (List.Nodup.of_map _ hnodup),
    sector_eq_cell _ hs, sector_eq_cell _ hs, if_congr hmem rfl rfl]

/-- Stopped after the last of its writes. -/
theorem stopped_of_length (h : x.run d = .ok (a, d')) {n : Nat}
    (hn : (sectorsWritten x d).length ≤ n) : x.stopped d n = d' :=
  StoreProgram.stopped_of_le h (by rwa [sectorsWritten, List.length_map] at hn)

theorem stopped_of_nil (h : sectorsWritten x d = []) (n : Nat) : x.stopped d n = d := by
  rw [StoreProgram.stopped, List.map_eq_nil_iff.mp h, List.take_nil]
  rfl

/-! ## Transfers -/

section Transfers

variable {h : FileHeader} {file : OpenFile}

/-- The sector holds one of the bytes `p .. p + n - 1` of the file. -/
def Holds (h : FileHeader) (p n : Nat) (k : Fin numSectors) : Prop :=
  ∃ b, p ≤ b ∧ b < p + n ∧ ((k : Nat) : Int) = h.sectorNo (b / 128)

theorem Holds.mem {p n : Nat} {k : Fin numSectors} (hv : h.Valid) (hk : Holds h p n k)
    (hpn : ((p + n : Nat) : Int) ≤ h.numBytes) : ((k : Nat) : Int) ∈ h.sectors := by
  obtain ⟨b, hlo, hhi, he⟩ := hk
  have hb := hv.numSectors_bounds
  rw [he]
  exact FileHeader.sectorNo_mem (by omega)

theorem holds_of_sectorNo {p n j : Nat} (hlo : p / 128 ≤ j) (hhi : j ≤ (p + n - 1) / 128)
    (hn : 0 < n) {k : Fin numSectors} (hk : ((k : Nat) : Int) = h.sectorNo j) :
    Holds h p n k := by
  refine ⟨max p (j * 128), by omega, by omega, ?_⟩
  have hdiv : max p (j * 128) / 128 = j := by omega
  rw [hdiv, hk]

theorem check_ok {e : Except Fault α} (h : e = .ok a) : check e = .done a := by
  rw [h]
  rfl

theorem readLoop_touches (hv : h.Valid) (first : Nat) (count : Nat) :
    ∀ (i : Nat) (buf : Block), ((i + count : Nat) : Int) ≤ h.numSectors →
      (∀ j, i ≤ j → j < i + count → ∀ k : Fin numSectors,
        ((k : Nat) : Int) = h.sectorNo j → R k) →
      (OpenFile.readLoop h first buf i count).Touches R W d := by
  induction count with
  | zero => exact fun _ _ _ _ => .done
  | succ count ih =>
    intro i buf hcount hR
    have hin : (i : Int) < h.numSectors := by omega
    have honDisk := hv.onDisk _ (FileHeader.sectorNo_mem hin)
    have hnext : (i : Int) + 1 = ((i + 1 : Nat) : Int) := by omega
    rw [OpenFile.readLoop, check_ok (OpenFile.byteToSector_run hv hin), StoreProgram.done_bind,
      readSector_of honDisk, hnext]
    exact .read (hR i (Nat.le_refl i) (by omega) _ (cell_coe honDisk))
      (ih (i + 1) _ (by omega) fun j hj hlt => hR j (by omega) (by omega))

theorem writeLoop_touches (hv : h.Valid) (first : Nat) (buf : Block) (count : Nat) :
    ∀ (i : Nat) (d : Disk), ((i + count : Nat) : Int) ≤ h.numSectors →
      (∀ j, i ≤ j → j < i + count → ∀ k : Fin numSectors,
        ((k : Nat) : Int) = h.sectorNo j → W k) →
      (OpenFile.writeLoop h first buf i count).Touches R W d := by
  induction count with
  | zero => exact fun _ _ _ _ => .done
  | succ count ih =>
    intro i d hcount hW
    have hin : (i : Int) < h.numSectors := by omega
    have honDisk := hv.onDisk _ (FileHeader.sectorNo_mem hin)
    have hnext : (i : Int) + 1 = ((i + 1 : Nat) : Int) := by omega
    rw [OpenFile.writeLoop, check_ok (OpenFile.byteToSector_run hv hin), StoreProgram.done_bind,
      writeSector_of honDisk, hnext]
    exact .write (hW i (Nat.le_refl i) (by omega) _ (cell_coe honDisk))
      (ih (i + 1) _ (by omega) fun j hj hlt => hW j (by omega) (by omega))

theorem sectorsWritten_writeLoop (hv : h.Valid) (first : Nat) (buf : Block) (count : Nat) :
    ∀ (i : Nat) (d : Disk), ((i + count : Nat) : Int) ≤ h.numSectors →
      sectorsWritten (OpenFile.writeLoop h first buf i count) d =
        (List.range' i count).map h.sectorNo := by
  induction count with
  | zero => exact fun _ _ _ => rfl
  | succ count ih =>
    intro i d hcount
    have hin : (i : Int) < h.numSectors := by omega
    have honDisk := hv.onDisk _ (FileHeader.sectorNo_mem hin)
    have hnext : (i : Int) + 1 = ((i + 1 : Nat) : Int) := by omega
    rw [OpenFile.writeLoop, check_ok (OpenFile.byteToSector_run hv hin), StoreProgram.done_bind,
      writeSector_of honDisk, hnext, List.range'_succ, List.map_cons]
    exact congrArg₂ List.cons (cell_coe honDisk) (ih (i + 1) _ (by omega))

theorem check_touches (e : Except Fault α) : (check e).Touches R W d := by
  cases e with
  | ok a => exact .done
  | error e => exact .fail

theorem readSpan_touches (hv : file.hdr.Valid) (into : Block) {p n : Nat} (hn : 0 < n)
    (hpn : ((p + n : Nat) : Int) ≤ file.hdr.numBytes) :
    (OpenFile.readSpan file into n p).Touches (Holds file.hdr p n) W d := by
  have hlen := OpenFile.numBytes_le hv
  have hb := hv.numSectors_bounds
  have hcount : (1 : Int) + (((p + n - 1) / 128 : Nat) : Int) - ((p / 128 : Nat) : Int)
      = ((1 + (p + n - 1) / 128 - p / 128 : Nat) : Int) := by omega
  have hsize := OpenFile.sectorBytes_natCast (n := 1 + (p + n - 1) / 128 - p / 128) (by omega)
  have hnot : ¬ ((((1 + (p + n - 1) / 128 - p / 128) * 128 : Nat) : Int) < 0) := by omega
  have hlast := OpenFile.lastSector_natCast (p := p) hn (by omega)
  simp only [OpenFile.readSpan, OpenFile.firstSector_natCast, hlast, hcount, hsize, if_neg hnot,
    Int.toNat_natCast]
  refine (readLoop_touches hv (p / 128) _ (p / 128) _ (by omega) fun j hlo hhi k hk =>
    holds_of_sectorNo hlo (by omega) hn hk).bind fun buf s' _ => ?_
  exact (check_touches _).bind fun _ _ _ => .done

theorem readAt_touches (hv : file.hdr.Valid) (into : Block) {numBytes position : Int}
    (hpos : 0 ≤ position) (hfit : Fits (position + numBytes)) :
    (OpenFile.readAt file into numBytes position).Touches (Holds file.hdr position.toNat
      (OpenFile.transferred file.hdr.numBytes numBytes position).toNat) W d := by
  rw [OpenFile.readAt]
  refine .ite (fun _ => .done) fun hreq => ?_
  rw [FileSys.OpenFile.length] at hreq
  have hlen := OpenFile.numBytes_le hv
  have hclip := OpenFile.clip_eq (by omega) hpos (by omega) hlen hfit
  have ht : OpenFile.transferred file.hdr.numBytes numBytes position =
      min numBytes (file.hdr.numBytes - position) := if_neg hreq
  obtain ⟨p, rfl⟩ := Int.eq_ofNat_of_zero_le hpos
  obtain ⟨n, hn⟩ := Int.eq_ofNat_of_zero_le
    (show 0 ≤ OpenFile.transferred file.hdr.numBytes numBytes p by omega)
  rw [FileSys.OpenFile.length, hclip, hn, Int.toNat_natCast, Int.toNat_natCast]
  exact readSpan_touches hv into (by omega) (by omega)

/-- A partial fetch reads the one sector it is for. -/
theorem readPartial_touches (hv : file.hdr.Valid) (wanted : Bool) (buf : Block) (off size : Int)
    {j : Nat} (hlen : ((j * 128 : Nat) : Int) < file.hdr.numBytes)
    (hR : ∀ k : Fin numSectors, ((k : Nat) : Int) = file.hdr.sectorNo j → R k) :
    (OpenFile.readPartial file wanted buf off j size).Touches R W d := by
  have hmax := OpenFile.numBytes_le hv
  have hpos : (0 : Int) ≤ (j : Int) * sectorSize := by simp only [sectorSize]; omega
  have hfit : Fits ((j : Int) * sectorSize + sectorSize) := by
    simp only [sectorSize]
    exact ⟨by omega, by omega⟩
  have hmoved : OpenFile.transferred file.hdr.numBytes sectorSize ((j : Int) * sectorSize) ≤
      128 := by
    rw [OpenFile.transferred, if_neg (by simp only [sectorSize]; omega)]
    simp only [sectorSize]
    omega
  rw [OpenFile.readPartial]
  refine .ite (fun _ => ?_) fun _ => .done
  refine (check_touches _).bind fun _ s' _ => ?_
  refine ((readAt_touches hv _ hpos hfit).mono (fun k hk => hR k ?_) fun _ h => h).bind
    fun _ _ _ => .done
  obtain ⟨b, hlo, hhi, he⟩ := hk
  have hdiv : b / 128 = j := by
    simp only [sectorSize] at hlo hhi hmoved
    omega
  rw [he, hdiv]

/-- The two partial fetches read the first and the last sector of the request. -/
theorem writeSpan_touches (hv : file.hdr.Valid) (junk src : Block) {p n : Nat} (hn : 0 < n)
    (hpn : ((p + n : Nat) : Int) ≤ file.hdr.numBytes) :
    (OpenFile.writeSpan file junk src n p).Touches (Holds file.hdr p n) (Holds file.hdr p n) d := by
  have hlen := OpenFile.numBytes_le hv
  have hb := hv.numSectors_bounds
  have hlast := OpenFile.lastSector_natCast (p := p) hn (by omega)
  have hcount : (1 : Int) + (((p + n - 1) / 128 : Nat) : Int) - ((p / 128 : Nat) : Int)
      = (((p + n - 1) / 128 - p / 128 + 1 : Nat) : Int) := by omega
  have hsize := OpenFile.sectorBytes_natCast (n := (p + n - 1) / 128 - p / 128 + 1) (by omega)
  have hnot : ¬ (((((p + n - 1) / 128 - p / 128 + 1) * 128 : Nat) : Int) < 0) := by omega
  simp only [OpenFile.writeSpan, OpenFile.firstSector_natCast, hlast, hcount, hsize, if_neg hnot,
    Int.toNat_natCast]
  refine (readPartial_touches hv _ _ _ _ (by omega) fun k hk =>
    holds_of_sectorNo (Nat.le_refl _) (by omega) hn hk).bind fun buf s₁ _ => ?_
  refine (readPartial_touches hv _ _ _ _ (by omega) fun k hk =>
    holds_of_sectorNo (by omega) (Nat.le_refl _) hn hk).bind fun buf s₂ _ => ?_
  refine (check_touches _).bind fun _ s₃ _ => ?_
  refine (writeLoop_touches hv _ _ _ _ _ (by omega) fun j hlo hhi k hk =>
    holds_of_sectorNo hlo (by omega) hn hk).bind fun _ _ _ => .done

theorem sectorsWritten_writeSpan (hv : file.hdr.Valid) (junk src : Block) {p n : Nat} (hn : 0 < n)
    (hpn : ((p + n : Nat) : Int) ≤ file.hdr.numBytes) :
    sectorsWritten (OpenFile.writeSpan file junk src n p) d =
      (List.range' (p / 128) ((p + n - 1) / 128 - p / 128 + 1)).map file.hdr.sectorNo := by
  have hlen := OpenFile.numBytes_le hv
  have hb := hv.numSectors_bounds
  have hlast := OpenFile.lastSector_natCast (p := p) hn (by omega)
  have hcount : (1 : Int) + (((p + n - 1) / 128 : Nat) : Int) - ((p / 128 : Nat) : Int)
      = (((p + n - 1) / 128 - p / 128 + 1 : Nat) : Int) := by omega
  have hsize := OpenFile.sectorBytes_natCast (n := (p + n - 1) / 128 - p / 128 + 1) (by omega)
  have hnot : ¬ (((((p + n - 1) / 128 - p / 128 + 1) * 128 : Nat) : Int) < 0) := by omega
  obtain ⟨d', hrun, -⟩ := OpenFile.writeSpan_bytes hv junk src hn hpn d
  have hrun : (OpenFile.writeSpan file junk src n p).run d = .ok ((n : Int), d') := by
    rw [run_writeSpan]
    exact hrun
  simp only [OpenFile.writeSpan, OpenFile.firstSector_natCast, hlast, hcount, hsize, if_neg hnot,
    Int.toNat_natCast] at hrun ⊢
  obtain ⟨buf₁, hrun, heq⟩ := sectorsWritten_of_run
    (readPartial_touches hv _ _ _ _ (by omega) fun _ _ => trivial) hrun
  rw [heq]
  obtain ⟨buf₂, hrun, heq⟩ := sectorsWritten_of_run
    (readPartial_touches hv _ _ _ _ (by omega) fun _ _ => trivial) hrun
  rw [heq]
  obtain ⟨_, hrun, heq⟩ := sectorsWritten_of_run (R := fun _ => True) (check_touches _) hrun
  rw [heq]
  obtain ⟨_, d₁, hloop, -⟩ := StoreProgram.run_bind_ok.mp hrun
  rw [sectorsWritten_bind hloop, sectorsWritten_writeLoop hv _ _ _ _ _ (by omega)]
  exact List.append_nil _

/-- A request in range that transfers something is one for the bytes it transfers. -/
theorem writeAt_eq (hv : file.hdr.Valid) (junk src : Block) {numBytes position : Int}
    (hpos : 0 ≤ position) (hfit : Fits (position + numBytes)) :
    let n := (OpenFile.transferred file.hdr.numBytes numBytes position).toNat
    (n ≠ 0 → ((position.toNat + n : Nat) : Int) ≤ file.hdr.numBytes) ∧
      OpenFile.writeAt file junk src numBytes position = if n = 0 then pure 0
        else OpenFile.writeSpan file junk src (n : Nat) (position.toNat : Nat) := by
  intro n
  rw [OpenFile.writeAt, FileSys.OpenFile.length]
  by_cases hreq : numBytes ≤ 0 ∨ position ≥ file.hdr.numBytes
  · have hn : n = 0 := by
      show (OpenFile.transferred file.hdr.numBytes numBytes position).toNat = 0
      rw [OpenFile.transferred, if_pos hreq]
      rfl
    rw [if_pos hreq, if_pos hn]
    exact ⟨fun h => absurd hn h, rfl⟩
  · have hlen := OpenFile.numBytes_le hv
    have ht : OpenFile.transferred file.hdr.numBytes numBytes position =
        min numBytes (file.hdr.numBytes - position) := if_neg hreq
    have hn : (n : Int) = min numBytes (file.hdr.numBytes - position) := by
      rw [← ht]
      exact Int.toNat_of_nonneg (by omega)
    have hclip := OpenFile.clip_eq (by omega) hpos (by omega) hlen hfit
    rw [if_neg hreq, if_neg (by omega), hclip, ht, ← hn, Int.toNat_of_nonneg hpos]
    exact ⟨fun _ => by omega, rfl⟩

theorem writeAt_touches (hv : file.hdr.Valid) (junk src : Block) {numBytes position : Int}
    (hpos : 0 ≤ position) (hfit : Fits (position + numBytes)) :
    (OpenFile.writeAt file junk src numBytes position).Touches
      (Holds file.hdr position.toNat
        (OpenFile.transferred file.hdr.numBytes numBytes position).toNat)
      (Holds file.hdr position.toNat
        (OpenFile.transferred file.hdr.numBytes numBytes position).toNat) d := by
  obtain ⟨hle, heq⟩ := writeAt_eq hv junk src hpos hfit
  rw [heq]
  exact .ite (fun _ => .done) fun hn => writeSpan_touches hv junk src (by omega) (hle hn)

/-- The sectors that a write goes through, each once and in the order of the file. -/
theorem sectorsWritten_writeAt (hv : file.hdr.Valid) (junk src : Block) {numBytes position : Int}
    (hpos : 0 ≤ position) (hfit : Fits (position + numBytes)) {n : Nat}
    (hn : (OpenFile.transferred file.hdr.numBytes numBytes position).toNat = n) :
    sectorsWritten (OpenFile.writeAt file junk src numBytes position) d = if n = 0 then []
      else (List.range' (position.toNat / 128)
        ((position.toNat + n - 1) / 128 - position.toNat / 128 + 1)).map file.hdr.sectorNo := by
  obtain ⟨hle, heq⟩ := writeAt_eq hv junk src hpos hfit
  rw [heq, hn]
  by_cases hzero : n = 0
  · rw [if_pos hzero, if_pos hzero]
    rfl
  · rw [if_neg hzero, if_neg hzero]
    exact sectorsWritten_writeSpan hv junk src (by omega) (hn ▸ hle (hn ▸ hzero))

/-- A write of a whole file goes through all its sectors. -/
theorem sectorsWritten_whole (hv : file.hdr.Valid) {n : Nat} (hlen : file.hdr.numBytes = n)
    (junk src : Block) :
    sectorsWritten (OpenFile.writeAt file junk src n 0) d = file.hdr.sectors := by
  have hmax := OpenFile.numBytes_le hv
  have hb := hv.numSectors_bounds
  have hfit : Fits (0 + (n : Int)) := ⟨by omega, by omega⟩
  have hn : (OpenFile.transferred file.hdr.numBytes n 0).toNat = n := by
    rw [hlen, OpenFile.transferred_whole, Int.toNat_natCast]
  rw [sectorsWritten_writeAt hv junk src (Int.le_refl 0) hfit hn, FileHeader.sectors]
  by_cases hzero : n = 0
  · have hnone : file.hdr.numSectors.toNat = 0 := by omega
    rw [if_pos hzero, hnone]
    rfl
  · have hcount : (Int.toNat 0 + n - 1) / 128 - Int.toNat 0 / 128 + 1 =
        file.hdr.numSectors.toNat := by
      rw [Int.toNat_zero]
      omega
    rw [if_neg hzero, hcount, List.range_eq_range']
    rfl

end Transfers

/-! ## The free map and the directory -/

section SystemFiles

variable {file : OpenFile}

/-- The sector is one of the file's data sectors. -/
def InFile (h : FileHeader) (k : Fin numSectors) : Prop := ((k : Nat) : Int) ∈ h.sectors

theorem readAt_whole_touches (hv : file.hdr.Valid) {n : Nat} (hlen : file.hdr.numBytes = n)
    (into : Block) : (OpenFile.readAt file into n 0).Touches (InFile file.hdr) W d := by
  have hmax := OpenFile.numBytes_le hv
  have hfit : Fits (0 + (n : Int)) := ⟨by omega, by omega⟩
  refine (readAt_touches hv into (Int.le_refl 0) hfit).mono (fun k hk => hk.mem hv ?_)
    fun _ h => h
  rw [hlen, OpenFile.transferred_whole]
  simp

theorem writeAt_whole_touches (hv : file.hdr.Valid) {n : Nat} (hlen : file.hdr.numBytes = n)
    (junk src : Block) :
    (OpenFile.writeAt file junk src n 0).Touches (InFile file.hdr) (InFile file.hdr) d := by
  have hmax := OpenFile.numBytes_le hv
  have hfit : Fits (0 + (n : Int)) := ⟨by omega, by omega⟩
  have hle : (((0 : Int).toNat + (OpenFile.transferred file.hdr.numBytes n 0).toNat : Nat) : Int) ≤
      file.hdr.numBytes := by
    rw [hlen, OpenFile.transferred_whole]
    simp
  exact (writeAt_touches hv junk src (Int.le_refl 0) hfit).mono (fun k hk => hk.mem hv hle)
    fun k hk => hk.mem hv hle

theorem fetchMap_touches (hv : file.hdr.Valid)
    (hlen : file.hdr.numBytes = (freeMapFileSize : Nat)) (m : BitMap numSectors) :
    (BitMap.fetchFrom m file).Touches (InFile file.hdr) W d :=
  (readAt_whole_touches hv hlen _).bind fun _ _ _ => .done

theorem fetchDirectory_touches (hv : file.hdr.Valid)
    (hlen : file.hdr.numBytes = (directoryFileSize : Nat)) (dir : Directory numDirEntries) :
    (Directory.fetchFrom dir file).Touches (InFile file.hdr) W d :=
  (readAt_whole_touches hv hlen _).bind fun _ _ _ => .done

theorem writeBackMap_touches (hv : file.hdr.Valid)
    (hlen : file.hdr.numBytes = (freeMapFileSize : Nat)) (m : BitMap numSectors) (junk : Block) :
    (BitMap.writeBack m junk file).Touches (InFile file.hdr) (InFile file.hdr) d :=
  (writeAt_whole_touches hv hlen junk _).bind fun _ _ _ => .done

theorem writeBackDirectory_touches (hv : file.hdr.Valid)
    (hlen : file.hdr.numBytes = (directoryFileSize : Nat)) (dir : Directory numDirEntries)
    (junk : Block) :
    (Directory.writeBack dir junk file).Touches (InFile file.hdr) (InFile file.hdr) d :=
  (writeAt_whole_touches hv hlen junk _).bind fun _ _ _ => .done

theorem fetchHeader_touches {n : Int} (h : OnDisk n) :
    (FileHeader.fetchFrom n).Touches (fun k : Fin numSectors => ((k : Nat) : Int) = n) W d := by
  rw [FileHeader.fetchFrom, readSector_of h]
  exact .read (cell_coe h) .done

theorem new_touches {n : Int} (h : OnDisk n) :
    (OpenFile.new n).Touches (fun k : Fin numSectors => ((k : Nat) : Int) = n) W d :=
  (fetchHeader_touches h).bind fun _ _ _ => .done

theorem writeBackHeader_touches {n : Int} (h : OnDisk n) (hdr : FileHeader) :
    (FileHeader.writeBack hdr n).Touches R (fun k : Fin numSectors => ((k : Nat) : Int) = n) d := by
  rw [FileHeader.writeBack, writeSector_of h]
  exact .write (cell_coe h) .done

end SystemFiles

/-! ## The operations -/

section Operations

open FileSys.FileSystem (Consistent CanCreate)

variable {fs : FileSystem} {name : CString}

/-- The sectors of the free-map file and of the directory file. -/
def InSystem (fs : FileSystem) (k : Fin numSectors) : Prop :=
  InFile fs.freeMapFile.hdr k ∨ InFile fs.directoryFile.hdr k

/-- The sector is the header of the file with this name. -/
def IsHeader (fs : FileSystem) (d : Disk) (name : Block) (k : Fin numSectors) : Prop :=
  ∃ i, (fs.directoryOn d).findIndex name = some i ∧
    ((k : Nat) : Int) = ((fs.directoryOn d).table i).sector

/-- The sector is the one that `create` takes for a header. -/
def IsNext (fs : FileSystem) (d : Disk) (k : Fin numSectors) : Prop :=
  (fs.freeMapOn d).clearBits.head? = some (k : Nat)

theorem fetchDirectory_run (hc : Consistent fs d) (dir : Directory numDirEntries) :
    (Directory.fetchFrom dir fs.directoryFile).run d = .ok (fs.directoryOn d, d) := by
  rw [run_fetchDirectory]
  exact FileSystem.fetch_directory hc dir

theorem fetchMap_run (hc : Consistent fs d) (m : BitMap numSectors) :
    (BitMap.fetchFrom m fs.freeMapFile).run d = .ok (fs.freeMapOn d, d) := by
  rw [run_fetchMap]
  exact FileSystem.fetch_freeMap hc m

theorem eq_of_ok {a b : α} {d d₁ d₂ : Disk} {y : SectorProgram α} (h₁ : y.run d = .ok (a, d₁))
    (h₂ : y.run d = .ok (b, d₂)) : b = a ∧ d₂ = d₁ :=
  Prod.mk.inj (Except.ok.inj (h₂.symm.trans h₁))

theorem isHeader_of_find {i : Fin numDirEntries}
    (h : (fs.directoryOn d).findIndex name.bytes = some i) {k : Fin numSectors}
    (hk : ((k : Nat) : Int) = (fs.directoryOn d).find name.bytes) : IsHeader fs d name.bytes k :=
  ⟨i, h, by rw [hk, FileSystem.find_of_some h]⟩

theorem open_touches (hc : Consistent fs d) (junk : Junk) :
    (FileSystem.open fs junk name).Touches
      (fun k => InSystem fs k ∨ IsHeader fs d name.bytes k) (fun _ => False) d := by
  have hfiles := hc.files
  rw [FileSystem.open]
  refine ((fetchDirectory_touches hfiles.dirValid hfiles.dirLength _).mono
    (fun k hk => Or.inl (Or.inr hk)) fun _ h => h).bind fun dir d₁ hrun => ?_
  obtain ⟨rfl, rfl⟩ := eq_of_ok hrun (fetchDirectory_run hc _)
  refine .ite (fun hfound => ?_) fun _ => .done
  cases hfind : (fs.directoryOn d).findIndex name.bytes with
  | none =>
    rw [FileSystem.find_of_none hfind] at hfound
    exact absurd hfound (by decide)
  | some i =>
    exact ((new_touches (FileSystem.find_onDisk hc hfind)).mono
      (fun k hk => Or.inr (isHeader_of_find hfind hk)) fun _ h => h).bind fun _ _ _ => .done

/-- The three writes at the end of `create`. -/
theorem flush_touches (hfiles : fs.SystemFiles) {s : Int} (hs : OnDisk s) (hdr : FileHeader)
    (dir : Directory numDirEntries) (m : BitMap numSectors) (junk : Junk) (r : Created) :
    (do
      FileHeader.writeBack hdr s
      Directory.writeBack dir (junk 3) fs.directoryFile
      BitMap.writeBack m (junk 4) fs.freeMapFile
      pure r : SectorProgram Created).Touches (InSystem fs)
      (fun k => InSystem fs k ∨ ((k : Nat) : Int) = s) d := by
  refine ((writeBackHeader_touches hs _).mono (fun _ h => h)
    fun k hk => Or.inr hk).bind fun _ _ _ => ?_
  refine ((writeBackDirectory_touches hfiles.dirValid hfiles.dirLength _ _).mono
    (fun k hk => Or.inr hk) fun k hk => Or.inl (Or.inr hk)).bind fun _ _ _ => ?_
  exact ((writeBackMap_touches hfiles.mapValid hfiles.mapLength _ _).mono
    (fun k hk => Or.inl hk) fun k hk => Or.inl (Or.inl hk)).bind fun _ _ _ => .done

theorem create_touches (hc : Consistent fs d) (junk : Junk) (initialSize : Int) :
    (FileSystem.create fs junk name initialSize).Touches (InSystem fs)
      (fun k => InSystem fs k ∨ IsNext fs d k) d := by
  have hfiles := hc.files
  rw [FileSystem.create]
  refine ((fetchDirectory_touches hfiles.dirValid hfiles.dirLength _).mono
    (fun k hk => Or.inr hk) fun _ h => h).bind fun dir d₁ hrun => ?_
  obtain ⟨rfl, rfl⟩ := eq_of_ok hrun (fetchDirectory_run hc _)
  refine .ite (fun _ => .done) fun _ => ?_
  refine ((fetchMap_touches hfiles.mapValid hfiles.mapLength _).mono
    (fun k hk => Or.inl hk) fun _ h => h).bind fun m d₁ hrun => ?_
  obtain ⟨rfl, rfl⟩ := eq_of_ok hrun (fetchMap_run hc _)
  cases hclear : (fs.freeMapOn d).clearBits with
  | nil =>
    rw [BitMap.find_of_nil hclear]
    exact .ite (fun _ => .done) fun h => absurd rfl h
  | cons s rest =>
    have hdisk : OnDisk (s : Int) := ⟨by omega, Int.ofNat_lt.mpr
      (BitMap.mem_clearBits.mp (by rw [hclear]; exact List.mem_cons_self)).1⟩
    rw [BitMap.find_of_cons hclear]
    refine .ite (fun _ => .done) fun _ => .ite (fun _ => .done) fun _ =>
      .ite (fun _ => .done) fun _ =>
        (flush_touches hfiles hdisk _ _ _ junk _).mono (fun _ h => h) fun k hk => ?_
    refine hk.imp id fun hk => ?_
    rw [IsNext, hclear]
    exact congrArg some (Int.ofNat.inj hk).symm

theorem remove_touches (hc : Consistent fs d) (junk : Junk) :
    (FileSystem.remove fs junk name).Touches
      (fun k => InSystem fs k ∨ IsHeader fs d name.bytes k) (InSystem fs) d := by
  have hfiles := hc.files
  rw [FileSystem.remove]
  refine ((fetchDirectory_touches hfiles.dirValid hfiles.dirLength _).mono
    (fun k hk => Or.inl (Or.inr hk)) fun _ h => h).bind fun dir d₁ hrun => ?_
  obtain ⟨rfl, rfl⟩ := eq_of_ok hrun (fetchDirectory_run hc _)
  refine .ite (fun _ => .done) fun hfound => ?_
  cases hfind : (fs.directoryOn d).findIndex name.bytes with
  | none => exact absurd (FileSystem.find_of_none hfind) hfound
  | some i =>
    refine ((fetchHeader_touches (FileSystem.find_onDisk hc hfind)).mono
      (fun k hk => Or.inr (isHeader_of_find hfind hk)) fun _ h => h).bind fun _ _ _ => ?_
    refine ((fetchMap_touches hfiles.mapValid hfiles.mapLength _).mono
      (fun k hk => Or.inl (Or.inl hk)) fun _ h => h).bind fun m d₁ _ => ?_
    refine (check_touches _).bind fun _ _ _ => (check_touches _).bind fun _ _ _ => ?_
    refine ((writeBackMap_touches hfiles.mapValid hfiles.mapLength _ _).mono
      (fun k hk => Or.inl (Or.inl hk)) fun k hk => Or.inl hk).bind fun _ _ _ => ?_
    exact ((writeBackDirectory_touches hfiles.dirValid hfiles.dirLength _ _).mono
      (fun k hk => Or.inl (Or.inr hk)) fun k hk => Or.inr hk).bind fun _ _ _ => .done

/-! ## The sectors they write -/

theorem sectorsWritten_writeBackMap {file : OpenFile} (hv : file.hdr.Valid)
    (hlen : file.hdr.numBytes = (freeMapFileSize : Nat)) {m : BitMap numSectors} {junk : Block}
    (h : (BitMap.writeBack m junk file).run d = .ok ((), d')) :
    sectorsWritten (BitMap.writeBack m junk file) d = file.hdr.sectors := by
  obtain ⟨_, d₁, hrun, -⟩ := StoreProgram.run_bind_ok.mp h
  rw [BitMap.writeBack, sectorsWritten_bind hrun]
  exact (List.append_nil _).trans (sectorsWritten_whole hv hlen _ _)

theorem sectorsWritten_writeBackDirectory {file : OpenFile} (hv : file.hdr.Valid)
    (hlen : file.hdr.numBytes = (directoryFileSize : Nat)) {dir : Directory numDirEntries}
    {junk : Block} (h : (Directory.writeBack dir junk file).run d = .ok ((), d')) :
    sectorsWritten (Directory.writeBack dir junk file) d = file.hdr.sectors := by
  obtain ⟨_, d₁, hrun, -⟩ := StoreProgram.run_bind_ok.mp h
  rw [Directory.writeBack, sectorsWritten_bind hrun]
  exact (List.append_nil _).trans (sectorsWritten_whole hv hlen _ _)

theorem sectorsWritten_flush (hfiles : fs.SystemFiles) {s : Int} (hs : OnDisk s)
    {hdr : FileHeader} {dir : Directory numDirEntries} {m : BitMap numSectors} {junk : Junk}
    {r r' : Created}
    (h : (do
      FileHeader.writeBack hdr s
      Directory.writeBack dir (junk 3) fs.directoryFile
      BitMap.writeBack m (junk 4) fs.freeMapFile
      pure r : SectorProgram Created).run d = .ok (r', d')) :
    sectorsWritten (do
      FileHeader.writeBack hdr s
      Directory.writeBack dir (junk 3) fs.directoryFile
      BitMap.writeBack m (junk 4) fs.freeMapFile
      pure r : SectorProgram Created) d =
      s :: (fs.directoryFile.hdr.sectors ++ fs.freeMapFile.hdr.sectors) := by
  obtain ⟨_, d₁, h₁, h⟩ := StoreProgram.run_bind_ok.mp h
  obtain ⟨_, d₂, h₂, h⟩ := StoreProgram.run_bind_ok.mp h
  obtain ⟨_, d₃, h₃, -⟩ := StoreProgram.run_bind_ok.mp h
  rw [sectorsWritten_bind h₁, sectorsWritten_bind h₂, sectorsWritten_bind h₃,
    sectorsWritten_writeBackDirectory hfiles.dirValid hfiles.dirLength h₂,
    sectorsWritten_writeBackMap hfiles.mapValid hfiles.mapLength h₃]
  have hhead : sectorsWritten (FileHeader.writeBack hdr s) d = [s] :=
    sectorsWritten_writeSector hs _
  have hlast : sectorsWritten (pure r : SectorProgram Created) d₃ = [] := rfl
  rw [hhead, hlast, List.append_nil]
  rfl

/-- What is left of `create` when a test has not sent it to an early return. -/
theorem success_of_ite {c : Prop} [Decidable c] {l : List Nat} {y : SectorProgram Created}
    {r : Created} (h : (if c then pure ⟨false, l⟩ else y).run d = .ok (r, d'))
    (hr : r.success = true) : ¬ c := by
  intro hc
  rw [if_pos hc] at h
  obtain ⟨rfl, -⟩ := Prod.mk.inj (Except.ok.inj h)
  exact Bool.false_ne_true hr

theorem sectorsWritten_create (hc : Consistent fs d) {junk : Junk} {initialSize : Int}
    {r : Created} (h : (FileSystem.create fs junk name initialSize).run d = .ok (r, d'))
    (hr : r.success = true) : ∃ s : Nat, (fs.freeMapOn d).clearBits.head? = some s ∧
      sectorsWritten (FileSystem.create fs junk name initialSize) d =
        (s : Int) :: (fs.directoryFile.hdr.sectors ++ fs.freeMapFile.hdr.sectors) := by
  have hfiles := hc.files
  rw [FileSystem.create] at h ⊢
  have hdir := fetchDirectory_run hc (Directory.new numDirEntries (junk 0))
  rw [sectorsWritten_reads_bind (fetchDirectory_touches hfiles.dirValid hfiles.dirLength _) hdir]
  rw [StoreProgram.run_bind_of_ok hdir] at h
  have hmap := fetchMap_run hc (BitMap.new numSectors (junk 1))
  have hnone := success_of_ite h hr
  rw [if_neg hnone] at h ⊢
  rw [sectorsWritten_reads_bind (fetchMap_touches hfiles.mapValid hfiles.mapLength _) hmap]
  rw [StoreProgram.run_bind_of_ok hmap] at h
  cases hclear : (fs.freeMapOn d).clearBits with
  | nil =>
    rw [BitMap.find_of_nil hclear] at h
    exact absurd rfl (success_of_ite h hr)
  | cons s rest =>
    have hdisk : OnDisk (s : Int) := ⟨by omega, Int.ofNat_lt.mpr
      (BitMap.mem_clearBits.mp (by rw [hclear]; exact List.mem_cons_self)).1⟩
    rw [BitMap.find_of_cons hclear] at h ⊢
    have hsector := success_of_ite h hr
    rw [if_neg hsector] at h ⊢
    have hadd := success_of_ite h hr
    rw [if_neg hadd] at h ⊢
    have hroom := success_of_ite h hr
    rw [if_neg hroom] at h ⊢
    exact ⟨s, rfl, sectorsWritten_flush hfiles hdisk h⟩

/-- What a test of `create` decides when `create` fails: it has returned without a write,
or it goes on. -/
theorem sectorsWritten_ite {c : Prop} [Decidable c] {r₀ r : Created} {y : SectorProgram Created}
    (h : (if c then pure r₀ else y).run d = .ok (r, d'))
    (hy : y.run d = .ok (r, d') → sectorsWritten y d = []) :
    sectorsWritten (if c then pure r₀ else y) d = [] := by
  by_cases hc : c
  · rw [if_pos hc]
    rfl
  · rw [if_neg hc] at h ⊢
    exact hy h

/-- A `create` that fails has written nothing. -/
theorem sectorsWritten_failed (hc : Consistent fs d) {junk : Junk} {initialSize : Int}
    {r : Created} (h : (FileSystem.create fs junk name initialSize).run d = .ok (r, d'))
    (hr : r.success = false) :
    sectorsWritten (FileSystem.create fs junk name initialSize) d = [] := by
  have hfiles := hc.files
  rw [FileSystem.create] at h ⊢
  obtain ⟨dir, h, heq⟩ :=
    sectorsWritten_of_run (fetchDirectory_touches hfiles.dirValid hfiles.dirLength _) h
  rw [heq]
  refine sectorsWritten_ite h fun h => ?_
  obtain ⟨m, h, heq⟩ :=
    sectorsWritten_of_run (fetchMap_touches hfiles.mapValid hfiles.mapLength _) h
  rw [heq]
  refine sectorsWritten_ite h fun h => sectorsWritten_ite h fun h =>
    sectorsWritten_ite h fun h => ?_
  -- past the last test `create` returns success
  obtain ⟨_, d₁, -, h⟩ := StoreProgram.run_bind_ok.mp h
  obtain ⟨_, d₂, -, h⟩ := StoreProgram.run_bind_ok.mp h
  obtain ⟨_, d₃, -, h⟩ := StoreProgram.run_bind_ok.mp h
  obtain ⟨rfl, -⟩ := Prod.mk.inj (Except.ok.inj h)
  exact absurd hr.symm Bool.false_ne_true

/-- A `remove` that does not find its name has written nothing. -/
theorem sectorsWritten_absent (hc : Consistent fs d) (junk : Junk)
    (hnone : (fs.directoryOn d).findIndex name.bytes = none) :
    sectorsWritten (FileSystem.remove fs junk name) d = [] := by
  have hfiles := hc.files
  have hdir := fetchDirectory_run hc (Directory.new numDirEntries (junk 0))
  rw [FileSystem.remove,
    sectorsWritten_reads_bind (fetchDirectory_touches hfiles.dirValid hfiles.dirLength _) hdir,
    if_pos (FileSystem.find_of_none hnone)]
  rfl

theorem sectorsWritten_remove (hc : Consistent fs d) {junk : Junk}
    (h : (FileSystem.remove fs junk name).run d = .ok (true, d')) :
    sectorsWritten (FileSystem.remove fs junk name) d =
      fs.freeMapFile.hdr.sectors ++ fs.directoryFile.hdr.sectors := by
  have hfiles := hc.files
  rw [FileSystem.remove] at h ⊢
  have hdir := fetchDirectory_run hc (Directory.new numDirEntries (junk 0))
  rw [sectorsWritten_reads_bind (fetchDirectory_touches hfiles.dirValid hfiles.dirLength _) hdir]
  rw [StoreProgram.run_bind_of_ok hdir] at h
  cases hfind : (fs.directoryOn d).findIndex name.bytes with
  | none =>
    rw [FileSystem.find_of_none hfind, if_pos rfl] at h
    exact absurd (Prod.mk.inj (Except.ok.inj h)).1 Bool.false_ne_true
  | some i =>
    have honDisk := FileSystem.find_onDisk hc hfind
    have hneg : (fs.directoryOn d).find name.bytes ≠ -1 := fun he => by
      rw [he] at honDisk
      exact absurd honDisk.1 (by decide)
    rw [if_neg hneg] at h ⊢
    obtain ⟨hdr, h, heq⟩ := sectorsWritten_of_run (fetchHeader_touches honDisk) h
    rw [heq]
    obtain ⟨m, h, heq⟩ :=
      sectorsWritten_of_run (fetchMap_touches hfiles.mapValid hfiles.mapLength _) h
    rw [heq]
    obtain ⟨m₁, h, heq⟩ := sectorsWritten_of_run (R := fun _ => True) (check_touches _) h
    rw [heq]
    obtain ⟨m₂, h, heq⟩ := sectorsWritten_of_run (R := fun _ => True) (check_touches _) h
    rw [heq]
    obtain ⟨_, d₁, h₁, h⟩ := StoreProgram.run_bind_ok.mp h
    obtain ⟨_, d₂, h₂, -⟩ := StoreProgram.run_bind_ok.mp h
    rw [sectorsWritten_bind h₁, sectorsWritten_bind h₂,
      sectorsWritten_writeBackMap hfiles.mapValid hfiles.mapLength h₁,
      sectorsWritten_writeBackDirectory hfiles.dirValid hfiles.dirLength h₂]
    exact congrArg _ (List.append_nil _)

end Operations

end SectorProgram
end FileSys
end Nachos
