import Nachos.FileSys.ByteArrays

/-!
# Partial sectors

`WriteAt` reads the sectors it changes in part before it writes them back, but
`ReadAt` stops at the end of the file.  Behind the end, what `new` left in the
buffer goes to the disk.
-/

namespace Nachos
namespace FileSys
namespace OpenFile

open Lib LittleEndian

/-! ## Sectors and the bytes of a file -/

section Bytes

variable {h : FileHeader} {d d' : Disk}

theorem sector_ext {s t : Sector} (hget : ∀ o, o < sectorSize → s.get o = t.get o) : s = t := by
  funext o
  have ho := hget o o.isLt
  simpa only [Sector.get, dif_pos o.isLt] using ho

/-- Byte `o` of sector `i` of a file. -/
theorem fileByte_sector {i o : Nat} (ho : o < sectorSize) :
    fileByte d h (128 * i + o) = (d.sector (h.sectorNo i)).get o := by
  have ho' : o < 128 := ho
  have hmod : (128 * i + o) % 128 = o := by omega
  rw [fileByte_of_div (i := i) (by omega), hmod]

/-- Two disks that agree outside of a file and on all of its sectors are the
same. -/
theorem disk_eq_of_fileByte (hframe : ∀ s, s ∉ h.sectors → d'.sector s = d.sector s)
    (hbytes : ∀ k : Nat, ((k / 128 : Nat) : Int) < h.numSectors →
      fileByte d' h k = fileByte d h k) : d' = d := by
  refine Disk.ext fun s _ => ?_
  by_cases hs : s ∈ h.sectors
  · obtain ⟨i, hi, rfl⟩ := FileHeader.mem_sectors.mp hs
    apply sector_ext
    intro o ho
    have ho' : o < 128 := ho
    rw [← fileByte_sector ho, ← fileByte_sector ho]
    exact hbytes _ (by omega)
  · exact hframe s hs

end Bytes

/-! ## What a write preserves -/

section Partial

variable {f : OpenFile} {d : Disk} {numBytes position : Int}

/-- After the write of `n` bytes each byte of each sector is the one that was
there, or the one that the caller has for this place. -/
def KeepsRest (f : OpenFile) (d d' : Disk) (src : Block) (position : Int) (n : Nat) : Prop :=
  ∀ s o, o < sectorSize → (d'.sector s).get o = (d.sector s).get o ∨
    ∃ k : Nat, position ≤ k ∧ (k : Int) < position + n ∧ s = f.hdr.sectorNo (k / sectorSize) ∧
      o = k % sectorSize ∧ (d'.sector s).get o = src (k - position.toNat)

/-- The request transfers nothing, or stays out of a last sector that the file
fills in part only. -/
def InFullSectors (f : OpenFile) (numBytes position : Int) : Prop :=
  numBytes ≤ 0 ∨ f.length ≤ position ∨ f.length % sectorSize = 0 ∨
    position + numBytes ≤ f.length / sectorSize * sectorSize

/-- A request that is not confined to full sectors writes back the byte behind
the end of the file. -/
theorem end_written (hv : f.hdr.Valid) (hpos : 0 ≤ position)
    (hpart : ¬ InFullSectors f numBytes position) {n : Nat}
    (hn : (n : Int) = transferred f.hdr.numBytes numBytes position) :
    ∃ k : Nat, (k : Int) = f.hdr.numBytes ∧ ((k / 128 : Nat) : Int) < f.hdr.numSectors ∧
      position.toNat ≤ k ∧ ¬ (position ≤ k ∧ (k : Int) < position + n) ∧
      (0 < n ∧ k / 128 ≤ (position.toNat + n - 1) / 128 ∧ f.hdr.numBytes ≤ k) := by
  have hb := hv.numSectors_bounds
  have hnonneg := hv.nonneg
  have hlength : f.length = f.hdr.numBytes := rfl
  simp only [InFullSectors, sectorSize, hlength, not_or] at hpart
  have ht : transferred f.hdr.numBytes numBytes position =
      min numBytes (f.hdr.numBytes - position) := if_neg (by omega)
  obtain ⟨k, hk⟩ := Int.eq_ofNat_of_zero_le hnonneg
  exact ⟨k, by omega, by omega, by omega, by omega, by omega, by omega, by omega⟩

/-- In full sectors nothing is written behind the end of the file. -/
theorem end_spared (hv : f.hdr.Valid) (hpos : 0 ≤ position)
    (hfull : InFullSectors f numBytes position) {n : Nat}
    (hn : (n : Int) = transferred f.hdr.numBytes numBytes position) {k : Nat}
    (hk : ((k / 128 : Nat) : Int) < f.hdr.numSectors) :
    ¬ (0 < n ∧ k / 128 ≤ (position.toNat + n - 1) / 128 ∧ f.hdr.numBytes ≤ k) := by
  have hb := hv.numSectors_bounds
  have hlength : f.length = f.hdr.numBytes := rfl
  simp only [InFullSectors, sectorSize, hlength] at hfull
  intro hend
  have hreq : ¬ (numBytes ≤ 0 ∨ position ≥ f.hdr.numBytes) := by
    intro hreq
    rw [transferred, if_pos hreq] at hn
    omega
  rw [transferred, if_neg hreq] at hn
  omega

theorem keepsRest_of_bytes {src : Block} {d' : Disk} {n : Nat}
    (hframe : ∀ s, s ∉ f.hdr.sectors → d'.sector s = d.sector s)
    (hbytes : ∀ k : Nat, ((k / 128 : Nat) : Int) < f.hdr.numSectors → fileByte d' f.hdr k =
      if position ≤ k ∧ (k : Int) < position + n then src (k - position.toNat)
      else fileByte d f.hdr k) : KeepsRest f d d' src position n := by
  intro s o ho
  by_cases hs : s ∈ f.hdr.sectors
  · obtain ⟨i, hi, rfl⟩ := FileHeader.mem_sectors.mp hs
    have ho' : o < 128 := ho
    have hdiv : (128 * i + o) / 128 = i := by omega
    have hmod : (128 * i + o) % 128 = o := by omega
    have hbyte := hbytes (128 * i + o) (by omega)
    rw [fileByte_sector ho, fileByte_sector ho] at hbyte
    by_cases hin : position ≤ ((128 * i + o : Nat) : Int) ∧
        ((128 * i + o : Nat) : Int) < position + n
    · rw [if_pos hin] at hbyte
      exact .inr ⟨128 * i + o, hin.1, hin.2, by rw [sectorSize, hdiv], hmod.symm, hbyte⟩
    · rw [if_neg hin] at hbyte
      exact .inl hbyte
  · rw [hframe s hs]
    exact .inl rfl

/-- Where the end of the file is written back, a byte of the buffer gets to the
disk in place of another one. -/
theorem not_keepsRest (hv : f.hdr.Valid) (hpos : 0 ≤ position) {src : Block} {d' : Disk}
    {n k : Nat} (hn : (n : Int) = transferred f.hdr.numBytes numBytes position)
    (hk : ((k / 128 : Nat) : Int) < f.hdr.numSectors)
    (hout : ¬ (position ≤ k ∧ (k : Int) < position + n))
    (hbyte : fileByte d' f.hdr k ≠ fileByte d f.hdr k) : ¬ KeepsRest f d d' src position n := by
  have hb := hv.numSectors_bounds
  intro hkeeps
  rcases hkeeps (f.hdr.sectorNo (k / 128)) (k % 128) (Nat.mod_lt _ (by decide)) with hold | hnew
  · exact hbyte hold
  · obtain ⟨j, hlo, hhi, hsector, hmod, -⟩ := hnew
    have hj : (j : Int) < f.hdr.numBytes := by
      have hlt : ((j - position.toNat : Nat) : Int) <
          transferred f.hdr.numBytes numBytes position := by omega
      have := lt_of_transferred hpos hlt
      omega
    have hdiv : k / 128 = j / 128 :=
      hv.sectorNo_inj hk (by omega) hsector
    have hmod' : k % 128 = j % 128 := hmod
    exact hout (by omega)

/-- Every write of the request, whatever is in the buffer, preserves the rest of
its sectors. -/
def Preserves (f : OpenFile) (d : Disk) (src : Block) (numBytes position : Int) : Prop :=
  ∀ junk, ∃ (n : Nat) (d' : Disk),
    (f.writeAt junk src numBytes position).run d = .ok ((n : Int), d') ∧
    KeepsRest f d d' src position n

/-- The write does not depend on what `new` left in the buffer. -/
def Determined (f : OpenFile) (d : Disk) (src : Block) (numBytes position : Int) : Prop :=
  ∀ junk junk', (f.writeAt junk src numBytes position).run d =
    (f.writeAt junk' src numBytes position).run d

theorem not_preserves (hv : f.hdr.Valid) (d : Disk) (src : Block) (hpos : 0 ≤ position)
    (hfit : Fits (position + numBytes)) (hpart : ¬ InFullSectors f numBytes position) :
    ¬ Preserves f d src numBytes position := by
  intro hkeeps
  have hother : ∀ x : UInt8, x + 1 ≠ x := fun x hx =>
    absurd (UInt8.add_eq_left.mp hx) (by decide)
  -- a buffer that differs from the disk at the end of the file
  obtain ⟨k, hk⟩ := Int.eq_ofNat_of_zero_le hv.nonneg
  obtain ⟨n, d', hn, hrun, hframe, hbytes⟩ :=
    writeAt_bytes hv (fun _ => fileByte d f.hdr k + 1) src hpos hfit d
  obtain ⟨k', hk', hsector, -, hout, hend⟩ := end_written hv hpos hpart hn
  obtain rfl : k' = k := by omega
  obtain ⟨n', d'', hrun', hkeep⟩ := hkeeps fun _ => fileByte d f.hdr k' + 1
  rw [hrun, Except.ok.injEq, Prod.mk.injEq, Int.ofNat_inj] at hrun'
  obtain ⟨rfl, rfl⟩ := hrun'
  refine not_keepsRest hv hpos hn hsector hout ?_ hkeep
  rw [hbytes k' hsector, if_neg hout, if_pos hend]
  exact hother _

theorem not_determined (hv : f.hdr.Valid) (d : Disk) (src : Block) (hpos : 0 ≤ position)
    (hfit : Fits (position + numBytes)) (hpart : ¬ InFullSectors f numBytes position) :
    ¬ Determined f d src numBytes position := by
  intro hsame
  obtain ⟨n, d', hn, hrun, -, hbytes⟩ := writeAt_bytes hv (fun _ => 0) src hpos hfit d
  obtain ⟨n', d'', -, hrun', -, hbytes'⟩ := writeAt_bytes hv (fun _ => 1) src hpos hfit d
  have heq := hsame (fun _ => 0) fun _ => 1
  rw [hrun, hrun', Except.ok.injEq, Prod.mk.injEq, Int.ofNat_inj] at heq
  obtain ⟨rfl, rfl⟩ := heq
  obtain ⟨k, -, hsector, -, hout, hend⟩ := end_written hv hpos hpart hn
  have hzero := hbytes k hsector
  rw [hbytes' k hsector, if_neg hout, if_pos hend, if_neg hout, if_pos hend] at hzero
  exact absurd hzero (by decide)

theorem preserves_of_full (hv : f.hdr.Valid) (d : Disk) (src : Block) (hpos : 0 ≤ position)
    (hfit : Fits (position + numBytes)) (hfull : InFullSectors f numBytes position) :
    Preserves f d src numBytes position := by
  intro junk
  obtain ⟨n, d', hn, hrun, hframe, hbytes⟩ := writeAt_bytes hv junk src hpos hfit d
  refine ⟨n, d', hrun, keepsRest_of_bytes hframe fun k hk => ?_⟩
  rw [hbytes k hk, if_neg (c := 0 < n ∧ _) (end_spared hv hpos hfull hn hk)]

theorem determined_of_full (hv : f.hdr.Valid) (d : Disk) (src : Block) (hpos : 0 ≤ position)
    (hfit : Fits (position + numBytes)) (hfull : InFullSectors f numBytes position) :
    Determined f d src numBytes position := by
  intro junk junk'
  obtain ⟨n, d', hn, hrun, hframe, hbytes⟩ := writeAt_bytes hv junk src hpos hfit d
  obtain ⟨n', d'', hn', hrun', hframe', hbytes'⟩ := writeAt_bytes hv junk' src hpos hfit d
  obtain rfl : n = n' := by omega
  have hdisk : d' = d'' := by
    refine disk_eq_of_fileByte (h := f.hdr) (fun s hs => ?_) fun k hk => ?_
    · rw [hframe s hs, hframe' s hs]
    · have hspared := end_spared hv hpos hfull hn hk
      rw [hbytes k hk, hbytes' k hk, if_neg (c := 0 < n ∧ _) hspared,
        if_neg (c := 0 < n ∧ _) hspared]
  rw [hrun, hrun', hdisk]

/-- `WriteAt` preserves what it does not mean to change just when the request
stays in full sectors, and it is independent of its buffer just then. -/
theorem partial_writes_iff (hv : f.hdr.Valid) (d : Disk) (src : Block) (hpos : 0 ≤ position)
    (hfit : Fits (position + numBytes)) :
    (Preserves f d src numBytes position ↔ InFullSectors f numBytes position) ∧
      (Determined f d src numBytes position ↔ InFullSectors f numBytes position) := by
  refine ⟨⟨fun hkeeps => ?_, preserves_of_full hv d src hpos hfit⟩,
    ⟨fun hsame => ?_, determined_of_full hv d src hpos hfit⟩⟩
  · by_contra hpart
    exact not_preserves hv d src hpos hfit hpart hkeeps
  · by_contra hpart
    exact not_determined hv d src hpos hfit hpart hsame

/-- Five bytes at the start of a file of ten: the byte behind the end of the file
comes from the buffer. -/
theorem partial_write_leaks :
    tenBytes.hdr.Valid ∧ ¬ Preserves tenBytes (fun _ _ => 0) (fun _ => 1) 5 0 ∧
      ¬ Determined tenBytes (fun _ _ => 0) (fun _ => 1) 5 0 ∧
      ∃ d', (tenBytes.writeAt (fun _ => 7) (fun _ => 1) 5 0).run (fun _ _ => 0) = .ok (5, d') ∧
        (d'.sector 5).get 10 = 7 := by
  have hpart : ¬ InFullSectors tenBytes 5 0 := by
    unfold InFullSectors
    decide
  have hfit : Fits (0 + 5) := by decide
  refine ⟨tenBytes_valid, not_preserves tenBytes_valid _ _ (Int.le_refl 0) hfit hpart,
    not_determined tenBytes_valid _ _ (Int.le_refl 0) hfit hpart, ?_⟩
  obtain ⟨n, d', hn, hrun, -, hbytes⟩ :=
    writeAt_bytes tenBytes_valid (fun _ => 7) (fun _ => 1) (Int.le_refl 0) hfit fun _ _ => 0
  have hcount : transferred tenBytes.hdr.numBytes 5 0 = ((5 : Nat) : Int) := by decide
  obtain rfl : n = 5 := by
    rw [hcount] at hn
    exact Int.ofNat_inj.mp hn
  exact ⟨d', hrun, hbytes 10 (by decide)⟩

/-- An open file of 200 bytes in the sectors 5 and 6. -/
def twoSectors : OpenFile where
  hdr := { numBytes := 200, numSectors := 2, dataSectors := fun i => 5 + i }
  seekPosition := 0

theorem twoSectors_valid : twoSectors.hdr.Valid :=
  ⟨by decide, by decide, by decide, by decide, by decide⟩

/-- Eight bytes up to the end of the first sector, and eight in the last one. -/
theorem partial_writes_iff_twoSectors :
    (Preserves twoSectors (fun _ _ => 0) (fun _ => 1) 8 120 ∧
      Determined twoSectors (fun _ _ => 0) (fun _ => 1) 8 120) ∧
    ¬ Preserves twoSectors (fun _ _ => 0) (fun _ => 1) 8 140 := by
  have hfull : InFullSectors twoSectors 8 120 := by
    unfold InFullSectors
    decide
  have hpart : ¬ InFullSectors twoSectors 8 140 := by
    unfold InFullSectors
    decide
  have hiff := partial_writes_iff twoSectors_valid (fun _ _ => 0) (fun _ => 1)
    (show (0 : Int) ≤ 120 by decide) (show Fits (120 + 8) by decide)
  have hlast := partial_writes_iff twoSectors_valid (fun _ _ => 0) (fun _ => 1)
    (show (0 : Int) ≤ 140 by decide) (show Fits (140 + 8) by decide)
  exact ⟨⟨hiff.1.mpr hfull, hiff.2.mpr hfull⟩, fun h => hpart (hlast.1.mp h)⟩

end Partial

end OpenFile
end FileSys
end Nachos
