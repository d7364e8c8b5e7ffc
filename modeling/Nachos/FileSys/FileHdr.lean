import Nachos.FileSys.BitMap

/-!
# File headers

A file header fills one disk sector: the length in bytes, the number of data
sectors, and the table of their sector numbers.  `allocate` takes sectors from
the free map and `deallocate` gives them back.
-/

namespace Nachos
namespace FileSys

open Lib

/-- `sizeof(int)`. -/
@[simp] abbrev sizeofInt : Nat := 4

/-- Entries in the sector table of a header. -/
@[simp] abbrev numDirect : Nat := (sectorSize - 2 * sizeofInt) / sizeofInt

theorem numDirect_eq : numDirect = 30 := rfl

@[simp] abbrev maxFileSize : Nat := numDirect * sectorSize

structure FileHeader where
  numBytes : Int
  numSectors : Int
  dataSectors : Fin numDirect → Int

/-- The outcome of `allocate`.  `written` lists the indices at which the loop
stored into `dataSectors`, in order; no code reads it. -/
structure Allocation (n : Nat) where
  success : Bool
  hdr : FileHeader
  freeMap : BitMap n
  written : List Nat

namespace FileHeader

variable {n : Nat}

/-! ## The header in memory and on disk -/

/-- The `int` at word `w` of the header. -/
def word (h : FileHeader) (w : Nat) : Int :=
  if w = 0 then h.numBytes
  else if w = 1 then h.numSectors
  else if hw : w - 2 < numDirect then h.dataSectors ⟨w - 2, hw⟩
  else 0

def toBlock (h : FileHeader) : Block := fun k => LittleEndian.byte (h.word (k / 4)) (k % 4)

def ofBlock (b : Block) : FileHeader where
  numBytes := b.int 0
  numSectors := b.int 1
  dataSectors := fun i => b.int (i + 2)

/-- Every field of the header is a 32-bit `int`. -/
structure Fits (h : FileHeader) : Prop where
  numBytes : LittleEndian.Fits h.numBytes
  numSectors : LittleEndian.Fits h.numSectors
  dataSectors : ∀ i, LittleEndian.Fits (h.dataSectors i)

theorem fits_ofBlock (b : Block) : (ofBlock b).Fits :=
  ⟨b.fits_int 0, b.fits_int 1, fun i => b.fits_int (i + 2)⟩

theorem int_toBlock (h : FileHeader) {w : Nat} (hw : LittleEndian.Fits (h.word w)) :
    h.toBlock.int w = h.word w := by
  refine Block.int_image hw fun k hk => ?_
  have hdiv : (4 * w + k) / 4 = w := by omega
  have hmod : (4 * w + k) % 4 = k := by omega
  simp only [toBlock, hdiv, hmod]

theorem word_data (h : FileHeader) (i : Fin numDirect) : h.word (i + 2) = h.dataSectors i := by
  have h0 : (i : Nat) + 2 ≠ 0 := by omega
  have h1 : (i : Nat) + 2 ≠ 1 := by omega
  simp only [word, if_neg h0, if_neg h1, Nat.add_sub_cancel, dif_pos i.isLt]

theorem ofBlock_toBlock {h : FileHeader} (hf : h.Fits) : ofBlock h.toBlock = h := by
  obtain ⟨hb, hs, hd⟩ := hf
  have hdata : ∀ i : Fin numDirect, h.toBlock.int (i + 2) = h.dataSectors i := by
    intro i
    rw [int_toBlock h (by rw [word_data]; exact hd i), word_data]
  have h0 : h.toBlock.int 0 = h.numBytes := int_toBlock h hb
  have h1 : h.toBlock.int 1 = h.numSectors := int_toBlock h hs
  cases h
  simp only [ofBlock, mk.injEq]
  exact ⟨h0, h1, funext hdata⟩

theorem ofBlock_congr {b c : Block} (h : ∀ k, k < sectorSize → b k = c k) :
    ofBlock b = ofBlock c := by
  simp only [ofBlock, mk.injEq]
  refine ⟨Block.int_congr fun k hk => h _ (by simp; omega),
    Block.int_congr fun k hk => h _ (by simp; omega), ?_⟩
  funext i
  exact Block.int_congr fun k hk => h _ (by have := i.isLt; simp at this ⊢; omega)

/-- The header a disk sector holds. -/
def ofSector (s : Sector) : FileHeader := ofBlock s.get

/-- Writing a header to a sector and reading it back. -/
theorem ofSector_toBlock {h : FileHeader} (hf : h.Fits) :
    ofSector (Sector.ofBlock h.toBlock) = h := by
  rw [ofSector, ofBlock_congr fun k hk => Sector.get_ofBlock hk, ofBlock_toBlock hf]

/-- `FileHeader::FetchFrom`. -/
def fetchFrom (sector : Int) : SynchDisk FileHeader := do
  let s ← readSector sector
  pure (ofSector s)

/-- `FileHeader::WriteBack`. -/
def writeBack (h : FileHeader) (sector : Int) : SynchDisk Unit :=
  writeSector sector (Sector.ofBlock h.toBlock)

theorem fetchFrom_run {sector : Int} (h : OnDisk sector) (d : Disk) :
    (fetchFrom sector).run d = .ok (ofSector (d.sector sector), d) := by
  rw [fetchFrom, run_bind (readSector_run h d)]
  rfl

theorem writeBack_run (h : FileHeader) {sector : Int} (hs : OnDisk sector) (d : Disk) :
    (h.writeBack sector).run d = .ok ((), d.store sector (Sector.ofBlock h.toBlock)) :=
  writeSector_run hs _ d

/-! ## Allocation -/

/-- `dataSectors[i] = sector`.  A store past the end of the array lands in the
heap after the header and leaves the header as it was. -/
def storeSector (h : FileHeader) (i : Nat) (sector : Int) : FileHeader :=
  { h with dataSectors := fun j => if (j : Nat) = i then sector else h.dataSectors j }

/-- The loop of `FileHeader::Allocate`, from index `i` on. -/
def allocateLoop (h : FileHeader) (freeMap : BitMap n) (written : List Nat) (i : Nat) :
    Nat → Allocation n
  | 0 => ⟨true, h, freeMap, written⟩
  | count + 1 =>
    let found := freeMap.find
    allocateLoop (h.storeSector i found.1) found.2 (written ++ [i]) (i + 1) count

/-- `FileHeader::Allocate`. -/
def allocate (h : FileHeader) (freeMap : BitMap n) (fileSize : Int) : Allocation n :=
  let h := { h with numBytes := fileSize, numSectors := divRoundUp fileSize sectorSize }
  if freeMap.numClear < h.numSectors then ⟨false, h, freeMap, []⟩
  else allocateLoop h freeMap [] 0 h.numSectors.toNat

/-- What the loop does when it takes the clear bits `taken`. -/
structure Takes (h : FileHeader) (freeMap : BitMap n) (i : Nat) (taken rest : List Nat)
    (a : Allocation n) : Prop where
  success : a.success = true
  numBytes : a.hdr.numBytes = h.numBytes
  numSectors : a.hdr.numSectors = h.numSectors
  stored : ∀ j : Fin numDirect, ∀ s, i ≤ j → taken[(j : Nat) - i]? = some s →
    a.hdr.dataSectors j = s
  kept : ∀ j : Fin numDirect, (j : Nat) < i ∨ i + taken.length ≤ j →
    a.hdr.dataSectors j = h.dataSectors j
  clearBits : a.freeMap.clearBits = rest
  bit : ∀ j, j < n → a.freeMap.bit j = (freeMap.bit j || decide (j ∈ taken))

theorem allocateLoop_takes {taken rest : List Nat} :
    ∀ (h : FileHeader) (freeMap : BitMap n) (written : List Nat) (i : Nat),
      freeMap.clearBits = taken ++ rest →
        Takes h freeMap i taken rest (allocateLoop h freeMap written i taken.length) := by
  induction taken with
  | nil =>
    intro h freeMap written i hclear
    exact ⟨rfl, rfl, rfl, fun _ _ _ hs => by simp at hs, fun _ _ => rfl, hclear,
      fun j _ => by simp [allocateLoop]⟩
  | cons b taken ih =>
    intro h freeMap written i hclear
    rw [List.cons_append] at hclear
    have hfind := BitMap.find_of_cons hclear
    simp only [List.length_cons, allocateLoop, hfind]
    have hrest := ih (h.storeSector i b) (freeMap.setBit b) (written ++ [i]) (i + 1)
      (BitMap.clearBits_setBit hclear)
    refine ⟨hrest.success, hrest.numBytes, hrest.numSectors, fun j s hij hs => ?_,
      fun j hj => ?_, hrest.clearBits, fun j hj => ?_⟩
    · rcases Nat.eq_or_lt_of_le hij with hji | hlt
      · have hk := hrest.kept j (Or.inl (by omega))
        have hz : (j : Nat) - i = 0 := by omega
        rw [hz, List.getElem?_cons_zero, Option.some.injEq] at hs
        rw [hk, ← hs]
        exact if_pos hji.symm
      · have hz : (j : Nat) - i = (j - (i + 1)) + 1 := by omega
        rw [hz, List.getElem?_cons_succ] at hs
        exact hrest.stored j s hlt hs
    · rw [hrest.kept j (by rw [List.length_cons] at hj; omega)]
      exact if_neg (by rw [List.length_cons] at hj; omega)
    · rw [hrest.bit j hj, BitMap.bit_setBit freeMap hj, Bool.or_assoc]
      congr 1
      simp only [List.mem_cons, Bool.decide_or]

theorem written_allocateLoop (count : Nat) :
    ∀ (h : FileHeader) (freeMap : BitMap n) (written : List Nat) (i : Nat),
      (allocateLoop h freeMap written i count).written = written ++ List.range' i count := by
  induction count with
  | zero => exact fun _ _ written _ => by simp [allocateLoop]
  | succ count ih =>
    intro h freeMap written i
    rw [allocateLoop, ih, List.append_assoc, List.singleton_append, List.range'_succ]

theorem allocate_of_lt {h : FileHeader} {freeMap : BitMap n} {fileSize : Int}
    (hlt : freeMap.numClear < divRoundUp fileSize sectorSize) :
    (h.allocate freeMap fileSize).success = false ∧
      (h.allocate freeMap fileSize).written = [] := by
  simp only [allocate, if_pos hlt, and_self]

/-- A successful `allocate` takes the first clear bits, as many as the file has
sectors. -/
theorem allocate_takes {h : FileHeader} {freeMap : BitMap n} {fileSize : Int}
    (hle : divRoundUp fileSize sectorSize ≤ freeMap.numClear) :
    Takes { h with numBytes := fileSize, numSectors := divRoundUp fileSize sectorSize } freeMap 0
      (freeMap.clearBits.take (divRoundUp fileSize sectorSize).toNat)
      (freeMap.clearBits.drop (divRoundUp fileSize sectorSize).toNat)
      (h.allocate freeMap fileSize) := by
  have hnot : ¬ freeMap.numClear < divRoundUp fileSize sectorSize := Int.not_lt.mpr hle
  have hlen : (freeMap.clearBits.take (divRoundUp fileSize sectorSize).toNat).length
      = (divRoundUp fileSize sectorSize).toNat := by
    rw [BitMap.numClear_eq] at hle
    exact List.length_take_of_le (by omega)
  have htakes := allocateLoop_takes
    { h with numBytes := fileSize, numSectors := divRoundUp fileSize sectorSize } freeMap [] 0
    (List.take_append_drop (divRoundUp fileSize sectorSize).toNat freeMap.clearBits).symm
  rw [hlen] at htakes
  simpa only [allocate, if_neg hnot] using htakes

theorem allocate_written {h : FileHeader} {freeMap : BitMap n} {fileSize : Int}
    (hle : divRoundUp fileSize sectorSize ≤ freeMap.numClear) :
    (h.allocate freeMap fileSize).written = List.range (divRoundUp fileSize sectorSize).toNat := by
  have hnot : ¬ freeMap.numClear < divRoundUp fileSize sectorSize := Int.not_lt.mpr hle
  simp only [allocate, if_neg hnot, written_allocateLoop, List.nil_append, List.range_eq_range']

/-! ## The data sectors -/

/-- The sector number at index `i` of the table. -/
def sectorNo (h : FileHeader) (i : Nat) : Int :=
  if hi : i < numDirect then h.dataSectors ⟨i, hi⟩ else 0

/-- `dataSectors[i]`, read inside the array only. -/
def sectorAt (h : FileHeader) (i : Int) : Except Fault Int :=
  if 0 ≤ i ∧ i < numDirect then .ok (h.sectorNo i.toNat) else .error .outOfBounds

/-- `FileHeader::ByteToSector`. -/
def byteToSector (h : FileHeader) (offset : Int) : Except Fault Int :=
  h.sectorAt (divRoundDown offset sectorSize)

/-- The data sectors of the file, in order. -/
def sectors (h : FileHeader) : List Int := (List.range h.numSectors.toNat).map h.sectorNo

/-- A header whose table covers its length with distinct sectors of the disk. -/
structure Valid (h : FileHeader) : Prop where
  nonneg : 0 ≤ h.numBytes
  count : h.numSectors = divRoundUp h.numBytes sectorSize
  direct : h.numSectors ≤ numDirect
  onDisk : ∀ s ∈ h.sectors, OnDisk s
  nodup : h.sectors.Nodup

theorem mem_sectors {h : FileHeader} {s : Int} :
    s ∈ h.sectors ↔ ∃ i : Nat, (i : Int) < h.numSectors ∧ h.sectorNo i = s := by
  simp only [sectors, List.mem_map, List.mem_range, Int.lt_toNat]

theorem sectorNo_mem {h : FileHeader} {i : Nat} (hi : (i : Int) < h.numSectors) :
    h.sectorNo i ∈ h.sectors := mem_sectors.mpr ⟨i, hi, rfl⟩

/-- Distinct indices of a valid header hold distinct sectors. -/
theorem Valid.sectorNo_inj {h : FileHeader} (hv : h.Valid) {i j : Nat}
    (hi : (i : Int) < h.numSectors) (hj : (j : Int) < h.numSectors)
    (he : h.sectorNo i = h.sectorNo j) : i = j :=
  List.inj_on_of_nodup_map hv.nodup (List.mem_range.mpr (by omega))
    (List.mem_range.mpr (by omega)) he

/-- The number of sectors a valid header has for its length. -/
theorem Valid.numSectors_bounds {h : FileHeader} (hv : h.Valid) :
    h.numBytes ≤ 128 * h.numSectors ∧ 128 * h.numSectors < h.numBytes + 128 ∧
      h.numSectors ≤ 30 := by
  have hc := hv.count
  have hd := hv.direct
  have hn := hv.nonneg
  rw [divRoundUp_of_nonneg hn] at hc
  rw [numDirect_eq] at hd
  simp only [sectorSize] at hc
  split at hc <;> omega

theorem sectorAt_ok (h : FileHeader) {i : Int} (hi : 0 ≤ i ∧ i < numDirect) :
    h.sectorAt i = .ok (h.sectorNo i.toNat) := if_pos hi

/-! ## Deallocation -/

/-- The loop of `FileHeader::Deallocate`, from index `i` on. -/
def deallocateLoop (h : FileHeader) (freeMap : BitMap n) (i : Nat) :
    Nat → Except Fault (BitMap n)
  | 0 => .ok freeMap
  | count + 1 => do
    let s ← h.sectorAt i
    let marked ← freeMap.test s
    if marked then
      let freeMap ← freeMap.clear s
      deallocateLoop h freeMap (i + 1) count
    else .error .assertFailed

/-- `FileHeader::Deallocate`. -/
def deallocate (h : FileHeader) (freeMap : BitMap n) : Except Fault (BitMap n) :=
  h.deallocateLoop freeMap 0 h.numSectors.toNat

theorem deallocateLoop_ok (h : FileHeader) (count : Nat) :
    ∀ (freeMap : BitMap n) (i : Nat), i + count ≤ numDirect →
      ((List.range' i count).map h.sectorNo).Nodup →
      (∀ s ∈ (List.range' i count).map h.sectorNo,
        (0 ≤ s ∧ s < n) ∧ freeMap.bit s.toNat = true) →
      ∃ m, h.deallocateLoop freeMap i count = .ok m ∧
        ∀ j, j < n → m.bit j =
          (freeMap.bit j && !decide ((j : Int) ∈ (List.range' i count).map h.sectorNo)) := by
  induction count with
  | zero =>
    intro freeMap i _ _ _
    exact ⟨freeMap, rfl, fun j _ => by simp⟩
  | succ count ih =>
    intro freeMap i hdirect hnodup hmarked
    rw [List.range'_succ, List.map_cons] at hnodup hmarked
    obtain ⟨hfresh, hnodup⟩ := List.nodup_cons.mp hnodup
    obtain ⟨hrange, hbit⟩ := hmarked _ List.mem_cons_self
    have hat : h.sectorAt (i : Int) = .ok (h.sectorNo i) :=
      h.sectorAt_ok ⟨by omega, by omega⟩
    have hstep : h.deallocateLoop freeMap i (count + 1) =
        h.deallocateLoop (freeMap.clearBit (h.sectorNo i).toNat) (i + 1) count := by
      rw [deallocateLoop, hat]
      simp only [bind, Except.bind, BitMap.test_ok _ hrange, BitMap.clear_ok _ hrange, hbit,
        if_true]
    -- the sectors still to be freed differ from the one just cleared
    have hlater : ∀ s ∈ (List.range' (i + 1) count).map h.sectorNo,
        (0 ≤ s ∧ s < n) ∧ (freeMap.clearBit (h.sectorNo i).toNat).bit s.toNat = true := by
      intro s hs
      obtain ⟨hr, hb⟩ := hmarked s (List.mem_cons_of_mem _ hs)
      have hne : s.toNat ≠ (h.sectorNo i).toNat := by
        intro he
        exact hfresh (by rwa [show s = h.sectorNo i by omega] at hs)
      refine ⟨hr, ?_⟩
      rw [BitMap.bit_clearBit _ (by omega), hb, decide_eq_false hne]
      rfl
    obtain ⟨m, hm, hbits⟩ := ih _ (i + 1) (by omega) hnodup hlater
    refine ⟨m, hstep.trans hm, fun j hj => ?_⟩
    rw [hbits j hj, BitMap.bit_clearBit _ hj, List.range'_succ, List.map_cons, Bool.and_assoc]
    congr 1
    have hji : decide (j = (h.sectorNo i).toNat) = decide ((j : Int) = h.sectorNo i) :=
      decide_eq_decide.mpr (by omega)
    rw [hji]
    simp only [List.mem_cons, Bool.decide_or, Bool.not_or]

/-- `deallocate` frees the data sectors of a valid header when all are marked. -/
theorem deallocate_ok {h : FileHeader} (hv : h.Valid) {freeMap : BitMap FileSys.numSectors}
    (hmarked : ∀ s ∈ h.sectors, freeMap.bit s.toNat = true) :
    ∃ m, h.deallocate freeMap = .ok m ∧
      ∀ j, j < FileSys.numSectors → m.bit j = (freeMap.bit j && !decide ((j : Int) ∈ h.sectors)) := by
  have hb := hv.numSectors_bounds
  have hr : h.sectors = (List.range' 0 h.numSectors.toNat).map h.sectorNo := by
    rw [sectors, List.range_eq_range']
  have honDisk := hv.onDisk
  have hnodup := hv.nodup
  rw [hr] at honDisk hnodup hmarked ⊢
  exact h.deallocateLoop_ok _ freeMap 0 (by rw [numDirect_eq]; omega) hnodup
    fun s hs => ⟨honDisk s hs, hmarked s hs⟩

/-! ## Headers that `allocate` makes -/

theorem fits_divRoundUp {x : Int} (hx : LittleEndian.Fits x) :
    LittleEndian.Fits (divRoundUp x sectorSize) := by
  obtain ⟨hlo, hhi⟩ := hx
  rcases Int.le_total 0 x with hpos | hneg
  · rw [divRoundUp_of_nonneg hpos, LittleEndian.Fits]
    simp only [sectorSize]
    split <;> omega
  · obtain ⟨y, rfl⟩ : ∃ y, x = -y := ⟨-x, by omega⟩
    have hy : 0 ≤ y := by omega
    rw [divRoundUp, Int.neg_tdiv, Int.neg_tmod, Int.tdiv_eq_ediv_of_nonneg hy,
      Int.tmod_eq_emod_of_nonneg hy, LittleEndian.Fits]
    simp only [sectorSize]
    split <;> omega

/-- A file of legal size fits the sector table. -/
theorem divRoundUp_le_numDirect {x : Int} (hnonneg : 0 ≤ x) (hmax : x ≤ maxFileSize) :
    divRoundUp x sectorSize ≤ numDirect := by
  rw [divRoundUp_of_nonneg hnonneg]
  simp only [maxFileSize, numDirect, sectorSize, sizeofInt] at hmax ⊢
  split <;> omega

section Allocated

variable {h : FileHeader} {freeMap : BitMap FileSys.numSectors} {fileSize : Int}

/-- The sectors a successful `allocate` takes, in order. -/
def fresh (freeMap : BitMap FileSys.numSectors) (fileSize : Int) : List Nat :=
  freeMap.clearBits.take (divRoundUp fileSize sectorSize).toNat

theorem lt_of_mem_fresh {s : Nat} (hs : s ∈ fresh freeMap fileSize) : s < FileSys.numSectors :=
  (BitMap.mem_clearBits.mp (List.mem_of_mem_take hs)).1

theorem length_fresh (hle : divRoundUp fileSize sectorSize ≤ freeMap.numClear) :
    (fresh freeMap fileSize).length = (divRoundUp fileSize sectorSize).toNat := by
  rw [BitMap.numClear_eq] at hle
  exact List.length_take_of_le (by omega)

theorem allocate_fits (hf : h.Fits) (hsize : LittleEndian.Fits fileSize)
    (hle : divRoundUp fileSize sectorSize ≤ freeMap.numClear) :
    (h.allocate freeMap fileSize).hdr.Fits := by
  have ht := allocate_takes (h := h) hle
  refine ⟨by rw [ht.numBytes]; exact hsize, by rw [ht.numSectors]; exact fits_divRoundUp hsize,
    fun j => ?_⟩
  cases htaken : (fresh freeMap fileSize)[(j : Nat) - 0]? with
  | some s =>
    have hlt := lt_of_mem_fresh (List.mem_of_getElem? htaken)
    rw [ht.stored j s (Nat.zero_le _) htaken]
    exact ⟨by omega, by simp only [FileSys.numSectors, sectorsPerTrack, numTracks] at hlt; omega⟩
  | none =>
    rw [ht.kept j (Or.inr (by rw [Nat.zero_add]; exact List.getElem?_eq_none_iff.mp htaken))]
    exact hf.dataSectors j

theorem allocate_sectors (hle : divRoundUp fileSize sectorSize ≤ freeMap.numClear)
    (hdirect : divRoundUp fileSize sectorSize ≤ numDirect) :
    (h.allocate freeMap fileSize).hdr.sectors = (fresh freeMap fileSize).map Int.ofNat := by
  have ht := allocate_takes (h := h) hle
  have hlen := length_fresh hle
  refine List.ext_getElem ?_ fun j hj hj' => ?_
  · rw [sectors, ht.numSectors, List.length_map, List.length_range, List.length_map, hlen]
  · rw [List.length_map] at hj'
    have hlt : j < numDirect := by omega
    have hget : (fresh freeMap fileSize)[(⟨j, hlt⟩ : Fin numDirect).val - 0]? =
        some (fresh freeMap fileSize)[j] := List.getElem?_eq_getElem hj'
    rw [List.getElem_map]
    simp only [sectors, List.getElem_map, List.getElem_range, sectorNo, dif_pos hlt]
    exact ht.stored ⟨j, hlt⟩ _ (Nat.zero_le _) hget

theorem allocate_valid (hnonneg : 0 ≤ fileSize) (hmax : fileSize ≤ maxFileSize)
    (hle : divRoundUp fileSize sectorSize ≤ freeMap.numClear) :
    (h.allocate freeMap fileSize).hdr.Valid := by
  have ht := allocate_takes (h := h) hle
  have hdirect := divRoundUp_le_numDirect hnonneg hmax
  have hsectors := allocate_sectors (h := h) hle hdirect
  refine ⟨by rw [ht.numBytes]; exact hnonneg, by rw [ht.numSectors, ht.numBytes],
    by rw [ht.numSectors]; exact hdirect, fun s hs => ?_, ?_⟩
  · rw [hsectors] at hs
    obtain ⟨t, htmem, rfl⟩ := List.mem_map.mp hs
    have hlt := lt_of_mem_fresh htmem
    exact ⟨Int.natCast_nonneg t, Int.ofNat_lt.mpr hlt⟩
  · rw [hsectors]
    exact ((freeMap.nodup_clearBits.sublist (List.take_sublist _ _))).map fun _ _ => Int.ofNat.inj

end Allocated

end FileHeader
end FileSys
end Nachos
