import Nachos.FileSys.FileHdr

/-!
# Allocation and deallocation

`deallocate` undoes `allocate`: the sectors that `allocate` recorded are marked,
no operation on other bits clears them, and `deallocate` gives back just these.
-/

namespace Nachos
namespace FileSys

/-! ## Operations on a bitmap -/

/-- The operations of `BitMap` that change it. -/
inductive MapOp
  | mark (which : Int)
  | clear (which : Int)
  | find

namespace MapOp

variable {n : Nat} {m m' : BitMap n} {i : Nat}

def run (m : BitMap n) : MapOp → Except Fault (BitMap n)
  | mark which => m.mark which
  | clear which => m.clear which
  | find => .ok m.find.2

/-- The operation is on another bit than `s`.  The caller does not choose the bit
that `find` takes. -/
def Spares (s : Int) : MapOp → Prop
  | mark which => which ≠ s
  | clear which => which ≠ s
  | find => True

theorem bit_of_find (hi : i < n) (hbit : m.bit i = true) : m.find.2.bit i = true := by
  cases hclear : m.clearBits with
  | nil => rw [BitMap.find_of_nil hclear, hbit]
  | cons b rest => rw [BitMap.find_of_cons hclear, BitMap.bit_setBit m hi, hbit, Bool.true_or]

/-- An operation on another bit leaves a set bit set. -/
theorem bit_of_run {op : MapOp} (hspare : op.Spares i) (hi : i < n) (hbit : m.bit i = true)
    (hrun : op.run m = .ok m') : m'.bit i = true := by
  cases op with
  | mark which =>
    by_cases hin : 0 ≤ which ∧ which < n
    · rw [run, BitMap.mark_ok m hin, Except.ok.injEq] at hrun
      rw [← hrun, BitMap.bit_setBit m hi, hbit, Bool.true_or]
    · rw [run, BitMap.mark, if_neg hin] at hrun
      cases hrun
  | clear which =>
    by_cases hin : 0 ≤ which ∧ which < n
    · have hne : i ≠ which.toNat := by
        intro he
        have hother : which ≠ i := hspare
        omega
      rw [run, BitMap.clear_ok m hin, Except.ok.injEq] at hrun
      rw [← hrun, BitMap.bit_clearBit m hi, hbit, decide_eq_false hne]
      rfl
    · rw [run, BitMap.clear, if_neg hin] at hrun
      cases hrun
  | find =>
    rw [run, Except.ok.injEq] at hrun
    rw [← hrun]
    exact bit_of_find hi hbit

end MapOp

/-- A sequence of operations, up to the first `ASSERT` that fails. -/
def runMapOps {n : Nat} (m : BitMap n) : List MapOp → Except Fault (BitMap n)
  | [] => .ok m
  | op :: ops => op.run m >>= fun m => runMapOps m ops

theorem bit_of_runMapOps {n : Nat} {i : Nat} (hi : i < n) {ops : List MapOp} {m m' : BitMap n}
    (hspare : ∀ op ∈ ops, op.Spares i) (hbit : m.bit i = true)
    (hrun : runMapOps m ops = .ok m') : m'.bit i = true := by
  induction ops generalizing m with
  | nil =>
    rw [runMapOps, Except.ok.injEq] at hrun
    rw [← hrun, hbit]
  | cons op ops ih =>
    rw [runMapOps] at hrun
    cases hstep : op.run m with
    | error e =>
      rw [hstep] at hrun
      cases hrun
    | ok m₁ =>
      rw [hstep] at hrun
      have hhead := MapOp.bit_of_run (hspare op List.mem_cons_self) hi hbit hstep
      exact ih (fun op hop => hspare op (List.mem_cons_of_mem _ hop)) hhead hrun

namespace FileHeader

variable {n : Nat}

/-! ## What `allocate` records -/

/-- The macro `divRoundUp` rounds up. -/
theorem divRoundUp_eq_ceil {x : Int} (hx : 0 ≤ x) : divRoundUp x sectorSize = (x + 127) / 128 := by
  rw [divRoundUp_of_nonneg hx]
  simp only [sectorSize]
  split <;> omega

/-- The sectors of a header whose table starts with `taken` and counts no more. -/
theorem sectors_of_stored {h : FileHeader} {taken : List Nat} (hcount : h.numSectors = taken.length)
    (hdirect : taken.length ≤ numDirect)
    (hstored : ∀ j : Fin numDirect, ∀ s, taken[(j : Nat)]? = some s → h.dataSectors j = s) :
    h.sectors = taken.map Int.ofNat := by
  refine List.ext_getElem ?_ fun j hj hj' => ?_
  · rw [sectors, hcount, List.length_map, List.length_range, List.length_map, Int.toNat_natCast]
  · rw [List.length_map] at hj'
    have hlt : j < numDirect := Nat.lt_of_lt_of_le hj' hdirect
    rw [List.getElem_map]
    simp only [sectors, List.getElem_map, List.getElem_range, sectorNo, dif_pos hlt]
    exact hstored ⟨j, hlt⟩ _ (List.getElem?_eq_getElem hj')

/-- What a successful `allocate` has done: `h` is the header and `after` the map
after it. -/
structure Recorded (h : FileHeader) (freeMap after : BitMap n) (fileSize : Int) : Prop where
  numBytes : h.numBytes = fileSize
  numSectors : h.numSectors = (fileSize + 127) / 128
  length : (h.sectors.length : Int) = (fileSize + 127) / 128
  increasing : h.sectors.Pairwise (· < ·)
  clear : ∀ s ∈ h.sectors, (0 ≤ s ∧ s < n) ∧ freeMap.bit s.toNat = false
  bit : ∀ j, j < n → after.bit j = (freeMap.bit j || decide ((j : Int) ∈ h.sectors))

theorem clearBits_increasing (m : BitMap n) : m.clearBits.Pairwise (· < ·) :=
  List.pairwise_lt_range.filter _

theorem mem_map_ofNat {j : Nat} {l : List Nat} : (j : Int) ∈ l.map Int.ofNat ↔ j ∈ l := by
  constructor
  · intro hmem
    obtain ⟨i, hi, he⟩ := List.mem_map.mp hmem
    rwa [← Int.ofNat.inj he]
  · intro hmem
    exact List.mem_map.mpr ⟨j, hmem, rfl⟩

theorem allocate_recorded (h : FileHeader) {freeMap : BitMap n} {fileSize : Int}
    (hsize : 0 ≤ fileSize) (hdirect : (fileSize + 127) / 128 ≤ numDirect)
    (hroom : (fileSize + 127) / 128 ≤ freeMap.numClear) :
    (h.allocate freeMap fileSize).success = true ∧
      Recorded (h.allocate freeMap fileSize).hdr freeMap (h.allocate freeMap fileSize).freeMap
        fileSize := by
  rw [← divRoundUp_eq_ceil hsize] at hdirect hroom
  have htakes := allocate_takes (h := h) hroom
  have hnonneg : 0 ≤ divRoundUp fileSize sectorSize := by
    rw [divRoundUp_eq_ceil hsize]
    omega
  generalize htaken : freeMap.clearBits.take (divRoundUp fileSize sectorSize).toNat = taken
    at htakes
  have hlength : (taken.length : Int) = divRoundUp fileSize sectorSize := by
    rw [BitMap.numClear_eq] at hroom
    rw [← htaken, List.length_take_of_le (by omega)]
    omega
  have hsectors : (h.allocate freeMap fileSize).hdr.sectors = taken.map Int.ofNat := by
    refine sectors_of_stored ?_ ?_ fun j s hs => htakes.stored j s (Nat.zero_le _) hs
    · rw [htakes.numSectors, hlength]
    · omega
  have hmem : ∀ s ∈ taken, s < n ∧ freeMap.bit s = false := by
    intro s hs
    rw [← htaken] at hs
    exact BitMap.mem_clearBits.mp (List.mem_of_mem_take hs)
  refine ⟨htakes.success, htakes.numBytes, ?_, ?_, ?_, ?_, ?_⟩
  · rw [htakes.numSectors, divRoundUp_eq_ceil hsize]
  · rw [hsectors, List.length_map, hlength, divRoundUp_eq_ceil hsize]
  · rw [hsectors, List.pairwise_map]
    refine List.Pairwise.imp Int.ofNat_lt.mpr ?_
    rw [← htaken]
    exact (clearBits_increasing freeMap).sublist (List.take_sublist _ _)
  · intro s hs
    rw [hsectors] at hs
    obtain ⟨t, ht, rfl⟩ := List.mem_map.mp hs
    obtain ⟨hlt, hbit⟩ := hmem t ht
    exact ⟨⟨Int.natCast_nonneg t, Int.ofNat_lt.mpr hlt⟩, hbit⟩
  · intro j hj
    rw [htakes.bit j hj, hsectors, decide_eq_decide.mpr mem_map_ofNat]

/-! ## What `deallocate` gives back -/

/-- `deallocate` clears the sectors of a header when they are distinct and
marked. -/
theorem deallocate_clears {h : FileHeader} {m : BitMap n} (hdirect : h.numSectors ≤ numDirect)
    (hnodup : h.sectors.Nodup)
    (hmarked : ∀ s ∈ h.sectors, (0 ≤ s ∧ s < n) ∧ m.bit s.toNat = true) :
    ∃ m', h.deallocate m = .ok m' ∧
      ∀ j, j < n → m'.bit j = (m.bit j && !decide ((j : Int) ∈ h.sectors)) := by
  have hrange : h.sectors = (List.range' 0 h.numSectors.toNat).map h.sectorNo := by
    rw [sectors, List.range_eq_range']
  rw [hrange] at hnodup hmarked ⊢
  exact h.deallocateLoop_ok _ m 0 (by omega) hnodup hmarked

/-- Operations on other bits leave the header's sectors marked, and `deallocate`
clears exactly these. -/
theorem Recorded.deallocate {h : FileHeader} {freeMap after m : BitMap n} {fileSize : Int}
    (hrec : Recorded h freeMap after fileSize) (hdirect : (fileSize + 127) / 128 ≤ numDirect)
    {ops : List MapOp} (hspare : ∀ op ∈ ops, ∀ s ∈ h.sectors, op.Spares s)
    (hrun : runMapOps after ops = .ok m) :
    ∃ m', h.deallocate m = .ok m' ∧
      ∀ j, j < n → m'.bit j = (m.bit j && !decide ((j : Int) ∈ h.sectors)) := by
  refine deallocate_clears ?_ ?_ fun s hs => ?_
  · rw [hrec.numSectors]
    exact hdirect
  · exact hrec.increasing.imp fun hlt => Int.ne_of_lt hlt
  · obtain ⟨hin, -⟩ := hrec.clear s hs
    refine ⟨hin, ?_⟩
    have hs' : ((s.toNat : Nat) : Int) = s := Int.toNat_of_nonneg hin.1
    have hlt : s.toNat < n := by omega
    refine bit_of_runMapOps hlt (fun op hop => ?_) ?_ hrun
    · rw [hs']
      exact hspare op hop s hs
    · rw [hrec.bit _ hlt, hs', decide_eq_true hs, Bool.or_true]

/-- `allocate` fails, and leaves the map alone, just when too few bits are clear.
Otherwise it marks and records as many clear bits as the file has sectors, and
`deallocate` clears just these, whatever has been done to other bits. -/
theorem allocate_deallocate (h : FileHeader) (freeMap : BitMap n) {fileSize : Int}
    (hsize : 0 ≤ fileSize) (hdirect : (fileSize + 127) / 128 ≤ numDirect) :
    ((h.allocate freeMap fileSize).success = false ↔
        freeMap.numClear < (fileSize + 127) / 128) ∧
      ((h.allocate freeMap fileSize).success = false →
        (h.allocate freeMap fileSize).freeMap = freeMap) ∧
      ((h.allocate freeMap fileSize).success = true →
        Recorded (h.allocate freeMap fileSize).hdr freeMap (h.allocate freeMap fileSize).freeMap
            fileSize ∧
          ∀ ops m, (∀ op ∈ ops, ∀ s ∈ (h.allocate freeMap fileSize).hdr.sectors, op.Spares s) →
            runMapOps (h.allocate freeMap fileSize).freeMap ops = .ok m →
            ∃ m', (h.allocate freeMap fileSize).hdr.deallocate m = .ok m' ∧ ∀ j, j < n →
              m'.bit j = (m.bit j &&
                !decide ((j : Int) ∈ (h.allocate freeMap fileSize).hdr.sectors))) := by
  by_cases hroom : freeMap.numClear < (fileSize + 127) / 128
  · have hlt := hroom
    rw [← divRoundUp_eq_ceil hsize] at hlt
    have hfail : h.allocate freeMap fileSize = ⟨false,
        { h with numBytes := fileSize, numSectors := divRoundUp fileSize sectorSize },
        freeMap, []⟩ := by
      simp only [allocate, if_pos hlt]
    rw [hfail]
    exact ⟨iff_of_true rfl hroom, fun _ => rfl, fun hs => absurd hs Bool.false_ne_true⟩
  · obtain ⟨hsuccess, hrec⟩ := allocate_recorded h hsize hdirect (Int.not_lt.mp hroom)
    rw [hsuccess]
    refine ⟨iff_of_false (by simp) hroom, fun hs => absurd hs.symm Bool.false_ne_true,
      fun _ => ⟨hrec, fun ops m hspare hrun => hrec.deallocate hdirect hspare hrun⟩⟩

def emptyMap : BitMap 8 := BitMap.new 8 fun _ => 0

def twoSectors : Allocation 8 := (ofBlock fun _ => 0).allocate emptyMap 200

/-- A file of two sectors on a map of eight clear bits; another bit is taken
before the file is given up. -/
theorem allocate_deallocate_twoSectors : twoSectors.hdr.sectors = [0, 1] ∧
    ∃ m m', runMapOps twoSectors.freeMap [.mark 7, .find] = .ok m ∧
      twoSectors.hdr.deallocate m = .ok m' ∧
      ∀ j, j < 8 → m'.bit j = (m.bit j && !decide ((j : Int) ∈ twoSectors.hdr.sectors)) := by
  have hsectors : twoSectors.hdr.sectors = [0, 1] := by decide
  have hrun : runMapOps twoSectors.freeMap [.mark 7, .find] =
      .ok (twoSectors.freeMap.setBit 7).find.2 := rfl
  have hall := allocate_deallocate (ofBlock fun _ => 0) emptyMap
    (show (0 : Int) ≤ 200 by decide) (by decide)
  have hspare : ∀ op ∈ [MapOp.mark 7, .find], ∀ s ∈ twoSectors.hdr.sectors, op.Spares s := by
    intro op hop s hs
    rw [hsectors] at hs
    rcases List.mem_pair.mp hop with rfl | rfl
    · rcases List.mem_pair.mp hs with rfl | rfl
      · show (7 : Int) ≠ 0
        decide
      · show (7 : Int) ≠ 1
        decide
    · trivial
  obtain ⟨m', hm', hbits⟩ := (hall.2.2 (by decide)).2 _ _ hspare hrun
  exact ⟨hsectors, _, m', hrun, hm', hbits⟩

end FileHeader
end FileSys
end Nachos
