import Nachos.Lib.LittleEndian

/-!
# The disk under the file system

`SynchDisk` is taken here at its interface: an array of sectors with a
synchronous read and a synchronous write.  `Disk::ReadRequest` and
`Disk::WriteRequest` check the sector number with an `ASSERT`, and a failed
`ASSERT` calls `Abort`, which does not return.

Memory that `new` hands out holds whatever the heap left there.  It is a
`Block`, a function from offsets to bytes, and so is a caller's buffer.
-/

namespace Nachos
namespace FileSys

open Lib

/-- Bytes per disk sector. -/
@[simp] abbrev sectorSize : Nat := 128

@[simp] abbrev sectorsPerTrack : Nat := 32

@[simp] abbrev numTracks : Nat := 32

/-- Sectors per disk. -/
@[simp] abbrev numSectors : Nat := sectorsPerTrack * numTracks

/-- Memory seen from some pointer on: the byte at each offset. -/
abbrev Block := Nat → UInt8

/-- What `new` finds in the memory it hands out, allocation by allocation. -/
abbrev Junk := Nat → Block

abbrev Sector := Fin sectorSize → UInt8

namespace Sector

def get (s : Sector) (o : Nat) : UInt8 := if h : o < sectorSize then s ⟨o, h⟩ else 0

def ofBlock (b : Block) : Sector := fun o => b o

theorem get_ofBlock {b : Block} {o : Nat} (h : o < sectorSize) : (ofBlock b).get o = b o := by
  simp only [get, ofBlock, dif_pos h]

theorem ofBlock_congr {b c : Block} (h : ∀ o, o < sectorSize → b o = c o) :
    ofBlock b = ofBlock c := funext fun o => h o o.isLt

end Sector

/-- The `int` at word `w` of a block. -/
def Block.int (b : Block) (w : Nat) : Int :=
  LittleEndian.int32 (b (4 * w)) (b (4 * w + 1)) (b (4 * w + 2)) (b (4 * w + 3))

theorem Block.int_congr {b c : Block} {w : Nat} (h : ∀ k, k < 4 → b (4 * w + k) = c (4 * w + k)) :
    b.int w = c.int w := by
  have h₀ := h 0 (by omega)
  have h₁ := h 1 (by omega)
  have h₂ := h 2 (by omega)
  have h₃ := h 3 (by omega)
  rw [Nat.add_zero] at h₀
  simp only [Block.int, h₀, h₁, h₂, h₃]

theorem Block.fits_int (b : Block) (w : Nat) : LittleEndian.Fits (b.int w) :=
  LittleEndian.fits_int32 _ _ _ _

/-- A block whose word `w` is the image of `x` reads as `x` there. -/
theorem Block.int_image {b : Block} {w : Nat} {x : Int} (hx : LittleEndian.Fits x)
    (h : ∀ k, k < 4 → b (4 * w + k) = LittleEndian.byte x k) : b.int w = x := by
  have h₀ := h 0 (by omega)
  rw [Nat.add_zero] at h₀
  simp only [Block.int, h₀, h 1 (by omega), h 2 (by omega), h 3 (by omega)]
  exact LittleEndian.int32_byte hx

/-- The block seen from offset `off` on. -/
def Block.from (b : Block) (off : Nat) : Block := fun k => b (off + k)

/-- `bcopy` of `len` bytes of `src` to offset `off`. -/
def Block.copy (b : Block) (off len : Nat) (src : Block) : Block :=
  fun k => if off ≤ k ∧ k < off + len then src (k - off) else b k

/-- The contents of the disk. -/
abbrev Disk := Fin numSectors → Sector

/-- The sector numbers the disk accepts. -/
def OnDisk (n : Int) : Prop := 0 ≤ n ∧ n < numSectors

instance (n : Int) : Decidable (OnDisk n) := inferInstanceAs (Decidable (_ ∧ _))

namespace Disk

def sector (d : Disk) (n : Int) : Sector :=
  if h : OnDisk n then d ⟨n.toNat, by have := h.1; have := h.2; omega⟩ else fun _ => 0

def store (d : Disk) (n : Int) (s : Sector) : Disk := fun m => if (m : Int) = n then s else d m

theorem sector_store_self {d : Disk} {n : Int} (h : OnDisk n) (s : Sector) :
    (d.store n s).sector n = s := by
  have hn : ((n.toNat : Nat) : Int) = n := Int.toNat_of_nonneg h.1
  simp only [sector, dif_pos h, store, hn, if_true]

theorem sector_store_of_ne {d : Disk} {m n : Int} (h : m ≠ n) (s : Sector) :
    (d.store n s).sector m = d.sector m := by
  by_cases hm : OnDisk m
  · have he : ((m.toNat : Nat) : Int) ≠ n := by
      rw [Int.toNat_of_nonneg hm.1]
      exact h
    simp only [sector, dif_pos hm, store, if_neg he]
  · simp only [sector, dif_neg hm]

theorem ext {d d' : Disk} (h : ∀ n, OnDisk n → d.sector n = d'.sector n) : d = d' := by
  funext m
  have hm : OnDisk (m : Int) := ⟨by omega, by have := m.isLt; omega⟩
  have he := h m hm
  simpa only [sector, dif_pos hm, Int.toNat_natCast] using he

end Disk

/-- The ways a run of kernel code goes wrong: a failed `ASSERT`, an access
outside the array or buffer it is meant for, and a `new` of a negative size. -/
inductive Fault
  | assertFailed
  | outOfBounds
  | badAlloc
  deriving DecidableEq, Repr

/-- The bytes `off .. off + len - 1` lie inside a buffer of `size` bytes. -/
def checkRange (off len size : Int) : Except Fault Unit :=
  if 0 ≤ off ∧ 0 ≤ len ∧ off + len ≤ size then .ok () else .error .outOfBounds

theorem checkRange_ok {off len size : Int} (h : 0 ≤ off ∧ 0 ≤ len ∧ off + len ≤ size) :
    checkRange off len size = .ok () := if_pos h

/-- Kernel code over the disk. -/
abbrev SynchDisk := StateT Disk (Except Fault)

section Run

variable {α β : Type} {x : SynchDisk α} {f : α → SynchDisk β} {d d' : Disk} {a : α}

theorem run_pure (a : α) (d : Disk) : (pure a : SynchDisk α).run d = .ok (a, d) := rfl

/-- What follows a call that succeeds runs from where the call left the disk. -/
theorem run_bind (h : x.run d = .ok (a, d')) : (x >>= f).run d = (f a).run d' := by
  rw [StateT.run_bind, h]
  rfl

/-- A computation that does not use the disk, run inside one that does. -/
theorem run_lift_bind {e : Except Fault α} (h : e = .ok a) (d : Disk) :
    ((liftM e : SynchDisk α) >>= f).run d = (f a).run d := by
  subst h
  rfl

end Run

/-- `SynchDisk::ReadSector`. -/
def readSector (sectorNumber : Int) : SynchDisk Sector := do
  let d ← get
  if OnDisk sectorNumber then pure (d.sector sectorNumber) else throw .assertFailed

/-- `SynchDisk::WriteSector`. -/
def writeSector (sectorNumber : Int) (data : Sector) : SynchDisk Unit := do
  let d ← get
  if OnDisk sectorNumber then set (d.store sectorNumber data) else throw .assertFailed

theorem readSector_run {n : Int} (h : OnDisk n) (d : Disk) :
    (readSector n).run d = .ok (d.sector n, d) := by
  simp only [readSector, if_pos h]
  rfl

theorem writeSector_run {n : Int} (h : OnDisk n) (s : Sector) (d : Disk) :
    (writeSector n s).run d = .ok ((), d.store n s) := by
  simp only [writeSector, if_pos h]
  rfl

end FileSys
end Nachos
