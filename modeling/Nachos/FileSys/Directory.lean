import Mathlib.Data.List.FinRange
import Nachos.FileSys.OpenFile

/-!
# The directory

A table of entries of fixed size, each a name and the sector of a file header.
Names are compared on their first `fileNameMaxLen` bytes.
-/

namespace Nachos
namespace FileSys

open Lib LittleEndian

@[simp] abbrev fileNameMaxLen : Nat := 9

/-! ## Names -/

/-- A C string: the characters before its NUL. -/
structure CString where
  chars : List UInt8
  nonzero : ∀ c ∈ chars, c ≠ 0

/-- The bytes of the string, as `strncmp` and `strncpy` see them. -/
def CString.bytes (s : CString) : Block := fun k => s.chars.getD k 0

/-- `!strncmp(a + i, b + i, n)`. -/
def strncmpEq (a b : Block) (i : Nat) : Nat → Bool
  | 0 => true
  | n + 1 => a i == b i && (a i == 0 || strncmpEq a b (i + 1) n)

section Strncmp

variable {a b c : Block} {i n : Nat}

theorem strncmpEq_refl (a : Block) (i n : Nat) : strncmpEq a a i n = true := by
  induction n generalizing i with
  | zero => rfl
  | succ n ih => rw [strncmpEq, beq_self_eq_true, Bool.true_and, ih, Bool.or_true]

theorem strncmpEq_symm (h : strncmpEq a b i n = true) : strncmpEq b a i n = true := by
  induction n generalizing i with
  | zero => rfl
  | succ n ih =>
    simp only [strncmpEq, Bool.and_eq_true, Bool.or_eq_true, beq_iff_eq] at h ⊢
    exact ⟨h.1.symm, h.2.imp (fun h0 => h.1 ▸ h0) ih⟩

theorem strncmpEq_trans (hab : strncmpEq a b i n = true) (hbc : strncmpEq b c i n = true) :
    strncmpEq a c i n = true := by
  induction n generalizing i with
  | zero => rfl
  | succ n ih =>
    simp only [strncmpEq, Bool.and_eq_true, Bool.or_eq_true, beq_iff_eq] at hab hbc ⊢
    refine ⟨hab.1.trans hbc.1, ?_⟩
    rcases hab.2 with h0 | hab'
    · exact Or.inl h0
    · rcases hbc.2 with h0 | hbc'
      · exact Or.inl (hab.1.trans h0)
      · exact Or.inr (ih hab' hbc')

/-- The comparison reads the first `n` bytes only. -/
theorem strncmpEq_congr (h : ∀ k, i ≤ k → k < i + n → b k = c k) :
    strncmpEq a b i n = strncmpEq a c i n := by
  induction n generalizing i with
  | zero => rfl
  | succ n ih =>
    rw [strncmpEq, strncmpEq, h i (Nat.le_refl _) (by omega),
      ih fun k hk hlt => h k (by omega) (by omega)]

end Strncmp

/-! ## Entries -/

/-- One entry of the table, with the bytes the compiler puts after `inUse` and
after `name` to align the fields. -/
structure DirectoryEntry where
  inUse : Bool
  pad : Fin 3 → UInt8
  sector : Int
  name : Fin (fileNameMaxLen + 1) → UInt8
  tail : Fin 2 → UInt8

/-- `sizeof(DirectoryEntry)`. -/
@[simp] abbrev sizeofDirectoryEntry : Nat := 20

namespace DirectoryEntry

/-- The name in memory; what lies after it is not read. -/
def nameBytes (e : DirectoryEntry) : Block :=
  fun k => if h : k < fileNameMaxLen + 1 then e.name ⟨k, h⟩ else 0

/-- Whether `strncmp` finds the entry's name equal to `name`. -/
def sameName (e : DirectoryEntry) (name : Block) : Bool :=
  strncmpEq e.nameBytes name 0 fileNameMaxLen

theorem sameName_comm (e f : DirectoryEntry) :
    e.sameName f.nameBytes = f.sameName e.nameBytes :=
  Bool.eq_iff_iff.mpr ⟨strncmpEq_symm, strncmpEq_symm⟩

def toBlock (e : DirectoryEntry) : Block := fun k =>
  if k = 0 then (if e.inUse then 1 else 0)
  else if h : k - 1 < 3 then e.pad ⟨k - 1, h⟩
  else if k < 8 then byte e.sector (k - 4)
  else if h : k - 8 < fileNameMaxLen + 1 then e.name ⟨k - 8, h⟩
  else if h : k - 18 < 2 then e.tail ⟨k - 18, h⟩
  else 0

def ofBlock (b : Block) : DirectoryEntry where
  inUse := b 0 != 0
  pad := fun k => b (1 + k)
  sector := b.int 1
  name := fun k => b (8 + k)
  tail := fun k => b (18 + k)

theorem ofBlock_congr {b c : Block} (h : ∀ k, k < sizeofDirectoryEntry → b k = c k) :
    ofBlock b = ofBlock c := by
  simp only [ofBlock, mk.injEq]
  refine ⟨by rw [h 0 (by simp)], funext fun k => h _ ?_, Block.int_congr fun k hk => h _ ?_,
    funext fun k => h _ ?_, funext fun k => h _ ?_⟩
  all_goals simp only [sizeofDirectoryEntry, fileNameMaxLen] at *; omega

theorem ofBlock_toBlock {e : DirectoryEntry} (hs : Fits e.sector) : ofBlock e.toBlock = e := by
  have hsector : e.toBlock.int 1 = e.sector := by
    refine Block.int_image hs fun k hk => ?_
    have hsub : 4 * 1 + k - 4 = k := by omega
    rw [toBlock, if_neg (by omega), dif_neg (by omega), if_pos (by omega), hsub]
  obtain ⟨inUse, pad, sector, name, tail⟩ := e
  simp only [ofBlock, mk.injEq]
  refine ⟨?_, funext fun k => ?_, hsector, funext fun k => ?_, funext fun k => ?_⟩
  · cases inUse <;> rfl
  · have hlt : 1 + (k : Nat) - 1 < 3 := by omega
    simp only [toBlock, if_neg (show 1 + (k : Nat) ≠ 0 by omega), dif_pos hlt]
    congr 1
    exact Fin.ext (by simp)
  · have hlt : 8 + (k : Nat) - 8 < fileNameMaxLen + 1 := by omega
    simp only [toBlock, if_neg (show 8 + (k : Nat) ≠ 0 by omega),
      dif_neg (show ¬ 8 + (k : Nat) - 1 < 3 by omega), if_neg (show ¬ 8 + (k : Nat) < 8 by omega),
      dif_pos hlt]
    congr 1
    exact Fin.ext (by simp)
  · have hlt : 18 + (k : Nat) - 18 < 2 := by omega
    simp only [toBlock, if_neg (show 18 + (k : Nat) ≠ 0 by omega),
      dif_neg (show ¬ 18 + (k : Nat) - 1 < 3 by omega), if_neg (show ¬ 18 + (k : Nat) < 8 by omega),
      dif_neg (show ¬ 18 + (k : Nat) - 8 < fileNameMaxLen + 1 by simp only [fileNameMaxLen]; omega),
      dif_pos hlt]
    congr 1
    exact Fin.ext (by simp only; omega)

/-- The entry with `inUse` cleared. -/
def free (e : DirectoryEntry) : DirectoryEntry := { e with inUse := false }

/-- The entry after `Add` has stored in it; `strncpy` leaves the last byte of
the name alone. -/
def fill (e : DirectoryEntry) (name : Block) (newSector : Int) : DirectoryEntry :=
  { e with
    inUse := true
    name := fun k => if (k : Nat) < fileNameMaxLen then name k else e.name k
    sector := newSector }

/-- The name stored compares as the name given. -/
theorem sameName_fill (e : DirectoryEntry) (name a : Block) (s : Int) :
    (fill e name s).sameName a = strncmpEq name a 0 fileNameMaxLen := by
  rw [Bool.eq_iff_iff, sameName]
  have hname : ∀ k, 0 ≤ k → k < 0 + fileNameMaxLen →
      (fill e name s).nameBytes k = name k := by
    intro k _ hk
    have hlt : k < fileNameMaxLen := by simpa using hk
    simp only [nameBytes, fill, dif_pos (Nat.lt_succ_of_lt hlt),
      if_pos hlt]
  exact ⟨fun h => strncmpEq_symm (by rw [← strncmpEq_congr hname]; exact strncmpEq_symm h),
    fun h => strncmpEq_symm (by rw [strncmpEq_congr hname]; exact strncmpEq_symm h)⟩

end DirectoryEntry

/-! ## The table -/

structure Directory (tableSize : Nat) where
  table : Fin tableSize → DirectoryEntry

namespace Directory

variable {n : Nat}

def toBlock (dir : Directory n) : Block := fun k =>
  if h : k / sizeofDirectoryEntry < n
  then (dir.table ⟨k / sizeofDirectoryEntry, h⟩).toBlock (k % sizeofDirectoryEntry) else 0

def ofBlock (n : Nat) (b : Block) : Directory n :=
  { table := fun i => DirectoryEntry.ofBlock (b.from (sizeofDirectoryEntry * i)) }

theorem ofBlock_congr {b c : Block} (h : ∀ k, k < sizeofDirectoryEntry * n → b k = c k) :
    ofBlock n b = ofBlock n c := by
  simp only [ofBlock, mk.injEq]
  funext i
  refine DirectoryEntry.ofBlock_congr fun k hk => h _ ?_
  have hi := i.isLt
  simp only [sizeofDirectoryEntry] at hk ⊢
  omega

/-- The entries' sectors are 32-bit integers, as every `int` is. -/
def Fits (dir : Directory n) : Prop := ∀ i, LittleEndian.Fits (dir.table i).sector

theorem fits_ofBlock (n : Nat) (b : Block) : (ofBlock n b).Fits := fun _ => Block.fits_int _ 1

theorem ofBlock_toBlock {dir : Directory n} (hf : dir.Fits) : ofBlock n dir.toBlock = dir := by
  obtain ⟨table⟩ := dir
  simp only [ofBlock, mk.injEq]
  funext i
  have hentry : ∀ k, k < sizeofDirectoryEntry →
      (toBlock ⟨table⟩).from (sizeofDirectoryEntry * i) k = (table i).toBlock k := by
    intro k hk
    have hdiv : (sizeofDirectoryEntry * i + k) / sizeofDirectoryEntry = i := by
      simp only [sizeofDirectoryEntry] at hk ⊢
      omega
    have hmod : (sizeofDirectoryEntry * i + k) % sizeofDirectoryEntry = k := by
      simp only [sizeofDirectoryEntry] at hk ⊢
      omega
    simp only [Block.from, toBlock, hdiv, hmod, i.isLt, dif_pos]
  rw [DirectoryEntry.ofBlock_congr hentry, DirectoryEntry.ofBlock_toBlock (hf i)]

/-- `Directory::Directory`. -/
def new (n : Nat) (junk : Block) : Directory n :=
  { table := fun i => ((ofBlock n junk).table i).free }

/-- `Directory::FindIndex`; `none` is its -1. -/
def findIndex (dir : Directory n) (name : Block) : Option (Fin n) :=
  (List.finRange n).find? fun i => (dir.table i).inUse && (dir.table i).sameName name

/-- `Directory::Find`. -/
def find (dir : Directory n) (name : Block) : Int :=
  match dir.findIndex name with
  | some i => (dir.table i).sector
  | none => -1

/-- The entry `Add` fills: the first one not in use. -/
def firstUnused (dir : Directory n) : Option (Fin n) :=
  (List.finRange n).find? fun i => !(dir.table i).inUse

def setEntry (dir : Directory n) (i : Fin n) (e : DirectoryEntry) : Directory n :=
  { table := fun j => if j = i then e else dir.table j }

theorem Fits.setEntry {dir : Directory n} (hf : dir.Fits) {i : Fin n} {e : DirectoryEntry}
    (he : LittleEndian.Fits e.sector) : (dir.setEntry i e).Fits := by
  intro j
  by_cases hj : j = i
  · simp only [Directory.setEntry, if_pos hj]
    exact he
  · simp only [Directory.setEntry, if_neg hj]
    exact hf j

/-- `Directory::Add`. -/
def add (dir : Directory n) (name : Block) (newSector : Int) : Bool × Directory n :=
  if (dir.findIndex name).isSome then (false, dir)
  else match dir.firstUnused with
    | some i => (true, dir.setEntry i (DirectoryEntry.fill (dir.table i) name newSector))
    | none => (false, dir)

/-- `Directory::Remove`. -/
def remove (dir : Directory n) (name : Block) : Bool × Directory n :=
  match dir.findIndex name with
  | some i => (true, dir.setEntry i (dir.table i).free)
  | none => (false, dir)

section Lookup

variable {dir : Directory n} {name : Block} {i : Fin n}

theorem findIndex_some (h : dir.findIndex name = some i) :
    (dir.table i).inUse = true ∧ (dir.table i).sameName name = true := by
  have := List.find?_some h
  rwa [Bool.and_eq_true] at this

theorem findIndex_none (h : dir.findIndex name = none) (i : Fin n)
    (hu : (dir.table i).inUse = true) : (dir.table i).sameName name = false := by
  have := List.find?_eq_none.mp h i (List.mem_finRange i)
  rw [Bool.and_eq_true, not_and, Bool.not_eq_true] at this
  exact this hu

/-- The directory holds the name when some entry in use has it. -/
theorem findIndex_eq_none_iff : dir.findIndex name = none ↔
    ∀ i, (dir.table i).inUse = true → (dir.table i).sameName name = false := by
  refine ⟨fun h i => findIndex_none h i, fun h => List.find?_eq_none.mpr fun i _ => ?_⟩
  rw [Bool.and_eq_true, not_and, Bool.not_eq_true]
  exact h i

theorem firstUnused_some (h : dir.firstUnused = some i) : (dir.table i).inUse = false := by
  have := List.find?_some h
  rwa [Bool.not_eq_true'] at this

theorem firstUnused_eq_none_iff :
    dir.firstUnused = none ↔ ∀ i, (dir.table i).inUse = true := by
  simp [firstUnused, List.find?_eq_none]

end Lookup

end Directory
end FileSys
end Nachos
