import Nachos.FileSys.DirectoryMap

/-!
# Listing the directory

`List` and `Print` hand the names of entries to `printf` as C strings.  `Add` copies
`fileNameMaxLen` bytes of a name, so that a name that is shorter brings its NUL
along, and the last byte of the field is never written.
-/

namespace Nachos
namespace FileSys

open Lib LittleEndian

/-! ## Output -/

def ascii (s : String) : List UInt8 := s.toList.map fun c => UInt8.ofNat c.toNat

/-- `%d`. -/
def decimal (x : Int) : List UInt8 := ascii (toString x)

/-- `%x` of a byte. -/
def hex (x : UInt8) : List UInt8 := (Nat.toDigits 16 x.toNat).map fun c => UInt8.ofNat c.toNat

/-- `%s` of an array of `n` bytes that starts at `b + i`: the bytes up to the NUL.
Without a NUL the reading goes on past the end of the array. -/
def readString (b : Block) (i : Nat) : Nat → Except Fault (List UInt8)
  | 0 => .error .outOfBounds
  | n + 1 => if b i = 0 then .ok [] else (readString b (i + 1) n).map (b i :: ·)

namespace FileHeader

/-- The data sectors that `FileHeader::Print` lists, from index `i` on. -/
def printBlocks (h : FileHeader) (i : Int) : Nat → Except Fault (List UInt8)
  | 0 => .ok []
  | count + 1 => do
    let sector ← h.sectorAt i
    let rest ← printBlocks h (i + 1) count
    pure (decimal sector ++ ascii " " ++ rest)

def printByte (c : UInt8) : List UInt8 :=
  if 32 ≤ c ∧ c ≤ 126 then [c] else ascii "\\" ++ hex c

/-- The inner loop of `FileHeader::Print`, with `k` bytes of the file printed so far. -/
def printData (data : Sector) (numBytes : Int) (j : Nat) (k : Int) : Nat → List UInt8 × Int
  | 0 => ([], k)
  | count + 1 =>
    if k < numBytes then
      let rest := printData data numBytes (j + 1) (k + 1) count
      (printByte (data.get j) ++ rest.1, rest.2)
    else ([], k)

def printSectors (h : FileHeader) (i k : Int) : Nat → SynchDisk (List UInt8)
  | 0 => pure []
  | count + 1 => do
    let sector ← h.sectorAt i
    let data ← readSector sector
    let printed := printData data h.numBytes 0 k sectorSize
    let rest ← printSectors h (i + 1) printed.2 count
    pure (printed.1 ++ ascii "\n" ++ rest)

/-- `FileHeader::Print`. -/
def print (h : FileHeader) : SynchDisk (List UInt8) := do
  let blocks ← h.printBlocks 0 h.numSectors.toNat
  let data ← h.printSectors 0 0 h.numSectors.toNat
  pure (ascii "FileHeader contents.  File size: " ++ decimal h.numBytes ++
    ascii ".  File blocks:\n" ++ blocks ++ ascii "\nFile contents:\n" ++ data)

end FileHeader

/-- The entry's name as `%s` prints it. -/
def DirectoryEntry.printName (e : DirectoryEntry) : Except Fault (List UInt8) :=
  readString e.nameBytes 0 (fileNameMaxLen + 1)

namespace Directory

variable {n : Nat}

/-- The lines for the entries in `is`. -/
def listEntries (dir : Directory n) : List (Fin n) → Except Fault (List UInt8)
  | [] => .ok []
  | i :: is =>
    if (dir.table i).inUse then do
      let name ← (dir.table i).printName
      let rest ← listEntries dir is
      pure (name ++ ascii "\n" ++ rest)
    else listEntries dir is

/-- `Directory::List`. -/
def list (dir : Directory n) : Except Fault (List UInt8) := dir.listEntries (List.finRange n)

/-- What `Print` prints for the entries in `is`, with `name` for the text that `%s`
gives. -/
def printEntries (dir : Directory n) (name : Fin n → Except Fault (List UInt8)) :
    List (Fin n) → SynchDisk (List UInt8)
  | [] => pure []
  | i :: is =>
    if (dir.table i).inUse then do
      let text ← name i
      let hdr ← FileHeader.fetchFrom (dir.table i).sector
      let data ← hdr.print
      let rest ← printEntries dir name is
      pure (ascii "Name: " ++ text ++ ascii ", Sector: " ++ decimal (dir.table i).sector ++
        ascii "\n" ++ data ++ rest)
    else printEntries dir name is

/-- `Directory::Print`, with `name` for the text that `%s` gives. -/
def printWith (dir : Directory n) (name : Fin n → Except Fault (List UInt8)) :
    SynchDisk (List UInt8) := do
  let entries ← dir.printEntries name (List.finRange n)
  pure (ascii "Directory contents:\n" ++ entries ++ ascii "\n")

/-- `Directory::Print`. -/
def print (dir : Directory n) : SynchDisk (List UInt8) :=
  dir.printWith fun i => (dir.table i).printName

end Directory

/-! ## Names with and without a NUL -/

section Strings

variable {b : Block} {i n : Nat}

/-- A string ends inside its array if it is shorter or the last byte is NUL. -/
theorem readString_succ : readString b i (n + 1) =
    if (cstr b i n).length < n ∨ b (i + n) = 0 then .ok (cstr b i n) else .error .outOfBounds := by
  induction n generalizing i with
  | zero =>
    rw [readString, readString, cstr, Nat.add_zero, List.length_nil]
    by_cases hb : b i = 0
    · rw [if_pos hb, if_pos (.inr hb)]
    · rw [if_neg hb, if_neg (by simp [hb])]
      rfl
  | succ n ih =>
    rw [readString, ih, cstr]
    by_cases hb : b i = 0
    · rw [if_pos hb, if_pos hb, if_pos (.inl (Nat.succ_pos n))]
    · have hnext : i + 1 + n = i + (n + 1) := by omega
      rw [if_neg hb, if_neg hb, hnext]
      simp only [List.length_cons, Nat.add_lt_add_iff_right]
      split <;> rfl

end Strings

/-- The last byte of the name field. -/
def DirectoryEntry.lastByte (e : DirectoryEntry) : UInt8 := e.name ⟨fileNameMaxLen, by simp⟩

/-- A full name is a string only if the last byte of its field is NUL. -/
theorem DirectoryEntry.printName_of_stored {e : DirectoryEntry} {name : CString}
    (hkey : nameKey e.nameBytes = name.key) : e.printName =
      if name.chars.length < fileNameMaxLen ∨ e.lastByte = 0 then .ok name.key
      else .error .outOfBounds := by
  have hlast : e.nameBytes (0 + fileNameMaxLen) = e.lastByte := by
    rw [Nat.zero_add, DirectoryEntry.nameBytes, dif_pos (by simp)]
    rfl
  have hshort : name.key.length < fileNameMaxLen ↔ name.chars.length < fileNameMaxLen := by
    rw [CString.key, List.length_take]
    omega
  rw [nameKey] at hkey
  rw [DirectoryEntry.printName, readString_succ, hkey, hlast]
  simp only [hshort]

/-! ## What has been added -/

/-- A directory with the names that its entries in use have been added under. -/
structure NamedDirectory (n : Nat) where
  dir : Directory n
  added : Fin n → CString

namespace NamedDirectory

variable {n : Nat} {s : NamedDirectory n} {c : DirectoryCall}

def new (n : Nat) (junk : Block) : NamedDirectory n where
  dir := Directory.new n junk
  added := fun _ => ⟨[], by simp⟩

/-- The entry that the call fills, with its name. -/
def filled (dir : Directory n) : DirectoryCall → Option (Fin n × CString)
  | .add name _ =>
    if (dir.findIndex name.bytes).isSome then none
    else dir.firstUnused.map fun i => (i, name)
  | .remove _ => none
  | .find _ => none

def call (s : NamedDirectory n) (c : DirectoryCall) : Reply × NamedDirectory n :=
  ((s.dir.call c).1,
    { dir := (s.dir.call c).2
      added := match filled s.dir c with
        | some (i, name) => Function.update s.added i name
        | none => s.added })

/-- What one call does: it fills an entry with a name, or it frees an entry, or
it leaves the directory as it is. -/
theorem call_cases (s : NamedDirectory n) (c : DirectoryCall) :
    (∃ i name newSector, filled s.dir c = some (i, name) ∧
        (s.call c).2.dir = s.dir.setEntry i ((s.dir.table i).fill name.bytes newSector) ∧
        (s.call c).2.added = Function.update s.added i name) ∨
      filled s.dir c = none ∧ (s.call c).2.added = s.added ∧
        ((s.call c).2.dir = s.dir ∨
          ∃ i, (s.call c).2.dir = s.dir.setEntry i (s.dir.table i).free) := by
  cases c with
  | add name newSector =>
    cases hfind : s.dir.findIndex name.bytes with
    | some i =>
      refine .inr ⟨?_, ?_, .inl ?_⟩ <;>
        simp [filled, call, Directory.call, Directory.add, hfind]
    | none =>
      cases hfree : s.dir.firstUnused with
      | none =>
        refine .inr ⟨?_, ?_, .inl ?_⟩ <;>
          simp [filled, call, Directory.call, Directory.add, hfind, hfree]
      | some i =>
        refine .inl ⟨i, name, newSector, ?_, ?_, ?_⟩ <;>
          simp [filled, call, Directory.call, Directory.add, hfind, hfree]
  | remove name =>
    refine .inr ⟨rfl, rfl, ?_⟩
    cases hfind : s.dir.findIndex name.bytes with
    | none => exact .inl (by simp [call, Directory.call, Directory.remove, hfind])
    | some i => exact .inr ⟨i, by simp [call, Directory.call, Directory.remove, hfind]⟩
  | find name => exact .inr ⟨rfl, rfl, .inl rfl⟩

/-- What one call does to entry `i`. -/
theorem entry_cases (s : NamedDirectory n) (c : DirectoryCall) (i : Fin n) :
    (∃ name newSector, filled s.dir c = some (i, name) ∧
        (s.call c).2.dir.table i = (s.dir.table i).fill name.bytes newSector ∧
        (s.call c).2.added i = name) ∨
      (s.call c).2.added i = s.added i ∧
        ((s.call c).2.dir.table i = s.dir.table i ∨
          (s.call c).2.dir.table i = (s.dir.table i).free) := by
  rcases s.call_cases c with
    ⟨j, name, newSector, hfilled, hdir, hadded⟩ | ⟨-, hadded, hdir | ⟨j, hdir⟩⟩
  · by_cases hij : i = j
    · subst hij
      refine .inl ⟨name, newSector, hfilled, ?_, ?_⟩
      · rw [hdir, Directory.table_setEntry_self]
      · rw [hadded, Function.update_self]
    · refine .inr ⟨?_, .inl ?_⟩
      · rw [hadded, Function.update_of_ne hij]
      · rw [hdir, Directory.table_setEntry_of_ne _ _ hij]
  · exact .inr ⟨by rw [hadded], .inl (by rw [hdir])⟩
  · refine .inr ⟨by rw [hadded], ?_⟩
    by_cases hij : i = j
    · subst hij
      exact .inr (by rw [hdir, Directory.table_setEntry_self])
    · exact .inl (by rw [hdir, Directory.table_setEntry_of_ne _ _ hij])

/-- The entries in use hold the keys of the names they were added under. -/
def Stored (s : NamedDirectory n) : Prop :=
  ∀ i, (s.dir.table i).inUse = true → nameKey (s.dir.table i).nameBytes = (s.added i).key

/-- Each name in use is shorter than its field or ends in a NUL there. -/
def Terminated (s : NamedDirectory n) : Prop :=
  ∀ i, (s.dir.table i).inUse = true →
    (s.added i).chars.length < fileNameMaxLen ∨ (s.dir.table i).lastByte = 0

/-- The call adds no name, or one that is shorter than the field or goes to an
entry whose field ends in a NUL. -/
def EndsInNul (dir : Directory n) (c : DirectoryCall) : Prop :=
  ∀ i name, filled dir c = some (i, name) →
    name.chars.length < fileNameMaxLen ∨ (dir.table i).lastByte = 0

theorem lastByte_fill (e : DirectoryEntry) (name : Block) (newSector : Int) :
    (e.fill name newSector).lastByte = e.lastByte := by
  simp only [DirectoryEntry.lastByte, DirectoryEntry.fill, if_neg (Nat.lt_irrefl _)]

/-- No call writes the last byte of a name field. -/
theorem lastByte_call (s : NamedDirectory n) (c : DirectoryCall) (i : Fin n) :
    ((s.call c).2.dir.table i).lastByte = (s.dir.table i).lastByte := by
  rcases s.entry_cases c i with ⟨name, newSector, -, htable, -⟩ | ⟨-, htable | htable⟩
  · rw [htable, lastByte_fill]
  · rw [htable]
  · rw [htable]
    rfl

theorem Stored.call (h : s.Stored) (c : DirectoryCall) : (s.call c).2.Stored := by
  intro i hu
  rcases s.entry_cases c i with ⟨name, newSector, -, htable, hadded⟩ | ⟨hadded, htable | htable⟩
  · rw [htable, hadded]
    exact (DirectoryEntry.slot_eq_some.mp (DirectoryEntry.slot_fill _ name newSector)).2.1
  · rw [htable] at hu ⊢
    rw [hadded]
    exact h i hu
  · rw [htable] at hu
    exact absurd hu Bool.false_ne_true

theorem Terminated.call (h : s.Terminated) (hc : EndsInNul s.dir c) :
    (s.call c).2.Terminated := by
  intro i hu
  rw [lastByte_call]
  rcases s.entry_cases c i with ⟨name, newSector, hfilled, -, hadded⟩ | ⟨hadded, htable | htable⟩
  · rw [hadded]
    exact hc i name hfilled
  · rw [htable] at hu
    rw [hadded]
    exact h i hu
  · rw [htable] at hu
    exact absurd hu Bool.false_ne_true

/-- A call after which the names in use are terminated has added such a name. -/
theorem Terminated.endsInNul (h : (s.call c).2.Terminated) : EndsInNul s.dir c := by
  intro i name hfilled
  rcases s.call_cases c with ⟨j, name', newSector, hfilled', hdir, hadded⟩ | ⟨hnone, -⟩
  · rw [hfilled, Option.some.injEq, Prod.mk.injEq] at hfilled'
    obtain ⟨rfl, rfl⟩ := hfilled'
    have hu : ((s.call c).2.dir.table i).inUse = true := by
      rw [hdir, Directory.table_setEntry_self]
      rfl
    have hend := h i hu
    rwa [hadded, Function.update_self, lastByte_call] at hend
  · rw [hnone] at hfilled
    cases hfilled

/-! ## Printing the names -/

/-- The entries in use, in order. -/
def inUse (dir : Directory n) : List (Fin n) :=
  (List.finRange n).filter fun i => (dir.table i).inUse

/-- Names are printed as the strings they were added under, cut to the length of
a name, by `printf` itself, by `List` and by `Print`. -/
structure Printable (s : NamedDirectory n) : Prop where
  name : ∀ i, (s.dir.table i).inUse = true → (s.dir.table i).printName = .ok (s.added i).key
  list : s.dir.list = .ok ((inUse s.dir).flatMap fun i => (s.added i).key ++ ascii "\n")
  print : s.dir.print = s.dir.printWith fun i => .ok (s.added i).key

theorem listEntries_of_names (s : NamedDirectory n)
    (hname : ∀ i, (s.dir.table i).inUse = true →
      (s.dir.table i).printName = .ok (s.added i).key) (is : List (Fin n)) :
    s.dir.listEntries is = .ok ((is.filter fun i => (s.dir.table i).inUse).flatMap fun i =>
      (s.added i).key ++ ascii "\n") := by
  induction is with
  | nil => rfl
  | cons i is ih =>
    rw [Directory.listEntries, List.filter_cons]
    cases hu : (s.dir.table i).inUse with
    | false =>
      rw [if_neg Bool.false_ne_true, if_neg Bool.false_ne_true, ih]
    | true =>
      rw [if_pos rfl, if_pos rfl, hname i hu, ih, List.flatMap_cons]
      rfl

theorem printEntries_congr {dir : Directory n} {f g : Fin n → Except Fault (List UInt8)}
    (hfg : ∀ i, (dir.table i).inUse = true → f i = g i) (is : List (Fin n)) :
    dir.printEntries f is = dir.printEntries g is := by
  induction is with
  | nil => rfl
  | cons i is ih =>
    rw [Directory.printEntries, Directory.printEntries, ih]
    cases hu : (dir.table i).inUse with
    | false => rw [if_neg Bool.false_ne_true, if_neg Bool.false_ne_true]
    | true => rw [hfg i hu]

theorem Stored.printable_iff (h : s.Stored) : s.Printable ↔ s.Terminated := by
  constructor
  · intro hp i hu
    have hname := hp.name i hu
    rw [DirectoryEntry.printName_of_stored (h i hu)] at hname
    by_contra hopen
    rw [if_neg hopen] at hname
    cases hname
  · intro ht
    have hname : ∀ i, (s.dir.table i).inUse = true →
        (s.dir.table i).printName = .ok (s.added i).key := fun i hu => by
      rw [DirectoryEntry.printName_of_stored (h i hu), if_pos (ht i hu)]
    refine ⟨hname, listEntries_of_names s hname _, ?_⟩
    rw [Directory.print, Directory.printWith, Directory.printWith,
      printEntries_congr hname (List.finRange n)]

/-! ## Runs -/

/-- The directory after a list of calls. -/
def after (n : Nat) (junk : Block) (calls : List DirectoryCall) : NamedDirectory n :=
  (answers call (new n junk) calls).2

theorem after_append (junk : Block) (calls : List DirectoryCall) (c : DirectoryCall) :
    after n junk (calls ++ [c]) = ((after n junk calls).call c).2 :=
  answers_append call calls [c] (new n junk)

theorem stored_after (junk : Block) (calls : List DirectoryCall) : (after n junk calls).Stored :=
  answers_invariant (fun _ c h => h.call c) calls _ fun _ hu => absurd hu Bool.false_ne_true

/-- The last byte of a name field is what `new` found there. -/
theorem lastByte_after (junk : Block) (calls : List DirectoryCall) (i : Fin n) :
    ((after n junk calls).dir.table i).lastByte = junk (20 * i + 17) := by
  refine answers_invariant (I := fun s : NamedDirectory n =>
    (s.dir.table i).lastByte = junk (20 * i + 17)) (fun s c h => ?_) calls _ rfl
  rw [lastByte_call, h]

/-- All names in use are printed as strings throughout a run just if each name that
is added in the run ends in a NUL. -/
theorem names_printable_iff (n : Nat) (junk : Block) (calls : List DirectoryCall) :
    (∀ before, before <+: calls → (after n junk before).Printable) ↔
      ∀ before c, before ++ [c] <+: calls → EndsInNul (after n junk before).dir c := by
  constructor
  · intro h before c hpre
    have hp := h (before ++ [c]) hpre
    rw [after_append] at hp
    exact (((stored_after junk before).call c).printable_iff.mp hp).endsInNul
  · intro h before hpre
    refine (stored_after junk before).printable_iff.mpr ?_
    induction before using List.reverseRecOn with
    | nil => exact fun i hu => absurd hu Bool.false_ne_true
    | append_singleton before c ih =>
      rw [after_append]
      exact (ih ((List.prefix_append before [c]).trans hpre)).call (h before c hpre)

/-- A name of nine characters, in a directory of one entry. -/
def nineChars : CString :=
  ⟨List.replicate 9 97, fun c hc => by rw [List.eq_of_mem_replicate hc]; decide⟩

/-- It runs past the end of its field if that did not end in a NUL. -/
theorem full_name_runs_on :
    (((after 1 (fun _ => 1) [.add nineChars 5]).dir.table 0).inUse = true) ∧
      ((after 1 (fun _ => 1) [.add nineChars 5]).dir.table 0).printName = .error .outOfBounds ∧
      (after 1 (fun _ => 1) [.add nineChars 5]).dir.list = .error .outOfBounds ∧
      ¬ (after 1 (fun _ => 1) [.add nineChars 5]).Printable := by
  have hname : ((after 1 (fun _ => 1) [.add nineChars 5]).dir.table 0).printName =
      .error .outOfBounds := by rfl
  refine ⟨rfl, hname, rfl, fun hp => ?_⟩
  have hok := hp.name 0 rfl
  rw [hname] at hok
  cases hok

end NamedDirectory

end FileSys
end Nachos
