import Nachos.FileSys.Directory
import Nachos.Lib.SlotTable

/-!
# The directory as a map

Whatever the bytes of unused entries and however names go in and out, `Add`,
`Remove` and `Find` treat the directory as a map from the first
`fileNameMaxLen` bytes of a name to a sector, with room for one key an entry.
-/

namespace Nachos
namespace FileSys

open Lib LittleEndian

/-! ## Keys -/

/-- The bytes from `b + i` to the NUL, `n` at most. -/
def cstr (b : Block) (i : Nat) : Nat → List UInt8
  | 0 => []
  | n + 1 => if b i = 0 then [] else b i :: cstr b (i + 1) n

/-- What `strncmp` compares of a name. -/
def nameKey (b : Block) : List UInt8 := cstr b 0 fileNameMaxLen

/-- `strncmp` finds two names equal when it has read the same bytes of both. -/
theorem strncmpEq_iff_cstr {a b : Block} {i n : Nat} :
    strncmpEq a b i n = true ↔ cstr a i n = cstr b i n := by
  induction n generalizing i with
  | zero => exact iff_of_true rfl rfl
  | succ n ih =>
    rw [strncmpEq, cstr, cstr, Bool.and_eq_true, Bool.or_eq_true, beq_iff_eq, beq_iff_eq, ih]
    by_cases ha : a i = 0
    · rw [if_pos ha]
      by_cases hb : b i = 0
      · rw [if_pos hb, ha, hb]
        exact iff_of_true ⟨rfl, .inl rfl⟩ rfl
      · rw [if_neg hb, ha]
        exact iff_of_false (fun h => hb h.1.symm) (List.cons_ne_nil _ _).symm
    · rw [if_neg ha]
      by_cases hb : b i = 0
      · rw [if_pos hb, hb]
        exact iff_of_false (fun h => ha h.1) (List.cons_ne_nil _ _)
      · rw [if_neg hb, List.cons.injEq]
        exact and_congr_right fun _ => or_iff_right ha

/-- The bytes of a C string are its characters. -/
theorem cstr_bytes (name : CString) (n : Nat) : ∀ i,
    cstr name.bytes i n = (name.chars.drop i).take n := by
  induction n with
  | zero => exact fun i => List.take_zero.symm
  | succ n ih =>
    intro i
    rw [cstr, ih]
    by_cases hi : i < name.chars.length
    · have hbyte : name.bytes i = name.chars[i] := by
        rw [CString.bytes, List.getD_eq_getElem?_getD, List.getElem?_eq_getElem hi,
          Option.getD_some]
      have hne : name.bytes i ≠ 0 := by
        rw [hbyte]
        exact name.nonzero _ (List.getElem_mem hi)
      rw [if_neg hne, hbyte, List.drop_eq_getElem_cons hi, List.take_succ_cons]
    · have hbyte : name.bytes i = 0 := by
        rw [CString.bytes, List.getD_eq_getElem?_getD, List.getElem?_eq_none (by omega),
          Option.getD_none]
      rw [if_pos hbyte, List.drop_of_length_le (by omega), List.take_nil]

/-- The key of a name: its first characters. -/
def CString.key (name : CString) : List UInt8 := name.chars.take fileNameMaxLen

theorem nameKey_bytes (name : CString) : nameKey name.bytes = name.key := cstr_bytes name _ 0

/-! ## Entries as slots -/

namespace DirectoryEntry

/-- The binding an entry holds. -/
def slot (e : DirectoryEntry) : Option (List UInt8 × Int) :=
  if e.inUse then some (nameKey e.nameBytes, e.sector) else none

theorem slot_eq_none {e : DirectoryEntry} : e.slot = none ↔ e.inUse = false := by
  rw [slot]
  cases e.inUse <;> simp

theorem slot_eq_some {e : DirectoryEntry} {k : List UInt8} {s : Int} :
    e.slot = some (k, s) ↔ e.inUse = true ∧ nameKey e.nameBytes = k ∧ e.sector = s := by
  rw [slot]
  cases e.inUse <;> simp

theorem sameName_iff (e : DirectoryEntry) (name : CString) :
    e.sameName name.bytes = true ↔ nameKey e.nameBytes = name.key := by
  rw [← nameKey_bytes]
  exact strncmpEq_iff_cstr

/-- The entry that `Add` has filled binds the key of the name. -/
theorem slot_fill (e : DirectoryEntry) (name : CString) (s : Int) :
    (e.fill name.bytes s).slot = some (name.key, s) := by
  have hkey : nameKey (e.fill name.bytes s).nameBytes = name.key := by
    rw [← sameName_iff, sameName_fill]
    exact strncmpEq_refl _ _ _
  exact slot_eq_some.mpr ⟨rfl, hkey, rfl⟩

end DirectoryEntry

namespace Directory

variable {n : Nat}

def slots (dir : Directory n) : Fin n → Option (List UInt8 × Int) := fun i => (dir.table i).slot

theorem table_setEntry_self (dir : Directory n) (i : Fin n) (e : DirectoryEntry) :
    (dir.setEntry i e).table i = e := if_pos rfl

theorem table_setEntry_of_ne (dir : Directory n) {i j : Fin n} (e : DirectoryEntry) (h : j ≠ i) :
    (dir.setEntry i e).table j = dir.table j := if_neg h

theorem slots_setEntry_self (dir : Directory n) (i : Fin n) (e : DirectoryEntry) :
    (dir.setEntry i e).slots i = e.slot := by
  rw [slots, table_setEntry_self]

theorem slots_setEntry_of_ne (dir : Directory n) {i j : Fin n} (e : DirectoryEntry) (h : j ≠ i) :
    (dir.setEntry i e).slots j = dir.slots j := by
  rw [slots, table_setEntry_of_ne dir e h, slots]

theorem slots_new (n : Nat) (junk : Block) (i : Fin n) : (new n junk).slots i = none :=
  DirectoryEntry.slot_eq_none.mpr rfl

/-- `FindIndex` finds the slot of the name's key. -/
theorem findIndex_slots {dir : Directory n} {name : CString} {i : Fin n}
    (h : dir.findIndex name.bytes = some i) :
    dir.slots i = some (name.key, (dir.table i).sector) := by
  obtain ⟨hu, hname⟩ := findIndex_some h
  exact DirectoryEntry.slot_eq_some.mpr
    ⟨hu, (DirectoryEntry.sameName_iff _ name).mp hname, rfl⟩

theorem findIndex_none_iff {dir : Directory n} {name : CString} :
    dir.findIndex name.bytes = none ↔ ∀ i s, dir.slots i ≠ some (name.key, s) := by
  rw [findIndex_eq_none_iff]
  constructor
  · intro h i s hi
    obtain ⟨hu, hkey, -⟩ := DirectoryEntry.slot_eq_some.mp hi
    have hname := (DirectoryEntry.sameName_iff _ name).mpr hkey
    rw [h i hu] at hname
    exact Bool.false_ne_true hname
  · intro h i hu
    rw [Bool.eq_false_iff, ne_eq, DirectoryEntry.sameName_iff]
    exact fun hkey => h i _ (DirectoryEntry.slot_eq_some.mpr ⟨hu, hkey, rfl⟩)

end Directory

/-! ## Calls -/

inductive DirectoryCall
  | add (name : CString) (newSector : Int)
  | remove (name : CString)
  | find (name : CString)

inductive Reply
  | done (success : Bool)
  | sector (s : Int)
  deriving DecidableEq

/-- A call on the directory. -/
def Directory.call {n : Nat} (dir : Directory n) : DirectoryCall → Reply × Directory n
  | .add name newSector =>
    let result := dir.add name.bytes newSector
    (.done result.1, result.2)
  | .remove name =>
    let result := dir.remove name.bytes
    (.done result.1, result.2)
  | .find name => (.sector (dir.find name.bytes), dir)

/-- What the call means for a map from keys to sectors. -/
def mapCall {n : Nat} (m : BoundedMap (List UInt8) Int n) :
    DirectoryCall → Reply × BoundedMap (List UInt8) Int n
  | .add name newSector =>
    let result := m.add name.key newSector
    (.done result.1, result.2)
  | .remove name =>
    let result := m.remove name.key
    (.done result.1, result.2)
  | .find name => (.sector ((m.lookup name.key).getD (-1)), m)

section Calls

variable {n : Nat} {dir : Directory n} {m : BoundedMap (List UInt8) Int n}

theorem lookup_none_iff (h : Represents dir.slots m) (name : CString) :
    m.lookup name.key = none ↔ dir.findIndex name.bytes = none := by
  rw [h.lookup_none, Directory.findIndex_none_iff]

theorem lookup_of_findIndex (h : Represents dir.slots m) {name : CString} {i : Fin n}
    (hi : dir.findIndex name.bytes = some i) :
    m.lookup name.key = some (dir.table i).sector :=
  (h.lookup _ _).mpr ⟨i, Directory.findIndex_slots hi⟩

theorem add_represents (h : Represents dir.slots m) (name : CString) (newSector : Int) :
    (dir.add name.bytes newSector).1 = (m.add name.key newSector).1 ∧
      Represents (dir.add name.bytes newSector).2.slots (m.add name.key newSector).2 := by
  cases hfind : dir.findIndex name.bytes with
  | some i =>
    have hbound := lookup_of_findIndex h hfind
    rw [Directory.add, hfind, Option.isSome_some, if_pos rfl, h.add_fails (.inl ⟨_, hbound⟩)]
    exact ⟨rfl, h⟩
  | none =>
    have habsent := (lookup_none_iff h name).mpr hfind
    rw [Directory.add, hfind, Option.isSome_none, if_neg Bool.false_ne_true]
    cases hfree : dir.firstUnused with
    | none =>
      have hfull : ∀ i, dir.slots i ≠ none := by
        intro i hi
        have hunused := DirectoryEntry.slot_eq_none.mp hi
        rw [Directory.firstUnused_eq_none_iff.mp hfree i] at hunused
        exact Bool.false_ne_true hunused.symm
      rw [h.add_fails (.inr hfull)]
      exact ⟨rfl, h⟩
    | some i =>
      have hunused := DirectoryEntry.slot_eq_none.mpr (Directory.firstUnused_some hfree)
      have hself := Directory.slots_setEntry_self dir i ((dir.table i).fill name.bytes newSector)
      rw [DirectoryEntry.slot_fill] at hself
      obtain ⟨hdone, hnext⟩ := h.add hunused habsent hself fun j hj =>
        Directory.slots_setEntry_of_ne dir _ hj
      exact ⟨hdone.symm, hnext⟩

theorem remove_represents (h : Represents dir.slots m) (name : CString) :
    (dir.remove name.bytes).1 = (m.remove name.key).1 ∧
      Represents (dir.remove name.bytes).2.slots (m.remove name.key).2 := by
  rw [Directory.remove]
  cases hfind : dir.findIndex name.bytes with
  | none =>
    rw [Represents.remove_fails ((lookup_none_iff h name).mpr hfind)]
    exact ⟨rfl, h⟩
  | some i =>
    have hself := Directory.slots_setEntry_self dir i (dir.table i).free
    have hfree : (dir.table i).free.slot = none := DirectoryEntry.slot_eq_none.mpr rfl
    rw [hfree] at hself
    obtain ⟨hdone, hnext⟩ := h.remove (Directory.findIndex_slots hfind) hself fun j hj =>
      Directory.slots_setEntry_of_ne dir _ hj
    exact ⟨hdone.symm, hnext⟩

theorem find_represents (h : Represents dir.slots m) (name : CString) :
    dir.find name.bytes = (m.lookup name.key).getD (-1) := by
  rw [Directory.find]
  cases hfind : dir.findIndex name.bytes with
  | none => rw [(lookup_none_iff h name).mpr hfind, Option.getD_none]
  | some i => rw [lookup_of_findIndex h hfind, Option.getD_some]

/-- Each call replies as the map does, and leaves a representation. -/
theorem call_represents (dir : Directory n) (m : BoundedMap (List UInt8) Int n)
    (c : DirectoryCall) (h : Represents dir.slots m) :
    (dir.call c).1 = (mapCall m c).1 ∧ Represents (dir.call c).2.slots (mapCall m c).2 := by
  cases c with
  | add name newSector =>
    obtain ⟨hreply, hnext⟩ := add_represents h name newSector
    exact ⟨congrArg Reply.done hreply, hnext⟩
  | remove name =>
    obtain ⟨hreply, hnext⟩ := remove_represents h name
    exact ⟨congrArg Reply.done hreply, hnext⟩
  | find name => exact ⟨congrArg Reply.sector (find_represents h name), h⟩

/-- A call that fails, and every `Find`, leaves each byte of the directory. -/
theorem call_unchanged (dir : Directory n) (c : DirectoryCall)
    (h : (dir.call c).1 ≠ .done true) : (dir.call c).2 = dir := by
  cases c with
  | add name newSector =>
    simp only [Directory.call, Directory.add] at h ⊢
    split
    · rfl
    · rename_i hnone
      rw [if_neg hnone] at h
      cases hfree : dir.firstUnused with
      | none => rfl
      | some i =>
        rw [hfree] at h
        exact absurd rfl h
  | remove name =>
    simp only [Directory.call, Directory.remove] at h ⊢
    cases hfind : dir.findIndex name.bytes with
    | none => rfl
    | some i =>
      rw [hfind] at h
      exact absurd rfl h
  | find name => rfl

/-- The directory answers any calls as a bounded map on keys does, represents that
map after them, holds each key in one entry only, and does not change when a
call fails. -/
theorem directory_is_map (n : Nat) (junk : Block) (calls : List DirectoryCall) :
    let run := answers Directory.call (Directory.new n junk) calls
    let spec := answers mapCall (BoundedMap.empty (List UInt8) Int n) calls
    run.1 = spec.1 ∧ Represents run.2.slots spec.2 ∧
      (∀ i j, (run.2.table i).inUse = true → (run.2.table j).inUse = true →
        nameKey (run.2.table i).nameBytes = nameKey (run.2.table j).nameBytes → i = j) ∧
      ∀ c, (run.2.call c).1 ≠ .done true → (run.2.call c).2 = run.2 := by
  have hstart : Represents (Directory.new n junk).slots (BoundedMap.empty (List UInt8) Int n) :=
    Represents.empty (Directory.slots_new n junk)
  obtain ⟨hreplies, hend⟩ := answers_related
    (R := fun (dir : Directory n) m => Represents dir.slots m) call_represents calls _ _ hstart
  refine ⟨hreplies, hend, fun i j hi hj hkey => ?_, fun c => call_unchanged _ c⟩
  exact hend.distinct i j _ _ _ (DirectoryEntry.slot_eq_some.mpr ⟨hi, rfl, rfl⟩)
    (DirectoryEntry.slot_eq_some.mpr ⟨hj, hkey.symm, rfl⟩)

end Calls

end FileSys
end Nachos
