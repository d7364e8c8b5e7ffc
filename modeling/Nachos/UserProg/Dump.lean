import Nachos.Machine.Checks
import Nachos.UserProg.AddrSpace
import Mathlib.Data.Set.Insert

/-!
# Drawing the memory

`Machine::DumpMem` draws the address spaces and the physical memory.  The bytes of a page
are read through `Translate` and `ReadMem`, with the table of the space as the current
one, so a page that is drawn is marked as used.  With a TLB there is no page that can be
drawn, as `Translate` asserts that there is no page table.
-/

namespace Nachos
namespace UserProg

open Lib LittleEndian Machine

/-! ## The drawing -/

structure RGB where
  r : UInt8
  g : UInt8
  b : UInt8
  deriving DecidableEq

/-- `get_RGB` -/
def getRGB (value : UInt8) : RGB := ⟨(value &&& 0x7) <<< 5, (value &&& 0x38) <<< 2, value &&& 0xc0⟩

/-- An element of the drawing, without its place. -/
inductive Shape
  | address (page : Nat)
  | byte (page offset : Nat) (fill : RGB)
  | line (page : Nat) (physicalPage : Word)
  | current (numPages : Nat)
  | area (name : String) (page last : Int)
  | physical (a : Fin memorySize) (fill : RGB)

/-- What the dump reads of a live address space. -/
structure LiveSpace where
  noffH : NoffHeader
  pageTable : TableId
  numPages : Nat

def setCurrent (pageTable : Option TableId) (pageTableSize : Nat) : Sim Unit := fun m =>
  .ok () { m with memory :=
    { m.memory with currentPageTable := pageTable, currentPageTableSize := pageTableSize } }

/-- A byte of a page, in the inner loop of `DumpPageTable`. -/
def dumpByte (pageTable : TableId) (pageTableSize page offset : Nat) : Sim Shape := do
  let virt := BitVec.ofNat 32 (page * pageSize + offset)
  let save ← get
  setCurrent (some pageTable) pageTableSize
  let value ← do
    match ← onMemory (Machine.translate virt 1 false) with
    | .ok _ => readMem virt 1
    | .error _ => pure (-1)
  setCurrent save.memory.currentPageTable save.memory.currentPageTableSize
  return .byte page offset (getRGB ⟨value.setWidth 8⟩)

def dumpPage (pageTable : TableId) (pageTableSize page : Nat) : Sim (List Shape) := do
  let m ← get
  let e := m.memory.pageTables pageTable page
  if e.valid then
    let bytes ← (List.range pageSize).mapM (dumpByte pageTable pageTableSize page)
    return .address page :: bytes ++ [.line page e.physicalPage]
  else return [.address page]

/-- `Machine::DumpPageTable` -/
def dumpPageTable (pageTable : TableId) (pageTableSize : Nat) : Sim (List Shape) := do
  let pages ← (List.range pageTableSize).mapM (dumpPage pageTable pageTableSize)
  let m ← get
  if m.memory.currentPageTable = some pageTable then
    return pages.flatten ++ [.current pageTableSize]
  else return pages.flatten

def drawArea (segment : Segment) (name : String) : Sim (List Shape) := do
  if segment.size = 0 then return []
  else
    assert (segment.virtualAddr.tmod pageSize = 0)
    assert (segment.size.tmod pageSize = 0)
    let page := unsigned (segment.virtualAddr.tdiv pageSize)
    let last := unsigned ((wrap (segment.virtualAddr + segment.size)).tdiv pageSize)
    return [.area name page last]

/-- `AddrSpace::Dump`, up to `DumpThreadsState`, which draws registers and stops nowhere. -/
def dump (space : LiveSpace) : Sim (List Shape) := do
  let table ← dumpPageTable space.pageTable space.numPages
  let code ← drawArea space.noffH.code "code"
  let data ← drawArea space.noffH.initData "data"
  let bss ← drawArea space.noffH.uninitData "bss"
  return table ++ code ++ data ++ bss

def dumpAddrSpaces (spaces : List LiveSpace) : Sim (List Shape) := do
  let drawn ← spaces.mapM dump
  return drawn.flatten

/-- `Machine::DumpMem` -/
def dumpMem (spaces : List LiveSpace) : Sim (List Shape) := do
  let drawn ← dumpAddrSpaces spaces
  let m ← get
  let bytes := (List.finRange memorySize).map fun a =>
    .physical a (getRGB (m.memory.mainMemory a))
  return drawn ++ bytes

/-! ## Entries marked as used -/

/-- An entry that `Translate` can read a byte through. -/
def Readable (e : TranslationEntry) : Prop := e.valid = true ∧ e.physicalPage.toNat < numPhysPages

@[simp]
theorem readable_touch (e : TranslationEntry) : Readable (e.touch false) ↔ Readable e := Iff.rfl

theorem touch_touch (e : TranslationEntry) : (e.touch false).touch false = e.touch false := by
  simp only [TranslationEntry.touch, Bool.or_false]

theorem touch_eq_self (e : TranslationEntry) : e.touch false = e ↔ e.use = true := by
  constructor
  · intro h
    exact (congrArg TranslationEntry.use h).symm
  · intro h
    simp only [TranslationEntry.touch, Bool.or_false, ← h]

open Classical in
/-- The entries of `S` are marked as used. -/
noncomputable def mark (m : Machine) (S : Set (TableId × Nat)) : Machine :=
  { m with memory := { m.memory with pageTables := fun t n =>
      if (t, n) ∈ S then (m.memory.pageTables t n).touch false else m.memory.pageTables t n } }

section

variable {m s : Machine} {S T : Set (TableId × Nat)} {t n : Nat}

/-- Machines that differ in the page tables only. -/
theorem eq_of_pageTables (m : Machine) {f g : TableId → Nat → TranslationEntry}
    (h : ∀ t n, f t n = g t n) :
    ({ m with memory := { m.memory with pageTables := f } } : Machine) =
      { m with memory := { m.memory with pageTables := g } } := by
  obtain rfl : f = g := funext fun t => funext fun n => h t n
  rfl

theorem mark_of_mem (h : (t, n) ∈ S) :
    (mark m S).memory.pageTables t n = (m.memory.pageTables t n).touch false := if_pos h

theorem mark_of_notMem (h : (t, n) ∉ S) :
    (mark m S).memory.pageTables t n = m.memory.pageTables t n := if_neg h

@[simp]
theorem mark_valid (m : Machine) (S : Set (TableId × Nat)) (t n : Nat) :
    ((mark m S).memory.pageTables t n).valid = (m.memory.pageTables t n).valid := by
  by_cases h : (t, n) ∈ S
  · rw [mark_of_mem h]
    rfl
  · rw [mark_of_notMem h]

@[simp]
theorem mark_readable (m : Machine) (S : Set (TableId × Nat)) (t n : Nat) :
    Readable ((mark m S).memory.pageTables t n) ↔ Readable (m.memory.pageTables t n) := by
  by_cases h : (t, n) ∈ S
  · rw [mark_of_mem h, readable_touch]
  · rw [mark_of_notMem h]

@[simp]
theorem mark_tlb (m : Machine) (S : Set (TableId × Nat)) :
    (mark m S).memory.tlb = m.memory.tlb := rfl

theorem mark_mark (m : Machine) (S T : Set (TableId × Nat)) :
    mark (mark m S) T = mark m (S ∪ T) := by
  have htables : ∀ t n, (mark (mark m S) T).memory.pageTables t n =
      (mark m (S ∪ T)).memory.pageTables t n := by
    intro t n
    by_cases hS : (t, n) ∈ S
    · rw [mark_of_mem (S := S ∪ T) (.inl hS)]
      by_cases hT : (t, n) ∈ T
      · rw [mark_of_mem hT, mark_of_mem hS, touch_touch]
      · rw [mark_of_notMem hT, mark_of_mem hS]
    · by_cases hT : (t, n) ∈ T
      · rw [mark_of_mem hT, mark_of_notMem hS, mark_of_mem (.inr hT)]
      · rw [mark_of_notMem hT, mark_of_notMem hS, mark_of_notMem fun h => h.elim hS hT]
  exact eq_of_pageTables m htables

/-- Marking is seen on the entries that had no use bit. -/
theorem mark_eq_self :
    mark m S = m ↔ ∀ t n, (t, n) ∈ S → (m.memory.pageTables t n).use = true := by
  constructor
  · intro h t n hmem
    rw [← touch_eq_self, ← mark_of_mem hmem, h]
  · intro h
    have htables : ∀ t n, (mark m S).memory.pageTables t n = m.memory.pageTables t n := by
      intro t n
      by_cases hmem : (t, n) ∈ S
      · rw [mark_of_mem hmem, touch_eq_self]
        exact h t n hmem
      · exact mark_of_notMem hmem
    exact eq_of_pageTables m htables

@[simp]
theorem mark_empty (m : Machine) : mark m ∅ = m :=
  mark_eq_self.mpr fun _ _ hmem => hmem.elim

/-- What the dump depends on stays, also when it stops. -/
structure Alike (m s : Machine) : Prop where
  tlb : s.memory.tlb = m.memory.tlb
  valid : ∀ t n, (s.memory.pageTables t n).valid = (m.memory.pageTables t n).valid

theorem Alike.mark (h : Alike (mark m S) s) : Alike m s where
  tlb := h.tlb
  valid t n := (h.valid t n).trans (mark_valid m S t n)

end

/-! ## A byte -/

/-- A virtual address has 32 bits. -/
abbrev virtualPages : Nat := 33554432

/-- The entry that a byte of the page is read through, if it can be. -/
def shownBy (m : Machine) (table : TableId) (size vpn : Nat) : Set (TableId × Nat) :=
  {p | p = (table, vpn) ∧ vpn < size ∧ Readable (m.memory.pageTables table vpn)}

section

variable {m : Machine} {table : TableId} {size page offset vpn : Nat} {virt : Word}

@[simp]
theorem shownBy_mark (m : Machine) (S : Set (TableId × Nat)) (table : TableId) (size vpn : Nat) :
    shownBy (mark m S) table size vpn = shownBy m table size vpn := by
  simp only [shownBy, mark_readable]

theorem virt_page (h : offset < pageSize) :
    (BitVec.ofNat 32 (page * pageSize + offset)).toNat / pageSize = page % virtualPages := by
  have hoffset : offset < 128 := h
  rw [BitVec.toNat_ofNat]
  show (page * 128 + offset) % 4294967296 / 128 = page % 33554432
  omega

/-- The machine with this table as the current one. -/
def withCurrent (m : Machine) (table : TableId) (size : Nat) : Machine :=
  { m with memory :=
    { m.memory with currentPageTable := some table, currentPageTableSize := size } }

theorem setCurrent_withCurrent (m : Machine) (table : TableId) (size : Nat) :
    setCurrent (some table) size m = .ok () (withCurrent m table size) := rfl

theorem setCurrent_mark (m : Machine) (table : TableId) (size : Nat) (S : Set (TableId × Nat)) :
    setCurrent m.memory.currentPageTable m.memory.currentPageTableSize
      (mark (withCurrent m table size) S) = .ok () (mark m S) := rfl

theorem touch_mark (m : Machine) (table : TableId) (vpn : Nat) :
    { m with memory := m.memory.touch (.page table vpn) false } = mark m {(table, vpn)} := by
  apply eq_of_pageTables m
  intro t n
  by_cases h : t = table ∧ n = vpn
  · rw [if_pos h, if_pos (Set.mem_singleton_iff.mpr (Prod.ext h.1 h.2))]
  · rw [if_neg h, if_neg fun hmem => h (Prod.mk.inj (Set.mem_singleton_iff.mp hmem))]

theorem allows_of_readable (htlb : m.memory.tlb = none) (hvpn : virt.toNat / pageSize = vpn)
    (hsize : vpn < size) (hread : Readable (m.memory.pageTables table vpn))
    (S : Set (TableId × Nat)) :
    (mark (withCurrent m table size) S).memory.Allows virt 1 false (.page table vpn)
      ((mark (withCurrent m table size) S).memory.pageTables table vpn) := by
  have hmarked : Readable ((mark (withCurrent m table size) S).memory.pageTables table vpn) :=
    (mark_readable _ S table vpn).mpr hread
  constructor
  · exact Nat.one_dvd _
  · rw [hvpn]
    exact .page htlb rfl hsize hmarked.1
  · intro h
    cases h
  · exact hmarked.2

theorem withCurrent_oneTable (htlb : m.memory.tlb = none) (table : TableId) (size : Nat)
    (S : Set (TableId × Nat)) : (mark (withCurrent m table size) S).memory.OneTable := by
  show m.memory.tlb.isNone = !(some table).isNone
  rw [htlb]
  rfl

theorem translate_readable (htlb : m.memory.tlb = none) (hvpn : virt.toNat / pageSize = vpn)
    (hsize : vpn < size) (hread : Readable (m.memory.pageTables table vpn))
    (S : Set (TableId × Nat)) :
    ∃ pa, pa < memorySize ∧
      onMemory (Machine.translate virt 1 false) (mark (withCurrent m table size) S) =
        .ok (.ok pa) (mark (withCurrent m table size) (S ∪ {(table, vpn)})) ∧
      Machine.translate virt 1 false (mark (withCurrent m table size) S).memory =
        .ok (.ok pa) (mark (withCurrent m table size) (S ∪ {(table, vpn)})).memory := by
  have hallows := allows_of_readable htlb hvpn hsize hread S
  obtain ⟨hin, hrun⟩ := hallows.translate (withCurrent_oneTable htlb table size S) (.inl rfl)
  have htouch := touch_mark (mark (withCurrent m table size) S) table vpn
  rw [mark_mark] at htouch
  refine ⟨_, hin, ?_, ?_⟩
  · unfold onMemory
    rw [hrun, ← htouch]
  · rw [hrun, ← htouch]

theorem readMem_readable (htlb : m.memory.tlb = none) (hvpn : virt.toNat / pageSize = vpn)
    (hsize : vpn < size) (hread : Readable (m.memory.pageTables table vpn))
    (S : Set (TableId × Nat)) :
    ∃ value, readMem virt 1 (mark (withCurrent m table size) S) =
      .ok value (mark (withCurrent m table size) (S ∪ {(table, vpn)})) := by
  obtain ⟨pa, hin, -, hrun⟩ := translate_readable htlb hvpn hsize hread S
  have hfetch : ∀ mem : Memory, fetch pa 1 mem =
      .ok ((mem.physical pa).toBitVec.signExtend 32) mem := by
    intro mem
    unfold fetch
    rw [if_pos rfl, bind_run (byteAt_run mem hin)]
    rfl
  refine ⟨(m.memory.physical pa).toBitVec.signExtend 32, ?_⟩
  rw [readMem_translated hrun]
  unfold onMemory
  dsimp only
  rw [hfetch]
  rfl

/-- A byte of a page that cannot be read is drawn as -1. -/
theorem translate_unreadable (htlb : m.memory.tlb = none) (hvpn : virt.toNat / pageSize = vpn)
    (h : ¬ (vpn < size ∧ Readable (m.memory.pageTables table vpn))) :
    ∃ x, onMemory (Machine.translate virt 1 false) (withCurrent m table size) =
      .ok (.error x) (withCurrent m table size) := by
  have hone : (withCurrent m table size).memory.OneTable := by
    rw [← mark_empty (withCurrent m table size)]
    exact withCurrent_oneTable htlb table size ∅
  rcases allows_or_refuses (withCurrent m table size).memory virt 1 false with hallows | ⟨x, hx⟩
  · obtain ⟨slot, e, hallows⟩ := hallows
    have hholds := hallows.present
    rw [hvpn] at hholds
    cases hholds with
    | page noTLB current inTable valid =>
      cases current
      exact absurd ⟨inTable, valid, hallows.inMemory⟩ h
    | tlb hasTLB =>
      have hnone : (none : Option (Fin tlbSize → TranslationEntry)) = some _ :=
        htlb.symm.trans hasTLB
      cases hnone
  · refine ⟨x, ?_⟩
    unfold onMemory
    rw [hx.translate hone (.inl rfl)]

/-- With a TLB, `Translate` stops at its first assertion. -/
theorem translate_withTlb (htlb : m.memory.tlb ≠ none) :
    onMemory (Machine.translate virt 1 false) (withCurrent m table size) =
      .error .assertion (withCurrent m table size) := by
  obtain ⟨tlb, htlb⟩ := Option.ne_none_iff_exists'.mp htlb
  have hboth : ¬ ((withCurrent m table size).memory.tlb.isNone = true ∨
      (withCurrent m table size).memory.currentPageTable.isNone = true) := by
    show ¬ (m.memory.tlb.isNone = true ∨ (some table).isNone = true)
    rw [htlb]
    simp
  have hassert : ∀ mem : Memory, assert ((withCurrent m table size).memory.tlb.isNone = true ∨
      (withCurrent m table size).memory.currentPageTable.isNone = true) mem =
        .error .assertion mem := by
    intro mem
    unfold assert
    rw [if_neg hboth]
    rfl
  have hget : ∀ mem : Memory, (get : MemSim Memory) mem = .ok mem mem := fun mem => rfl
  unfold onMemory Machine.translate
  rw [if_neg (by omega), bind_run (hget _), bind_error (hassert _)]

theorem dumpByte_run (htlb : m.memory.tlb = none) (hoffset : offset < pageSize) :
    ∃ shape, dumpByte table size page offset m =
      .ok shape (mark m (shownBy m table size (page % virtualPages))) := by
  have hvpn : (BitVec.ofNat 32 (page * pageSize + offset)).toNat / pageSize = page % virtualPages :=
    virt_page hoffset
  unfold dumpByte
  rw [bind_run (show (get : Sim Machine) m = .ok m m from rfl),
    bind_run (setCurrent_withCurrent m table size)]
  by_cases h : page % virtualPages < size ∧
      Readable (m.memory.pageTables table (page % virtualPages))
  · have hshown : shownBy m table size (page % virtualPages) = {(table, page % virtualPages)} :=
      Set.ext fun p => and_iff_left h
    obtain ⟨pa, -, hfirst, -⟩ := translate_readable htlb hvpn h.1 h.2 ∅
    obtain ⟨value, hsecond⟩ :=
      readMem_readable htlb hvpn h.1 h.2 (∅ ∪ {(table, page % virtualPages)})
    rw [mark_empty, Set.empty_union] at hfirst
    rw [Set.empty_union, Set.union_self] at hsecond
    rw [bind_run hfirst]
    dsimp only
    rw [bind_run hsecond, bind_run (setCurrent_mark m table size _), hshown]
    exact ⟨_, rfl⟩
  · have hshown : shownBy m table size (page % virtualPages) = ∅ :=
      Set.eq_empty_of_forall_notMem fun p hp => h hp.2
    obtain ⟨x, hfirst⟩ := translate_unreadable htlb hvpn h
    rw [bind_run hfirst, hshown, mark_empty]
    exact ⟨_, rfl⟩

theorem dumpByte_stop (htlb : m.memory.tlb ≠ none) :
    dumpByte table size page offset m = .error .assertion (withCurrent m table size) := by
  unfold dumpByte
  rw [bind_run (show (get : Sim Machine) m = .ok m m from rfl),
    bind_run (setCurrent_withCurrent m table size), bind_error (translate_withTlb htlb)]

end

/-! ## A page table -/

section

variable (m : Machine) (table : TableId) (size page : Nat)

theorem dumpByte_triple {offset : Nat} (hoffset : offset < pageSize) :
    Triple (· = m) (dumpByte table size page offset)
      (fun _ s => s = mark m (shownBy m table size (page % virtualPages)) ∧ m.memory.tlb = none)
      (fun e s => e = .assertion ∧ Alike m s ∧ m.memory.tlb ≠ none) := by
  rintro s rfl
  by_cases htlb : s.memory.tlb = none
  · obtain ⟨shape, hrun⟩ : ∃ shape, dumpByte table size page offset s =
        .ok shape (mark s (shownBy s table size (page % virtualPages))) := dumpByte_run htlb hoffset
    rw [hrun]
    exact ⟨rfl, htlb⟩
  · rw [dumpByte_stop htlb]
    exact ⟨rfl, ⟨rfl, fun _ _ => rfl⟩, htlb⟩

/-- The entries that are marked when a page is drawn. -/
def shownPage : Set (TableId × Nat) :=
  {p | (m.memory.pageTables table page).valid = true ∧
    p ∈ shownBy m table size (page % virtualPages)}

theorem shownPage_of_valid (h : (m.memory.pageTables table page).valid = true) :
    shownPage m table size page = shownBy m table size (page % virtualPages) :=
  Set.ext fun _ => and_iff_right h

theorem shownPage_of_invalid (h : ¬ (m.memory.pageTables table page).valid = true) :
    shownPage m table size page = ∅ :=
  Set.eq_empty_of_forall_notMem fun _ hp => h hp.1

/-- The inner loop: every byte marks the same entry. -/
theorem dumpBytes_triple :
    Triple (· = m) ((List.range pageSize).mapM (dumpByte table size page))
      (fun _ s => s = mark m (shownBy m table size (page % virtualPages)) ∧ m.memory.tlb = none)
      (fun e s => e = .assertion ∧ Alike m s ∧ m.memory.tlb ≠ none) := by
  let I (before : List Nat) (s : Machine) : Prop := before = [] ∧ s = m ∨
    s = mark m (shownBy m table size (page % virtualPages)) ∧ m.memory.tlb = none
  have hloop : Triple (I []) ((List.range pageSize).mapM (dumpByte table size page))
      (fun _ s => I (List.range pageSize) s)
      (fun e s => e = .assertion ∧ Alike m s ∧ m.memory.tlb ≠ none) := by
    apply Triple.mapM
    intro before offset after hrange
    have hoffset : offset < pageSize := by
      rw [← List.mem_range, hrange]
      exact List.mem_append_right before List.mem_cons_self
    apply Triple.each
    intro s hs
    rcases hs with ⟨-, rfl⟩ | ⟨rfl, htlb⟩
    · exact (dumpByte_triple s table size page hoffset).post fun _ s' h => .inr h
    · have hbyte := dumpByte_triple (mark m (shownBy m table size (page % virtualPages))) table size
        page hoffset
      rw [shownBy_mark, mark_mark, Set.union_self] at hbyte
      apply (hbyte.post fun _ s' h => .inr h).errors
      rintro e s' ⟨he, halike, hne⟩
      exact absurd htlb hne
  apply (hloop.pre fun s hs => .inl ⟨rfl, hs⟩).post
  rintro _ s (⟨hrange, -⟩ | h)
  · exact absurd hrange (by decide)
  · exact h

theorem dumpPage_triple :
    Triple (· = m) (dumpPage table size page)
      (fun _ s => s = mark m (shownPage m table size page) ∧
        ((m.memory.pageTables table page).valid = true → m.memory.tlb = none))
      (fun e s => e = .assertion ∧ Alike m s ∧ m.memory.tlb ≠ none ∧
        (m.memory.pageTables table page).valid = true) := by
  unfold dumpPage
  apply Triple.bind (Q := fun a s => a = m ∧ s = m) (.get fun s hs => ⟨hs, hs⟩)
  intro a
  apply Triple.given (φ := a = m) (fun s hs => hs.1)
  rintro rfl
  apply Triple.ite
  · intro hvalid
    have hbytes : Triple (· = a) ((List.range pageSize).mapM (dumpByte table size page))
        (fun _ s => s = mark a (shownBy a table size (page % virtualPages)) ∧ a.memory.tlb = none)
        (fun e s => e = .assertion ∧ Alike a s ∧ a.memory.tlb ≠ none ∧
          (a.memory.pageTables table page).valid = true) :=
      (dumpBytes_triple a table size page).errors fun e s h => ⟨h.1, h.2.1, h.2.2, hvalid⟩
    apply (hbytes.pre fun s hs => hs.2).bind
    intro bytes
    apply Triple.pure
    rintro s ⟨rfl, htlb⟩
    rw [shownPage_of_valid a table size page hvalid]
    exact ⟨rfl, fun _ => htlb⟩
  · intro hinvalid
    apply Triple.pure
    rintro s ⟨-, rfl⟩
    rw [shownPage_of_invalid s table size page hinvalid, mark_empty]
    exact ⟨rfl, fun hvalid => absurd hvalid hinvalid⟩

/-- The entries that are marked when the table is drawn. -/
def shownTable : Set (TableId × Nat) :=
  {p | p.1 = table ∧ p.2 < size ∧ p.2 < virtualPages ∧ Readable (m.memory.pageTables p.1 p.2)}

@[simp]
theorem shownPage_mark (S : Set (TableId × Nat)) :
    shownPage (mark m S) table size page = shownPage m table size page := by
  simp only [shownPage, mark_valid, shownBy_mark]

@[simp]
theorem shownTable_mark (S : Set (TableId × Nat)) :
    shownTable (mark m S) table size = shownTable m table size := by
  simp only [shownTable, mark_readable]

/-- A page is read through its own entry or, behind the last virtual page, through that of
a page that is drawn itself. -/
theorem mem_shownTable (p : TableId × Nat) :
    p ∈ shownTable m table size ↔ ∃ page ∈ List.range size, p ∈ shownPage m table size page := by
  constructor
  · rintro ⟨htable, hsize, hvirtual, hread⟩
    obtain ⟨t, vpn⟩ := p
    obtain rfl : t = table := htable
    have hpage : vpn % virtualPages = vpn := Nat.mod_eq_of_lt hvirtual
    refine ⟨vpn, List.mem_range.mpr hsize, hread.1, ?_⟩
    rw [hpage]
    exact ⟨rfl, hsize, hread⟩
  · rintro ⟨page, -, -, rfl, hsize, hread⟩
    exact ⟨rfl, hsize, Nat.mod_lt page (by decide), hread⟩

/-- A space without a valid page, or a machine without a TLB. -/
def Translated (m : Machine) (table : TableId) (size : Nat) : Prop :=
  ∀ page < size, (m.memory.pageTables table page).valid = true → m.memory.tlb = none

theorem dumpPageTable_triple :
    Triple (· = m) (dumpPageTable table size)
      (fun _ s => s = mark m (shownTable m table size) ∧ Translated m table size)
      (fun e s => e = .assertion ∧ Alike m s ∧ ¬ Translated m table size) := by
  let I (before : List Nat) (s : Machine) : Prop :=
    s = mark m {p | ∃ page ∈ before, p ∈ shownPage m table size page} ∧
      ∀ page ∈ before, (m.memory.pageTables table page).valid = true → m.memory.tlb = none
  have hpages : Triple (I []) ((List.range size).mapM (dumpPage table size))
      (fun _ s => I (List.range size) s)
      (fun e s => e = .assertion ∧ Alike m s ∧ ¬ Translated m table size) := by
    apply Triple.mapM
    intro before page after hrange
    have hpage : page < size := by
      rw [← List.mem_range, hrange]
      exact List.mem_append_right before List.mem_cons_self
    apply Triple.each
    rintro s ⟨rfl, hbefore⟩
    have hdump := dumpPage_triple (mark m {p | ∃ page ∈ before, p ∈ shownPage m table size page})
      table size page
    rw [shownPage_mark, mark_mark, mark_valid, mark_tlb] at hdump
    apply (hdump.post _).errors
    · rintro e s ⟨rfl, halike, htlb, hvalid⟩
      exact ⟨rfl, halike.mark, fun h => htlb (h page hpage hvalid)⟩
    · rintro _ s ⟨rfl, hnone⟩
      constructor
      · congr 1
        ext p
        simp only [List.mem_append, List.mem_singleton, Set.mem_union, Set.mem_ofPred_eq,
          or_and_right, exists_or, exists_eq_left]
      · intro page' hmem
        rcases List.mem_append.mp hmem with hmem | hmem
        · exact hbefore page' hmem
        · obtain rfl := List.mem_singleton.mp hmem
          exact hnone
  have hall : {p | ∃ page ∈ List.range size, p ∈ shownPage m table size page} =
      shownTable m table size := Set.ext fun p => (mem_shownTable m table size p).symm
  unfold dumpPageTable
  apply (hpages.pre _).bind
  · intro pages
    apply Triple.each
    rintro s ⟨hs, hnone⟩
    apply Triple.bind (Q := fun _ s' => s' = s) (.get fun s' hs' => hs')
    intro m'
    have hdone : ∀ s', s' = s →
        s' = mark m (shownTable m table size) ∧ Translated m table size := by
      rintro s' rfl
      rw [← hall]
      exact ⟨hs, fun page hpage => hnone page (List.mem_range.mpr hpage)⟩
    exact .ite (fun _ => .pure hdone) fun _ => .pure hdone
  · rintro s rfl
    constructor
    · rw [mark_eq_self.mpr]
      rintro t n ⟨page, hmem, -⟩
      cases hmem
    · intro page hmem
      cases hmem

end

/-! ## The address spaces -/

/-- What `DrawArea` asserts. -/
def Segment.Aligned (g : Segment) : Prop :=
  g.size ≠ 0 → (pageSize : Int) ∣ g.virtualAddr ∧ (pageSize : Int) ∣ g.size

/-- The dump of the space does not stop. -/
structure Drawable (m : Machine) (space : LiveSpace) : Prop where
  aligned : ∀ g ∈ space.noffH.segments, g.Aligned
  translated : Translated m space.pageTable space.numPages

/-- The entries that are marked when the spaces are drawn. -/
def shown (m : Machine) (spaces : List LiveSpace) : Set (TableId × Nat) :=
  {p | ∃ space ∈ spaces, p ∈ shownTable m space.pageTable space.numPages}

section

variable (m : Machine)

theorem drawArea_triple (g : Segment) (name : String) :
    Triple (· = m) (drawArea g name) (fun _ s => s = m ∧ g.Aligned)
      (fun e s => e = .assertion ∧ s = m ∧ ¬ g.Aligned) := by
  unfold drawArea
  apply Triple.ite
  · intro hsize
    exact .pure fun s hs => ⟨hs, fun h => absurd hsize h⟩
  · intro hsize
    apply Triple.bind (Q := fun _ s => s = m ∧ g.virtualAddr.tmod pageSize = 0)
    · apply assert_triple
      intro s hs haddr
      exact ⟨rfl, hs, fun h => haddr (Int.dvd_iff_tmod_eq_zero.mp (h hsize).1)⟩
    · intro _
      apply Triple.bind (Q := fun _ s =>
        (s = m ∧ g.virtualAddr.tmod pageSize = 0) ∧ g.size.tmod pageSize = 0)
      · apply assert_triple
        intro s hs hmul
        exact ⟨rfl, hs.1, fun h => hmul (Int.dvd_iff_tmod_eq_zero.mp (h hsize).2)⟩
      · intro _
        apply Triple.pure
        rintro s ⟨⟨hs, haddr⟩, hmul⟩
        exact ⟨hs, fun _ => ⟨Int.dvd_iff_tmod_eq_zero.mpr haddr, Int.dvd_iff_tmod_eq_zero.mpr hmul⟩⟩

theorem dump_triple (space : LiveSpace) :
    Triple (· = m) (dump space)
      (fun _ s => s = mark m (shownTable m space.pageTable space.numPages) ∧ Drawable m space)
      (fun e s => e = .assertion ∧ Alike m s ∧ ¬ Drawable m space) := by
  unfold dump
  apply ((dumpPageTable_triple m space.pageTable space.numPages).errors _).bind
  · intro table
    apply Triple.given (φ := Translated m space.pageTable space.numPages) (fun s hs => hs.2)
    intro htranslated
    apply Triple.each
    rintro s ⟨rfl, -⟩
    -- the three areas stop in the state that the page table leaves
    have harea : ∀ g ∈ space.noffH.segments, ∀ name,
        Triple (· = mark m (shownTable m space.pageTable space.numPages)) (drawArea g name)
          (fun _ s => s = mark m (shownTable m space.pageTable space.numPages) ∧ g.Aligned)
          (fun e s => e = .assertion ∧ Alike m s ∧ ¬ Drawable m space) := by
      intro g hg name
      apply (drawArea_triple _ g name).errors
      rintro e s ⟨he, rfl, halign⟩
      exact ⟨he, Alike.mark ⟨rfl, fun _ _ => rfl⟩, fun h => halign (h.aligned g hg)⟩
    apply (harea space.noffH.code List.mem_cons_self "code").bind
    intro code
    apply Triple.given (φ := space.noffH.code.Aligned) (fun s hs => hs.2)
    intro hcode
    apply ((harea space.noffH.initData (by simp [NoffHeader.segments]) "data").pre
      fun s hs => hs.1).bind
    intro data
    apply Triple.given (φ := space.noffH.initData.Aligned) (fun s hs => hs.2)
    intro hdata
    apply ((harea space.noffH.uninitData (by simp [NoffHeader.segments]) "bss").pre
      fun s hs => hs.1).bind
    intro bss
    apply Triple.pure
    rintro s ⟨hs, hbss⟩
    refine ⟨hs, ?_, htranslated⟩
    intro g hg
    simp only [NoffHeader.segments, List.mem_cons, List.not_mem_nil, or_false] at hg
    rcases hg with rfl | rfl | rfl
    · exact hcode
    · exact hdata
    · exact hbss
  · rintro e s ⟨he, halike, hnot⟩
    exact ⟨he, halike, fun h => hnot h.translated⟩

@[simp]
theorem drawable_mark (S : Set (TableId × Nat)) (space : LiveSpace) :
    Drawable (mark m S) space ↔ Drawable m space := by
  have htranslated : Translated (mark m S) space.pageTable space.numPages ↔
      Translated m space.pageTable space.numPages := by
    simp only [Translated, mark_valid, mark_tlb]
  constructor
  · intro h
    exact ⟨h.aligned, htranslated.mp h.translated⟩
  · intro h
    exact ⟨h.aligned, htranslated.mpr h.translated⟩

theorem dumpAddrSpaces_triple (spaces : List LiveSpace) :
    Triple (· = m) (dumpAddrSpaces spaces)
      (fun _ s => s = mark m (shown m spaces) ∧ ∀ space ∈ spaces, Drawable m space)
      (fun e s => e = .assertion ∧ Alike m s ∧ ¬ ∀ space ∈ spaces, Drawable m space) := by
  have hloop : Triple (fun s => s = mark m (shown m []) ∧ ∀ space ∈ [], Drawable m space)
      (spaces.mapM dump)
      (fun _ s => s = mark m (shown m spaces) ∧ ∀ space ∈ spaces, Drawable m space)
      (fun e s => e = .assertion ∧ Alike m s ∧ ¬ ∀ space ∈ spaces, Drawable m space) := by
    apply Triple.mapM (I := fun before s => s = mark m (shown m before) ∧
      ∀ space ∈ before, Drawable m space)
    intro before space after hspaces
    have hmem : space ∈ spaces := by
      rw [hspaces]
      exact List.mem_append_right before List.mem_cons_self
    apply Triple.each
    rintro s ⟨rfl, hbefore⟩
    have hdump := dump_triple (mark m (shown m before)) space
    rw [shownTable_mark, mark_mark, drawable_mark] at hdump
    apply (hdump.post _).errors
    · rintro e s ⟨he, halike, hnot⟩
      exact ⟨he, halike.mark, fun h => hnot (h space hmem)⟩
    · rintro _ s ⟨rfl, hdrawable⟩
      constructor
      · congr 1
        ext p
        simp only [shown, List.mem_append, List.mem_singleton, Set.mem_union, Set.mem_ofPred_eq,
          or_and_right, exists_or, exists_eq_left]
      · intro space' hmem'
        rcases List.mem_append.mp hmem' with hmem' | hmem'
        · exact hbefore space' hmem'
        · obtain rfl := List.mem_singleton.mp hmem'
          exact hdrawable
  unfold dumpAddrSpaces
  apply (hloop.pre _).bind
  · intro drawn
    exact .pure fun s hs => hs
  · rintro s rfl
    constructor
    · rw [mark_eq_self.mpr]
      rintro t n ⟨space, hmem, -⟩
      cases hmem
    · intro space hmem
      cases hmem

theorem dumpMem_triple (spaces : List LiveSpace) :
    Triple (· = m) (dumpMem spaces)
      (fun _ s => s = mark m (shown m spaces) ∧ ∀ space ∈ spaces, Drawable m space)
      (fun e s => e = .assertion ∧ Alike m s ∧ ¬ ∀ space ∈ spaces, Drawable m space) := by
  unfold dumpMem
  apply (dumpAddrSpaces_triple m spaces).bind
  intro drawn
  apply Triple.each
  intro s hs
  apply Triple.bind (Q := fun _ s' => s' = s) (.get fun s' hs' => hs')
  intro m'
  apply Triple.pure
  rintro s' rfl
  exact hs

/-- The dump returns when every space can be drawn. -/
theorem dumpMem_ok {spaces : List LiveSpace} (h : ∀ space ∈ spaces, Drawable m space) :
    ∃ drawn, dumpMem spaces m = .ok drawn (mark m (shown m spaces)) := by
  have hrun := dumpMem_triple m spaces m rfl
  cases hdump : dumpMem spaces m with
  | ok drawn s =>
    rw [hdump] at hrun
    obtain ⟨rfl, -⟩ := hrun
    exact ⟨drawn, rfl⟩
  | error e s =>
    rw [hdump] at hrun
    exact absurd h hrun.2.2

/-- Otherwise an assertion fails, and stays in the way. -/
theorem dumpMem_error {spaces : List LiveSpace} (h : ¬ ∀ space ∈ spaces, Drawable m space) :
    ∃ s, dumpMem spaces m = .error .assertion s ∧ Alike m s := by
  have hrun := dumpMem_triple m spaces m rfl
  cases hdump : dumpMem spaces m with
  | ok drawn s =>
    rw [hdump] at hrun
    exact absurd hrun.2 h
  | error e s =>
    rw [hdump] at hrun
    obtain ⟨rfl, halike, -⟩ := hrun
    exact ⟨s, rfl, halike⟩

end

/-- **The dump as an observer.**  When `DumpMem` returns, the machine is what it was just
when every entry that a byte was read through had its use bit already: of the page tables
that are drawn, the valid entries with a frame in memory. -/
theorem dumpMem_unchanged_iff {m m' : Machine} {spaces : List LiveSpace} {drawn : List Shape}
    (h : dumpMem spaces m = .ok drawn m') :
    m' = m ↔ ∀ space ∈ spaces, ∀ page < space.numPages, page < virtualPages →
      (m.memory.pageTables space.pageTable page).valid = true →
      (m.memory.pageTables space.pageTable page).physicalPage.toNat < numPhysPages →
      (m.memory.pageTables space.pageTable page).use = true := by
  obtain ⟨rfl, -⟩ := (dumpMem_triple m spaces).ok rfl h
  rw [mark_eq_self]
  constructor
  · intro hused space hspace page hpage hvirtual hvalid hframe
    exact hused _ _ ⟨space, hspace, rfl, hpage, hvirtual, hvalid, hframe⟩
  · rintro hused t n ⟨space, hspace, htable, hpage, hvirtual, hvalid, hframe⟩
    obtain rfl : t = space.pageTable := htable
    exact hused space hspace n hpage hvirtual hvalid hframe

/-- A header without segments. -/
def emptyHeader : NoffHeader := ⟨noffMagicNumber, ⟨0, 0, 0⟩, ⟨0, 0, 0⟩, ⟨0, 0, 0⟩⟩

/-- A machine without a TLB, where page 1 is in frame 1. -/
def onePage (used : Bool) : Machine where
  registers := fun _ => 0
  memory :=
    { mainMemory := fun _ => 0
      tlb := none
      pageTables := fun _ n => ⟨0, 1, n = 1, false, used, false⟩
      currentPageTable := some 0
      currentPageTableSize := 2 }

theorem drawable_onePage (used : Bool) :
    ∀ space ∈ [(⟨emptyHeader, 0, 2⟩ : LiveSpace)], Drawable (onePage used) space := by
  intro space hspace
  obtain rfl := List.mem_singleton.mp hspace
  constructor
  · intro g hg hsize
    simp only [NoffHeader.segments, emptyHeader, List.mem_cons, List.not_mem_nil, or_false,
      or_self] at hg
    subst hg
    exact absurd rfl hsize
  · intro page hpage hvalid
    rfl

/-- A page that was used before. -/
theorem dumpMem_unchanged_used :
    ∃ drawn m', dumpMem [⟨emptyHeader, 0, 2⟩] (onePage true) = .ok drawn m' ∧
      (m' = onePage true ↔ ∀ space ∈ [(⟨emptyHeader, 0, 2⟩ : LiveSpace)],
        ∀ page < space.numPages, page < virtualPages →
        ((onePage true).memory.pageTables space.pageTable page).valid = true →
        ((onePage true).memory.pageTables space.pageTable page).physicalPage.toNat < numPhysPages →
        ((onePage true).memory.pageTables space.pageTable page).use = true) := by
  obtain ⟨drawn, hrun⟩ := dumpMem_ok (onePage true) (drawable_onePage true)
  exact ⟨drawn, _, hrun, dumpMem_unchanged_iff hrun⟩

/-- A page that was not used before. -/
theorem dumpMem_sets_use :
    ¬ ∀ (m m' : Machine) (spaces : List LiveSpace) (drawn : List Shape),
      dumpMem spaces m = .ok drawn m' → m' = m := by
  intro h
  obtain ⟨drawn, hrun⟩ := dumpMem_ok (onePage false) (drawable_onePage false)
  have hsame := h _ _ _ _ hrun
  have hshown : (0, 1) ∈ shown (onePage false) [(⟨emptyHeader, 0, 2⟩ : LiveSpace)] :=
    ⟨_, List.mem_singleton.mpr rfl, rfl, by decide, by decide, rfl, by decide⟩
  have huse := mark_eq_self.mp hsame 0 1 hshown
  cases huse

end UserProg
end Nachos
