import Nachos.Machine.Checks

/-!
# The two modes of `Translate`

A TLB whose valid entries are copies of entries of a page table, against the page table
itself.  Behind the search the two modes share all their checks, so an entry that the TLB
holds gives the outcome of the page table, whatever the order of the entries and however
often one is copied.  What the TLB does not hold is a page fault.

The page table is indexed by the virtual page number.  Its `virtualPage` fields are for a
TLB only and nobody sets them, so the two modes agree on copies that have the index of
their original for a number, and need not agree on others.
-/

namespace Nachos
namespace Machine

namespace Memory

/-- The machine was built with a TLB. -/
def withTlb (m : Memory) (tlb : Fin tlbSize → TranslationEntry) : Memory :=
  { m with tlb := some tlb, currentPageTable := none }

/-- The machine was built without a TLB, and `table` is current. -/
def withPageTable (m : Memory) (table : TableId) (size : Nat) : Memory :=
  { m with tlb := none, currentPageTable := some table, currentPageTableSize := size }

end Memory

/-- Each valid entry of the TLB is copied from a valid entry of the page table. -/
def Copied (tlb : Fin tlbSize → TranslationEntry) (pageTable : Nat → TranslationEntry)
    (size : Nat) : Prop :=
  ∀ i, (tlb i).valid = true → ∃ vpn < size, (pageTable vpn).valid = true ∧
    (tlb i).virtualPage = (pageTable vpn).virtualPage ∧
    (tlb i).physicalPage = (pageTable vpn).physicalPage ∧
    (tlb i).readOnly = (pageTable vpn).readOnly

/-- Each valid entry of the TLB is copied from a valid entry of the page table, with the
index of that entry as its number. -/
def Indexed (tlb : Fin tlbSize → TranslationEntry) (pageTable : Nat → TranslationEntry)
    (size : Nat) : Prop :=
  ∀ i, (tlb i).valid = true → ∃ vpn < size, (pageTable vpn).valid = true ∧
    (tlb i).virtualPage.toNat = vpn ∧
    (tlb i).physicalPage = (pageTable vpn).physicalPage ∧
    (tlb i).readOnly = (pageTable vpn).readOnly

/-- How the outcome with a TLB is related to the one with the page table. -/
structure ModesAgree (tlb pageTable : EStateM.Result Stop Memory (Except ExceptionType Nat)) :
    Prop where
  hit : ∀ pa m, tlb = .ok (.ok pa) m → ∃ m', pageTable = .ok (.ok pa) m'
  exception : ∀ x m, pageTable = .ok (.error x) m → ∃ y m', tlb = .ok (.error y) m'
  same : ∀ x m, tlb = .ok (.error x) m → x ≠ .pageFault → ∃ m', pageTable = .ok (.error x) m'

/-! ## The checks behind the search -/

/-- What `Translate` makes of the entry it found. -/
def TranslationEntry.outcome (e : TranslationEntry) (virtAddr : Word) (writing : Bool) :
    Except ExceptionType Nat :=
  if e.readOnly && writing then .error .readOnly
  else if numPhysPages ≤ e.physicalPage.toNat then .error .busError
  else .ok (e.physicalPage.toNat * pageSize + virtAddr.toNat % pageSize)

/-- The outcome is returned, unless the bytes go past the end of the memory. -/
def returned (outcome : Except ExceptionType Nat) (size : Nat) (m m' : Memory) :
    EStateM.Result Stop Memory (Except ExceptionType Nat) :=
  match outcome with
  | .error x => .ok (.error x) m
  | .ok pa => if pa + size ≤ memorySize then .ok (.ok pa) m' else .error .assertion m'

section

variable {m : Memory} {addr : Word} {size n : Nat} {writing : Bool} {slot : Slot}
  {e e' : TranslationEntry} {table : TableId} {tlb : Fin tlbSize → TranslationEntry}

theorem TranslationEntry.outcome_congr (hframe : e.physicalPage = e'.physicalPage)
    (hreadOnly : e.readOnly = e'.readOnly) (addr : Word) (writing : Bool) :
    e.outcome addr writing = e'.outcome addr writing := by
  simp only [TranslationEntry.outcome, hframe, hreadOnly]

/-- The rest of `Translate`, in both modes and for any number of bytes. -/
theorem translate_found (hone : m.OneTable)
    (haligned : ¬ ((size = 4 ∧ addr &&& 3 ≠ 0) ∨ (size = 2 ∧ addr &&& 1 ≠ 0)))
    (hlookup : m.lookup (addr.toNat / pageSize) = .ok slot) (hentry : m.entry slot = some e) :
    translate addr size writing m =
      returned (e.outcome addr writing) size m (m.touch slot writing) := by
  rw [translate_checked hone haligned, hlookup]
  dsimp only
  rw [hentry]
  dsimp only [TranslationEntry.outcome]
  by_cases hreadOnly : (e.readOnly && writing) = true
  · rw [if_pos hreadOnly, if_pos hreadOnly]
    rfl
  · rw [if_neg hreadOnly, if_neg hreadOnly]
    by_cases hframe : numPhysPages ≤ e.physicalPage.toNat
    · rw [if_pos hframe, if_pos hframe]
      rfl
    · rw [if_neg hframe, if_neg hframe]
      by_cases hin : e.physicalPage.toNat * pageSize + addr.toNat % pageSize + size ≤ memorySize
      · simp only [returned, if_pos hin, assert]
        rfl
      · simp only [returned, if_neg hin, assert]
        rfl

theorem translate_misaligned (m : Memory) (writing : Bool)
    (h : (size = 4 ∧ addr &&& 3 ≠ 0) ∨ (size = 2 ∧ addr &&& 1 ≠ 0)) :
    translate addr size writing m = .ok (.error .addressError) m := by
  unfold translate
  rw [if_pos h]
  rfl

/-! ## The two searches -/

theorem withTlb_oneTable (m : Memory) (tlb : Fin tlbSize → TranslationEntry) :
    (m.withTlb tlb).OneTable := rfl

theorem withPageTable_oneTable (m : Memory) (table : TableId) (n : Nat) :
    (m.withPageTable table n).OneTable := rfl

/-- The search of the TLB fails in one way. -/
theorem withTlb_lookup_error {vpn : Nat} {x : ExceptionType}
    (h : (m.withTlb tlb).lookup vpn = .error x) : x = .pageFault := by
  simp only [Memory.lookup, Memory.withTlb] at h
  split at h
  · cases h
  · cases h
    rfl

/-- What the TLB holds of a page is a copy of the page's own entry. -/
theorem lookup_copied {vpn : Nat} (hindexed : Indexed tlb (m.pageTables table) n)
    (h : (m.withTlb tlb).lookup vpn = .ok slot) :
    ∃ e, (m.withTlb tlb).entry slot = some e ∧
      (m.withPageTable table n).lookup vpn = .ok (.page table vpn) ∧
      e.physicalPage = (m.pageTables table vpn).physicalPage ∧
      e.readOnly = (m.pageTables table vpn).readOnly := by
  obtain ⟨e, hholds⟩ := holds_of_lookup h
  cases hholds with
  | page noTLB => cases noTLB
  | @tlb t i hasTLB valid number first =>
    obtain rfl : tlb = t := Option.some.inj hasTLB
    obtain ⟨vpn', hin, hvalid, hindex, hframe, hreadOnly⟩ := hindexed i valid
    -- the number in the copy is the index of the original
    have hsame : vpn' = vpn := hindex.symm.trans number
    subst hsame
    exact ⟨_, rfl, (Memory.Holds.page (m := m.withPageTable table n) rfl rfl hin hvalid).lookup.1,
      hframe, hreadOnly⟩

/-! ## The two modes -/

theorem modesAgree_of_outcome (outcome : Except ExceptionType Nat) (size : Nat)
    (m₁ m₁' m₂ m₂' : Memory) :
    ModesAgree (returned outcome size m₁ m₁') (returned outcome size m₂ m₂') := by
  cases outcome with
  | error x =>
    constructor
    · intro pa m h
      cases h
    · intro y m h
      exact ⟨x, m₁, rfl⟩
    · intro y m h hne
      cases h
      exact ⟨m₂, rfl⟩
  | ok pa =>
    simp only [returned]
    split
    · constructor
      · intro pa' m h
        cases h
        exact ⟨m₂', rfl⟩
      · intro x m h
        cases h
      · intro x m h
        cases h
    · constructor
      · intro pa' m h
        cases h
      · intro x m h
        cases h
      · intro x m h
        cases h

/-- **TLB and page table.**  The TLB holds copies of some entries of the page table, under
the indexes of these entries.  An address that is found in the TLB is where the page table
has it; where the page table has none the TLB has none; and with an entry in the TLB, an
exception is the one of the page table. -/
theorem tlb_agrees_with_pageTable (m : Memory) (hindexed : Indexed tlb (m.pageTables table) n)
    (addr : Word) (size : Nat) (writing : Bool) :
    ModesAgree (translate addr size writing (m.withTlb tlb))
      (translate addr size writing (m.withPageTable table n)) := by
  by_cases haligned : (size = 4 ∧ addr &&& 3 ≠ 0) ∨ (size = 2 ∧ addr &&& 1 ≠ 0)
  · rw [translate_misaligned _ writing haligned, translate_misaligned _ writing haligned]
    exact modesAgree_of_outcome (.error .addressError) size _ m _ m
  cases hlookup : (m.withTlb tlb).lookup (addr.toNat / pageSize) with
  | error x =>
    have hx := withTlb_lookup_error hlookup
    have htlb : translate addr size writing (m.withTlb tlb) = .ok (.error x) (m.withTlb tlb) := by
      rw [translate_checked (withTlb_oneTable m tlb) haligned, hlookup]
      rfl
    rw [htlb]
    constructor
    · intro pa m' h
      cases h
    · intro y m' h
      exact ⟨x, _, rfl⟩
    · intro y m' h hne
      cases h
      exact absurd hx hne
  | ok slot =>
    obtain ⟨e, hentry, hwalk, hframe, hreadOnly⟩ := lookup_copied hindexed hlookup
    rw [translate_found (withTlb_oneTable m tlb) haligned hlookup hentry,
      translate_found (withPageTable_oneTable m table n) haligned hwalk rfl,
      TranslationEntry.outcome_congr hframe hreadOnly addr writing]
    exact modesAgree_of_outcome _ _ _ _ _ _

end

/-- Memory with one page table. -/
def tabled (pageTable : Nat → TranslationEntry) : Memory where
  mainMemory := fun _ => 0
  tlb := none
  pageTables := fun _ => pageTable
  currentPageTable := none
  currentPageTableSize := 0

/-- Two copies of one entry in the TLB, and an access to its page.  The page table has
zeros for numbers. -/
theorem tlb_agrees_twice :
    ModesAgree
      (translate 136 4 false ((tabled fun _ => ⟨0, 7, true, true, false, false⟩).withTlb
        fun i => ⟨1, 7, i.val < 2, true, false, false⟩))
      (translate 136 4 false ((tabled fun _ => ⟨0, 7, true, true, false, false⟩).withPageTable
        0 4)) := by
  apply tlb_agrees_with_pageTable
  intro i hvalid
  exact ⟨1, by omega, rfl, rfl, rfl, rfl⟩

/-- Entry 0 of this page table has the number 1, and its copy in the TLB is found for
page 1. -/
theorem tlb_disagrees_misnumbered :
    ¬ ∀ (m : Memory) (table : TableId) (n : Nat) (tlb : Fin tlbSize → TranslationEntry),
      Copied tlb (m.pageTables table) n → ∀ (addr : Word) (size : Nat) (writing : Bool),
        ModesAgree (translate addr size writing (m.withTlb tlb))
          (translate addr size writing (m.withPageTable table n)) := by
  intro h
  have hcopied : Copied (fun _ => ⟨1, 0, true, false, false, false⟩)
      (fun vpn => ⟨1, vpn, true, false, false, false⟩) 2 := by
    intro i hvalid
    exact ⟨0, by omega, rfl, rfl, rfl, rfl⟩
  have hagree := h (tabled fun vpn => ⟨1, vpn, true, false, false, false⟩) 0 2 _ hcopied 128 4 false
  obtain ⟨m', hwalk⟩ := hagree.hit 0 _ rfl
  cases hwalk

end Machine
end Nachos
