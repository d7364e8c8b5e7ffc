import Nachos.Machine.Exceptions
import Nachos.Machine.Mult
import Nachos.Machine.Words
import Mathlib.Data.List.OfFn

/-!
# The checks of `Translate`

A translation succeeds just when the address is aligned, its page has a valid entry,
the entry allows the access and its frame is in memory.  The first of these checks
that fails decides the exception, and then no entry has changed.
-/

namespace Nachos
namespace Machine

open Lib

/-- The entry of a virtual page: its own in the page table, or the first valid one of
the TLB with its number. -/
inductive Memory.Holds (m : Memory) (vpn : Nat) : Slot → TranslationEntry → Prop
  | page {table : TableId} (noTLB : m.tlb = none) (current : m.currentPageTable = some table)
      (inTable : vpn < m.currentPageTableSize) (valid : (m.pageTables table vpn).valid = true) :
      Holds m vpn (.page table vpn) (m.pageTables table vpn)
  | tlb {tlb : Fin tlbSize → TranslationEntry} {i : Fin tlbSize} (hasTLB : m.tlb = some tlb)
      (valid : (tlb i).valid = true) (number : (tlb i).virtualPage.toNat = vpn)
      (first : ∀ j, j < i → (tlb j).valid = true → (tlb j).virtualPage.toNat ≠ vpn) :
      Holds m vpn (.tlb i) (tlb i)

/-- What is raised when a page has no entry. -/
def Memory.absence (m : Memory) (vpn : Nat) : ExceptionType :=
  if m.tlb.isNone ∧ m.currentPageTableSize ≤ vpn then .addressError else .pageFault

section

variable {m : Memory} {addr : Word} {size vpn : Nat} {writing : Bool} {slot : Slot}
  {e : TranslationEntry}

theorem misaligned_iff (hsize : size = 1 ∨ size = 2 ∨ size = 4) :
    (size = 4 ∧ addr &&& 3 ≠ 0) ∨ (size = 2 ∧ addr &&& 1 ≠ 0) ↔ ¬ size ∣ addr.toNat := by
  have h4 : addr &&& 3 ≠ 0 ↔ ¬ 4 ∣ addr.toNat := by
    rw [Nat.dvd_iff_mod_eq_zero]
    exact (and_three_eq addr (by decide)).not
  have h2 : addr &&& 1 ≠ 0 ↔ ¬ 2 ∣ addr.toNat := by
    rw [odd_iff]
    omega
  rcases hsize with rfl | rfl | rfl
  · exact ⟨fun h => h.elim (fun h => absurd h.1 (by decide)) fun h => absurd h.1 (by decide),
      fun h => absurd (Nat.one_dvd _) h⟩
  · exact ⟨fun h => h.elim (fun h => absurd h.1 (by decide)) fun h => h2.mp h.2,
      fun h => .inr ⟨rfl, h2.mpr h⟩⟩
  · exact ⟨fun h => h.elim (fun h => h4.mp h.2) fun h => absurd h.1 (by decide),
      fun h => .inl ⟨rfl, h4.mpr h⟩⟩

/-- The search of the TLB stops at the first entry that matches. -/
theorem find_finRange {n : Nat} {p : Fin n → Bool} {i : Fin n} :
    (List.finRange n).find? p = some i ↔ p i = true ∧ ∀ j < i, ¬ p j = true :=
  List.find?_ofFn_eq_some_of_injective Function.injective_id

/-- The search finds the entry of the page. -/
theorem Memory.Holds.lookup (h : m.Holds vpn slot e) :
    m.lookup vpn = .ok slot ∧ m.entry slot = some e := by
  cases h with
  | page noTLB current inTable valid =>
    refine ⟨?_, rfl⟩
    unfold Memory.lookup
    rw [noTLB, current]
    dsimp only
    rw [if_neg (Nat.not_le.mpr inTable), if_pos valid]
  | @tlb t i hasTLB valid number first =>
    have hfind : (List.finRange tlbSize).find? (fun j =>
        decide ((t j).valid = true ∧ (t j).virtualPage.toNat = vpn)) = some i :=
      find_finRange.mpr ⟨decide_eq_true ⟨valid, number⟩, fun j hj hmatch =>
        first j hj (of_decide_eq_true hmatch).1 (of_decide_eq_true hmatch).2⟩
    refine ⟨?_, ?_⟩
    · unfold Memory.lookup
      rw [hasTLB]
      dsimp only
      rw [hfind]
    · show m.tlb.map (· i) = _
      rw [hasTLB]
      rfl

/-- What the search finds is the entry of the page. -/
theorem holds_of_lookup (h : m.lookup vpn = .ok slot) : ∃ e, m.Holds vpn slot e := by
  rcases Memory.lookup_cases h with
    ⟨table, htlb, htable, hsize, hvalid, rfl⟩ | ⟨t, i, htlb, hfind, rfl⟩
  · exact ⟨_, .page htlb htable hsize hvalid⟩
  · obtain ⟨hmatch, hfirst⟩ := find_finRange.mp hfind
    rw [decide_eq_true_iff] at hmatch
    exact ⟨_, .tlb htlb hmatch.1 hmatch.2 fun j hj hvalid hnumber =>
      hfirst j hj (decide_eq_true ⟨hvalid, hnumber⟩)⟩

theorem lookup_of_absent (hone : m.OneTable) (h : ∀ slot e, ¬ m.Holds vpn slot e) :
    m.lookup vpn = .error (m.absence vpn) := by
  cases hlookup : m.lookup vpn with
  | ok slot =>
    obtain ⟨e, he⟩ := holds_of_lookup hlookup
    exact absurd he (h slot e)
  | error exception =>
    refine congrArg Except.error ?_
    unfold Memory.lookup at hlookup
    unfold Memory.absence
    unfold Memory.OneTable at hone
    split at hlookup
    · rename_i table htlb htable
      rw [htlb]
      split at hlookup
      · rename_i hsize
        cases hlookup
        exact (if_pos ⟨rfl, hsize⟩).symm
      · rename_i hsize
        split at hlookup
        · cases hlookup
        · cases hlookup
          exact (if_neg fun h => hsize h.2).symm
    · rename_i t htlb
      rw [htlb]
      split at hlookup
      · cases hlookup
      · cases hlookup
        exact (if_neg fun h => Bool.false_ne_true h.1).symm
    · rename_i htlb htable
      rw [htlb, htable] at hone
      cases hone

/-! ## The outcome -/

/-- All checks succeed, with this entry. -/
structure Memory.Allows (m : Memory) (addr : Word) (size : Nat) (writing : Bool) (slot : Slot)
    (e : TranslationEntry) : Prop where
  aligned : size ∣ addr.toNat
  present : m.Holds (addr.toNat / pageSize) slot e
  writable : writing = true → e.readOnly = false
  inMemory : e.physicalPage.toNat < numPhysPages

/-- The first check that fails, and what it raises. -/
inductive Memory.Refuses (m : Memory) (addr : Word) (size : Nat) (writing : Bool) :
    ExceptionType → Prop
  | alignment (h : ¬ size ∣ addr.toNat) : Refuses m addr size writing .addressError
  | presence (aligned : size ∣ addr.toNat)
      (h : ∀ slot e, ¬ m.Holds (addr.toNat / pageSize) slot e) :
      Refuses m addr size writing (m.absence (addr.toNat / pageSize))
  | readOnly {slot : Slot} {e : TranslationEntry} (aligned : size ∣ addr.toNat)
      (present : m.Holds (addr.toNat / pageSize) slot e) (h : e.readOnly = true)
      (writes : writing = true) : Refuses m addr size writing .readOnly
  | bus {slot : Slot} {e : TranslationEntry} (aligned : size ∣ addr.toNat)
      (present : m.Holds (addr.toNat / pageSize) slot e)
      (writable : writing = true → e.readOnly = false)
      (h : numPhysPages ≤ e.physicalPage.toNat) : Refuses m addr size writing .busError

/-- One of the two. -/
theorem allows_or_refuses (m : Memory) (addr : Word) (size : Nat) (writing : Bool) :
    (∃ slot e, m.Allows addr size writing slot e) ∨ ∃ x, m.Refuses addr size writing x := by
  by_cases haligned : size ∣ addr.toNat
  · by_cases hpresent : ∃ slot e, m.Holds (addr.toNat / pageSize) slot e
    · obtain ⟨slot, e, he⟩ := hpresent
      by_cases hwritable : writing = true → e.readOnly = false
      · by_cases hframe : e.physicalPage.toNat < numPhysPages
        · exact .inl ⟨slot, e, haligned, he, hwritable, hframe⟩
        · exact .inr ⟨_, .bus haligned he hwritable (Nat.not_lt.mp hframe)⟩
      · obtain ⟨hwrites, hreadOnly⟩ := Classical.not_imp.mp hwritable
        exact .inr ⟨_, .readOnly haligned he (Bool.eq_true_of_not_eq_false hreadOnly) hwrites⟩
    · exact .inr ⟨_, .presence haligned fun slot e he => hpresent ⟨slot, e, he⟩⟩
  · exact .inr ⟨_, .alignment haligned⟩

/-- `Translate` behind its first check and its assertions. -/
theorem translate_aligned (hone : m.OneTable)
    (haligned : ¬ ((size = 4 ∧ addr &&& 3 ≠ 0) ∨ (size = 2 ∧ addr &&& 1 ≠ 0))) {x : ExceptionType}
    (h : m.lookup (addr.toNat / pageSize) = .error x ∨
      m.lookup (addr.toNat / pageSize) = .ok slot ∧ m.entry slot = some e ∧
        ((e.readOnly && writing) = true ∧ x = .readOnly ∨
          ¬ (e.readOnly && writing) = true ∧ numPhysPages ≤ e.physicalPage.toNat ∧
            x = .busError)) :
    translate addr size writing m = .ok (.error x) m := by
  rcases h with h | ⟨h, hentry, ⟨hreadOnly, rfl⟩ | ⟨hwritable, hframe, rfl⟩⟩
  · rw [translate_checked hone haligned, h]
    rfl
  · rw [translate_checked hone haligned, h]
    dsimp only
    rw [hentry]
    dsimp only
    rw [if_pos hreadOnly]
    rfl
  · rw [translate_checked hone haligned, h]
    dsimp only
    rw [hentry]
    dsimp only
    rw [if_neg hwritable, if_pos hframe]
    rfl

theorem Memory.Refuses.translate {x : ExceptionType} (hone : m.OneTable)
    (hsize : size = 1 ∨ size = 2 ∨ size = 4) (h : m.Refuses addr size writing x) :
    translate addr size writing m = .ok (.error x) m := by
  have hchecked : size ∣ addr.toNat → ¬ ((size = 4 ∧ addr &&& 3 ≠ 0) ∨
      (size = 2 ∧ addr &&& 1 ≠ 0)) := fun h => (misaligned_iff hsize).not.mpr (not_not.mpr h)
  cases h with
  | alignment h =>
    unfold Machine.translate
    rw [if_pos ((misaligned_iff hsize).mpr h)]
    rfl
  | presence aligned h =>
    apply translate_aligned hone (hchecked aligned) (.inl (lookup_of_absent hone h))
    exacts [.page 0 0, ⟨0, 0, false, false, false, false⟩]
  | @readOnly slot e aligned present h writes =>
    obtain ⟨hlookup, hentry⟩ := present.lookup
    refine translate_aligned hone (hchecked aligned) (.inr ⟨hlookup, hentry, .inl ⟨?_, rfl⟩⟩)
    rw [h, writes]
    rfl
  | @bus slot e aligned present writable h =>
    obtain ⟨hlookup, hentry⟩ := present.lookup
    refine translate_aligned hone (hchecked aligned)
      (.inr ⟨hlookup, hentry, .inr ⟨fun hboth => ?_, h, rfl⟩⟩)
    obtain ⟨hreadOnly, hwrites⟩ := Bool.and_eq_true_iff.mp hboth
    exact Bool.false_ne_true ((writable hwrites).symm.trans hreadOnly)

/-- A touch sets the bits of one entry. -/
theorem touch_entry_self (h : m.entry slot = some e) (writing : Bool) :
    (m.touch slot writing).entry slot = some (e.touch writing) := by
  cases slot with
  | page table vpn =>
    obtain rfl := Option.some.inj h
    exact congrArg some (if_pos ⟨rfl, rfl⟩)
  | tlb i =>
    obtain ⟨t, ht, rfl⟩ := Option.map_eq_some_iff.mp h
    show (m.tlb.map fun tlb j => if j = i then (tlb j).touch writing else tlb j).map (· i) = _
    rw [ht]
    exact congrArg some (if_pos rfl)

theorem touch_entry_of_ne (m : Memory) {slot' : Slot} (h : slot' ≠ slot) (writing : Bool) :
    (m.touch slot writing).entry slot' = m.entry slot' := by
  cases slot with
  | page table vpn =>
    cases slot' with
    | tlb j => rfl
    | page t n =>
      refine congrArg some (if_neg fun hsame => h ?_)
      rw [hsame.1, hsame.2]
  | tlb i =>
    cases slot' with
    | page t n => rfl
    | tlb j =>
      show (m.tlb.map fun tlb j => if j = i then (tlb j).touch writing else tlb j).map (· j) =
        m.tlb.map (· j)
      rw [Option.map_map]
      congr 1
      funext t
      exact if_neg fun hsame => h (by rw [hsame])

theorem Memory.Allows.translate (hone : m.OneTable) (hsize : size = 1 ∨ size = 2 ∨ size = 4)
    (h : m.Allows addr size writing slot e) :
    e.physicalPage.toNat * pageSize + addr.toNat % pageSize + size ≤ memorySize ∧
      translate addr size writing m =
        .ok (.ok (e.physicalPage.toNat * pageSize + addr.toNat % pageSize))
          (m.touch slot writing) := by
  have haligned : ¬ ((size = 4 ∧ addr &&& 3 ≠ 0) ∨ (size = 2 ∧ addr &&& 1 ≠ 0)) :=
    (misaligned_iff hsize).not.mpr (not_not.mpr h.aligned)
  have hpage := aligned_inPage hsize haligned
  obtain ⟨hlookup, hentry⟩ := h.present.lookup
  obtain ⟨hactive, e', hentry', hvalid⟩ := Memory.lookup_ok hlookup
  obtain rfl := Option.some.inj (hentry.symm.trans hentry')
  have hfound : Found m addr size writing slot
      (e.physicalPage.toNat * pageSize + addr.toNat % pageSize) := by
    refine ⟨hlookup, ⟨e.mapping, hactive, ?_, hvalid, h.writable, h.inMemory, rfl⟩, hpage⟩
    unfold Memory.mapping
    rw [hentry]
    rfl
  have hin : e.physicalPage.toNat * pageSize + addr.toNat % pageSize + size ≤ memorySize := by
    have hframe : e.physicalPage.toNat < 64 := h.inMemory
    have hpage' : addr.toNat % 128 + size ≤ 128 := hpage
    show e.physicalPage.toNat * 128 + addr.toNat % 128 + size ≤ 64 * 128
    omega
  exact ⟨hin, translate_run hone hfound haligned hin⟩

/-- **Translation.**  With one table, `Translate` succeeds just when all its checks do,
and then marks the one entry as used, and as dirty if it is for writing.  Otherwise it
returns the exception of the first check that failed, and changes nothing. -/
theorem translate_exact (hone : m.OneTable) (hsize : size = 1 ∨ size = 2 ∨ size = 4) :
    ((∃ pa m', translate addr size writing m = .ok (.ok pa) m') ↔
      ∃ slot e, m.Allows addr size writing slot e) ∧
    (∀ slot e, m.Allows addr size writing slot e →
      ∃ pa m', translate addr size writing m = .ok (.ok pa) m' ∧
        pa = e.physicalPage.toNat * pageSize + addr.toNat % pageSize ∧
        pa + size ≤ memorySize ∧
        m'.entry slot = some { e with use := true, dirty := e.dirty || writing } ∧
        (∀ slot', slot' ≠ slot → m'.entry slot' = m.entry slot') ∧
        m'.mainMemory = m.mainMemory) ∧
    ((∃ x, m.Refuses addr size writing x) ∨ ∃ slot e, m.Allows addr size writing slot e) ∧
    (∀ x, m.Refuses addr size writing x → translate addr size writing m = .ok (.error x) m) := by
  refine ⟨⟨?_, ?_⟩, fun slot e h => ?_, (allows_or_refuses m addr size writing).symm,
    fun x h => h.translate hone hsize⟩
  · rintro ⟨pa, m', hrun⟩
    refine (allows_or_refuses m addr size writing).resolve_right ?_
    rintro ⟨x, h⟩
    have herror := (h.translate hone hsize).symm.trans hrun
    cases herror
  · rintro ⟨slot, e, h⟩
    exact ⟨_, _, (h.translate hone hsize).2⟩
  · obtain ⟨hin, hrun⟩ := h.translate hone hsize
    obtain ⟨-, hentry⟩ := h.present.lookup
    refine ⟨_, _, hrun, rfl, hin, ?_, fun slot' hne => ?_, m.touch_mainMemory slot writing⟩
    · exact touch_entry_self hentry writing
    · exact touch_entry_of_ne m hne writing

end

/-- A word is to be written at 8, in the one page of a page table. -/
theorem translate_exact_onePage :
    ∃ m', translate 8 4 true (single 0 fun _ => 0).memory = .ok (.ok 8) m' ∧
      m'.entry (.page 0 0) = some ⟨0, 0, true, false, true, true⟩ := by
  have hallows : (single 0 fun _ => 0).memory.Allows 8 4 true (.page 0 0)
      ⟨0, 0, true, false, false, false⟩ :=
    ⟨by decide, .page rfl rfl (by decide) rfl, fun _ => rfl, by decide⟩
  obtain ⟨pa, m', hrun, rfl, -, hentry, -⟩ :=
    (translate_exact (m := (single 0 fun _ => 0).memory) rfl (.inr (.inr rfl))).2.1 _ _ hallows
  exact ⟨m', hrun, hentry⟩

end Machine
end Nachos
