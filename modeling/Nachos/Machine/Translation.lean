import Nachos.Lib.Triple
import Nachos.Machine.Memory

/-!
# What `Translate` finds and what it changes

The mapping of a translation entry is what the kernel has set up; `Translate`
changes only the use and dirty bits.  A page or TLB entry that it finds is valid,
and the bytes it leads to lie in one frame.
-/

namespace Nachos
namespace Machine

open Lib

/-! ## Mappings -/

/-- The fields of a translation entry that only the kernel sets. -/
structure Mapping where
  virtualPage : Word
  physicalPage : Word
  valid : Bool
  readOnly : Bool

def TranslationEntry.mapping (e : TranslationEntry) : Mapping :=
  ⟨e.virtualPage, e.physicalPage, e.valid, e.readOnly⟩

/-- The same tables with the same mappings. -/
structure SameTables (m m' : Memory) : Prop where
  tlb : m'.tlb.map (fun t i => (t i).mapping) = m.tlb.map (fun t i => (t i).mapping)
  pageTables : ∀ t n, (m'.pageTables t n).mapping = (m.pageTables t n).mapping
  currentPageTable : m'.currentPageTable = m.currentPageTable
  currentPageTableSize : m'.currentPageTableSize = m.currentPageTableSize

theorem SameTables.refl (m : Memory) : SameTables m m := ⟨rfl, fun _ _ => rfl, rfl, rfl⟩

theorem SameTables.trans {m₁ m₂ m₃ : Memory} (h : SameTables m₁ m₂) (h' : SameTables m₂ m₃) :
    SameTables m₁ m₃ :=
  ⟨h'.tlb.trans h.tlb, fun t n => (h'.pageTables t n).trans (h.pageTables t n),
    h'.currentPageTable.trans h.currentPageTable,
    h'.currentPageTableSize.trans h.currentPageTableSize⟩

theorem SameTables.symm {m m' : Memory} (h : SameTables m m') : SameTables m' m :=
  ⟨h.tlb.symm, fun t n => (h.pageTables t n).symm, h.currentPageTable.symm,
    h.currentPageTableSize.symm⟩

namespace Memory

/-- What the kernel has set up in a slot. -/
def mapping (m : Memory) (slot : Slot) : Option Mapping := (m.entry slot).map (·.mapping)

/-- The dirty bit of a slot. -/
def dirty (m : Memory) (slot : Slot) : Option Bool := (m.entry slot).map (·.dirty)

/-- The slots of the TLB, or of the current page table when there is no TLB. -/
def Active (m : Memory) : Slot → Prop
  | .page table vpn =>
    m.tlb = none ∧ m.currentPageTable = some table ∧ vpn < m.currentPageTableSize
  | .tlb _ => m.tlb.isSome

/-- Frame `f` is mapped by a valid entry, which allows writing if that is asked
for. -/
def Maps (m : Memory) (f : Nat) (writing : Bool) : Prop :=
  f < numPhysPages ∧ ∃ slot e, m.Active slot ∧ m.mapping slot = some e ∧ e.valid = true ∧
    (writing = true → e.readOnly = false) ∧ e.physicalPage.toNat = f

/-- There is a TLB or a page table, and not both. -/
def OneTable (m : Memory) : Prop := m.tlb.isNone = !m.currentPageTable.isNone

/-- The two assertions at the start of `Translate`. -/
theorem oneTable_iff (m : Memory) : m.OneTable ↔
    (m.tlb.isNone ∨ m.currentPageTable.isNone) ∧ (m.tlb.isSome ∨ m.currentPageTable.isSome) := by
  unfold OneTable
  cases m.tlb <;> cases m.currentPageTable <;> simp

end Memory

namespace SameTables

variable {m m' : Memory}

theorem isNone (h : SameTables m m') : m'.tlb.isNone = m.tlb.isNone := by
  have htlb := congrArg Option.isNone h.tlb
  rw [Option.isNone_map, Option.isNone_map] at htlb
  exact htlb

theorem mapping (h : SameTables m m') (slot : Slot) : m'.mapping slot = m.mapping slot := by
  cases slot with
  | page table vpn => exact congrArg some (h.pageTables table vpn)
  | tlb i =>
    have htlb := congrArg (Option.map (· i)) h.tlb
    rw [Option.map_map, Option.map_map] at htlb
    show (m'.tlb.map (· i)).map (·.mapping) = (m.tlb.map (· i)).map (·.mapping)
    rw [Option.map_map, Option.map_map]
    exact htlb

theorem active (h : SameTables m m') (slot : Slot) : m'.Active slot ↔ m.Active slot := by
  have hnone := h.isNone
  cases slot with
  | page table vpn =>
    unfold Memory.Active
    rw [← Option.isNone_iff_eq_none, ← Option.isNone_iff_eq_none, hnone, h.currentPageTable,
      h.currentPageTableSize]
  | tlb i =>
    show m'.tlb.isSome = true ↔ m.tlb.isSome = true
    rw [← Option.not_isNone, ← Option.not_isNone, hnone]

theorem maps (h : SameTables m m') (f : Nat) (writing : Bool) :
    m'.Maps f writing ↔ m.Maps f writing := by
  unfold Memory.Maps
  simp only [h.active, h.mapping]

theorem oneTable (h : SameTables m m') : m'.OneTable ↔ m.OneTable := by
  unfold Memory.OneTable
  rw [h.isNone, h.currentPageTable]

/-- The search depends on the mappings only. -/
theorem lookup (h : SameTables m m') (vpn : Nat) : m'.lookup vpn = m.lookup vpn := by
  have htlb := h.tlb
  unfold Memory.lookup
  rw [h.currentPageTable, h.currentPageTableSize]
  cases ht : m.tlb with
  | none =>
    rw [ht, Option.map_none, Option.map_eq_none_iff] at htlb
    rw [htlb]
    cases m.currentPageTable with
    | none => rfl
    | some table =>
      have hvalid : (m'.pageTables table vpn).valid = (m.pageTables table vpn).valid :=
        congrArg Mapping.valid (h.pageTables table vpn)
      simp only [hvalid]
  | some t =>
    rw [ht, Option.map_some, Option.map_eq_some_iff] at htlb
    obtain ⟨t', ht', heq⟩ := htlb
    have hmatch : ∀ i, ((t' i).valid = true ∧ (t' i).virtualPage.toNat = vpn) =
        ((t i).valid = true ∧ (t i).virtualPage.toNat = vpn) := by
      intro i
      have hi := congrFun heq i
      rw [show (t' i).valid = (t i).valid from congrArg Mapping.valid hi,
        show (t' i).virtualPage = (t i).virtualPage from congrArg Mapping.virtualPage hi]
    rw [ht']
    simp only [hmatch]

end SameTables

theorem Memory.touch_sameTables (m : Memory) (slot : Slot) (writing : Bool) :
    SameTables m (m.touch slot writing) := by
  cases slot with
  | page table vpn =>
    refine ⟨rfl, fun t n => ?_, rfl, rfl⟩
    show (if t = table ∧ n = vpn then (m.pageTables t n).touch writing
      else m.pageTables t n).mapping = _
    split <;> rfl
  | tlb i =>
    refine ⟨?_, fun _ _ => rfl, rfl, rfl⟩
    show (m.tlb.map fun t j => if j = i then (t j).touch writing else t j).map _ = _
    rw [Option.map_map]
    congr 1
    funext t j
    show (if j = i then (t j).touch writing else t j).mapping = _
    split <;> rfl

/-- The dirty bits after a touch. -/
theorem Memory.touch_dirty (m : Memory) (slot slot' : Slot) (writing : Bool)
    (h : writing = false ∨ slot' ≠ slot) : (m.touch slot writing).dirty slot' = m.dirty slot' := by
  have hkeep : ∀ e : TranslationEntry, writing = false → (e.touch writing).dirty = e.dirty := by
    intro e hw
    show (e.dirty || writing) = e.dirty
    rw [hw, Bool.or_false]
  cases slot with
  | page table vpn =>
    cases slot' with
    | tlb i => rfl
    | page t n =>
      refine congrArg some ?_
      show (if t = table ∧ n = vpn then (m.pageTables t n).touch writing
        else m.pageTables t n).dirty = (m.pageTables t n).dirty
      split
      · rename_i hsame
        refine hkeep _ (h.resolve_right fun hne => hne ?_)
        rw [hsame.1, hsame.2]
      · rfl
  | tlb i =>
    cases slot' with
    | page t n => rfl
    | tlb j =>
      show ((m.tlb.map fun t j => if j = i then (t j).touch writing else t j).map (· j)).map
        (·.dirty) = (m.tlb.map (· j)).map (·.dirty)
      cases m.tlb with
      | none => rfl
      | some t =>
        refine congrArg some ?_
        show (if j = i then (t j).touch writing else t j).dirty = (t j).dirty
        split
        · rename_i hsame
          refine hkeep _ (h.resolve_right fun hne => hne ?_)
          rw [hsame]
        · rfl

/-! ## What is found -/

/-- `Translate` gets from `addr` to `pa` by the entry in `slot`, for an access of
`size` bytes. -/
structure Found (m : Memory) (addr : Word) (size : Nat) (writing : Bool) (slot : Slot) (pa : Nat) :
    Prop where
  lookup : m.lookup (addr.toNat / pageSize) = .ok slot
  maps : ∃ e, m.Active slot ∧ m.mapping slot = some e ∧ e.valid = true ∧
    (writing = true → e.readOnly = false) ∧ e.physicalPage.toNat < numPhysPages ∧
    pa = e.physicalPage.toNat * pageSize + addr.toNat % pageSize
  inPage : addr.toNat % pageSize + size ≤ pageSize

/-- The two places where the search finds an entry. -/
theorem Memory.lookup_cases {m : Memory} {vpn : Nat} {slot : Slot} (h : m.lookup vpn = .ok slot) :
    (∃ table, m.tlb = none ∧ m.currentPageTable = some table ∧ vpn < m.currentPageTableSize ∧
      (m.pageTables table vpn).valid = true ∧ slot = .page table vpn) ∨
    ∃ t i, m.tlb = some t ∧ (List.finRange tlbSize).find? (fun j =>
      decide ((t j).valid = true ∧ (t j).virtualPage.toNat = vpn)) = some i ∧ slot = .tlb i := by
  unfold Memory.lookup at h
  split at h
  · rename_i table htlb htable
    split at h
    · cases h
    · rename_i hsize
      split at h
      · rename_i hvalid
        cases h
        exact .inl ⟨table, htlb, htable, Nat.lt_of_not_le hsize, hvalid, rfl⟩
      · cases h
  · rename_i t htlb
    split at h
    · rename_i i hfind
      cases h
      exact .inr ⟨t, i, htlb, hfind, rfl⟩
    · cases h
  · cases h

theorem Memory.lookup_ok {m : Memory} {vpn : Nat} {slot : Slot} (h : m.lookup vpn = .ok slot) :
    m.Active slot ∧ ∃ e, m.entry slot = some e ∧ e.valid = true := by
  rcases Memory.lookup_cases h with
    ⟨table, htlb, htable, hsize, hvalid, rfl⟩ | ⟨t, i, htlb, hfind, rfl⟩
  · exact ⟨⟨htlb, htable, hsize⟩, _, rfl, hvalid⟩
  · have hmatch := List.find?_some hfind
    rw [decide_eq_true_iff] at hmatch
    refine ⟨?_, t i, ?_, hmatch.1⟩
    · show m.tlb.isSome = true
      rw [htlb]
      rfl
    · show m.tlb.map (· i) = _
      rw [htlb]
      rfl

/-- An aligned access stays in its page. -/
theorem aligned_inPage {addr : Word} {size : Nat} (hsize : size = 1 ∨ size = 2 ∨ size = 4)
    (h : ¬ ((size = 4 ∧ addr &&& 3 ≠ 0) ∨ (size = 2 ∧ addr &&& 1 ≠ 0))) :
    addr.toNat % pageSize + size ≤ pageSize := by
  have h3 : (addr &&& 3).toNat = addr.toNat % 4 := by
    rw [BitVec.toNat_and]
    exact Nat.and_two_pow_sub_one_eq_mod addr.toNat 2
  have h1 : (addr &&& 1).toNat = addr.toNat % 2 := by
    rw [BitVec.toNat_and]
    exact Nat.and_two_pow_sub_one_eq_mod addr.toNat 1
  rcases hsize with rfl | rfl | rfl
  · show addr.toNat % 128 + 1 ≤ 128
    omega
  · have hzero : addr &&& 1 = 0 := by
      by_contra hne
      exact h (.inr ⟨rfl, hne⟩)
    rw [hzero] at h1
    have : addr.toNat % 2 = 0 := h1.symm
    show addr.toNat % 128 + 2 ≤ 128
    omega
  · have hzero : addr &&& 3 = 0 := by
      by_contra hne
      exact h (.inl ⟨rfl, hne⟩)
    rw [hzero] at h3
    have : addr.toNat % 4 = 0 := h3.symm
    show addr.toNat % 128 + 4 ≤ 128
    omega

/-- The physical address and the bytes behind it are in memory, in one frame. -/
theorem Found.bytes {m : Memory} {addr : Word} {size : Nat} {writing : Bool} {slot : Slot}
    {pa : Nat} (h : Found m addr size writing slot pa) {a : Nat} (ha : pa ≤ a) (ha' : a < pa + size) :
    a < memorySize ∧ m.Maps (a / pageSize) writing := by
  obtain ⟨e, hactive, hmapping, hvalid, hwritable, hframe, hpa⟩ := h.maps
  have hpage := h.inPage
  have hdiv : a / pageSize = e.physicalPage.toNat := by
    have hpa' : pa = e.physicalPage.toNat * 128 + addr.toNat % 128 := hpa
    have hpage' : addr.toNat % 128 + size ≤ 128 := hpage
    show a / 128 = _
    omega
  refine ⟨?_, ?_⟩
  · have hframe' : e.physicalPage.toNat < 64 := hframe
    have hdiv' : a / 128 = e.physicalPage.toNat := hdiv
    show a < 64 * 128
    omega
  · rw [hdiv]
    exact ⟨hframe, slot, e, hactive, hmapping, hvalid, hwritable, rfl⟩

theorem assert_triple {σ : Type} {P : σ → Prop} {c : Prop} [Decidable c] {E : Stop → σ → Prop}
    (h : ∀ s, P s → ¬ c → E .assertion s) :
    Triple P (assert c) (fun _ s => P s ∧ c) E :=
  Triple.ite (fun hc => .pure fun _ hs => ⟨hs, hc⟩) fun hc => .throw fun s hs => h s hs hc

theorem translate_triple (m : Memory) (addr : Word) {size : Nat} (writing : Bool)
    (hsize : size = 1 ∨ size = 2 ∨ size = 4) :
    Triple (· = m) (translate addr size writing)
      (fun r s => match r with
        | .error _ => s = m
        | .ok pa => ∃ slot, Found m addr size writing slot pa ∧ s = m.touch slot writing)
      (fun e s => e = .assertion ∧ s = m ∧ ¬ m.OneTable) := by
  unfold translate
  refine Triple.ite (fun _ => .pure fun s hs => hs) fun haligned => ?_
  have hpage := aligned_inPage hsize haligned
  refine Triple.bind (Q := fun a s => a = m ∧ s = m) (.get fun s hs => ⟨hs, hs⟩) fun a => ?_
  refine Triple.given (fun s hs => hs.1) ?_
  rintro rfl
  have hassert : ∀ c : Prop, [Decidable c] → (a.OneTable → c) →
      Triple (fun s => s = a) (assert c) (fun _ s => s = a)
        (fun e s => e = .assertion ∧ s = a ∧ ¬ a.OneTable) :=
    fun c _ hc => (assert_triple fun s hs hno => ⟨rfl, hs, fun hone => hno (hc hone)⟩).post
      fun _ s hs => hs.1
  have hone := a.oneTable_iff
  refine Triple.bind ((hassert _ fun h => (hone.mp h).1).pre fun s hs => hs.2) fun _ => ?_
  refine Triple.bind (hassert _ fun h => (hone.mp h).2) fun _ => ?_
  dsimp only
  cases hlookup : a.lookup (addr.toNat / pageSize) with
  | error e => exact .pure fun s hs => hs
  | ok slot =>
    obtain ⟨hactive, e, hentry, hvalid⟩ := Memory.lookup_ok hlookup
    simp only [hentry]
    have hmapping : a.mapping slot = some e.mapping := by
      unfold Memory.mapping
      rw [hentry]
      rfl
    refine Triple.ite (fun _ => .pure fun s hs => hs) fun hwritable => ?_
    refine Triple.ite (fun _ => .pure fun s hs => hs) fun hframe => ?_
    have hfound : Found a addr size writing slot
        (e.physicalPage.toNat * pageSize + addr.toNat % pageSize) := by
      refine ⟨hlookup, ⟨e.mapping, hactive, hmapping, hvalid, fun hw => ?_, ?_, rfl⟩, hpage⟩
      · rw [hw, Bool.and_true] at hwritable
        exact Bool.eq_false_iff.mpr hwritable
      · exact Nat.lt_of_not_le hframe
    refine Triple.bind (Q := fun _ s => s = a.touch slot writing) (.set fun _ _ => rfl) fun _ => ?_
    refine Triple.bind ((assert_triple fun s _ hno => absurd ?_ hno).post fun _ s hs => hs.1)
      fun _ => .pure fun s hs => ⟨slot, hfound, hs⟩
    · have hframe' : e.physicalPage.toNat < 64 := Nat.lt_of_not_le hframe
      have hpage' : addr.toNat % 128 + size ≤ 128 := hpage
      show e.physicalPage.toNat * 128 + addr.toNat % 128 + size ≤ 64 * 128
      omega

end Machine
end Nachos
