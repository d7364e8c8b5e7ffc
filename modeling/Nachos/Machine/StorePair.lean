import Nachos.Machine.Unaligned

/-!
# SWR and SWL

The pair stores an unaligned word.  Each of the two reads an aligned word and writes
it back with some bytes replaced; no byte but the four of the unaligned word changes,
in whatever frames they are.
-/

namespace Nachos
namespace Machine

open Lib WordBytes

/-! ## Page tables -/

section Tables

variable {m : Memory} {table : TableId} {addr addr' : Word}

/-- The page table is in use, and sends distinct pages to distinct frames. -/
structure Memory.Distinct (m : Memory) (table : TableId) : Prop where
  noTLB : m.tlb = none
  current : m.currentPageTable = some table
  frames : ∀ v v', v < m.currentPageTableSize → v' < m.currentPageTableSize →
    (m.pageTables table v).valid = true → (m.pageTables table v').valid = true →
    (m.pageTables table v).physicalPage = (m.pageTables table v').physicalPage → v = v'

/-- The page is mapped writable. -/
structure Memory.Writable (m : Memory) (table : TableId) (vpn : Nat) : Prop where
  inTable : vpn < m.currentPageTableSize
  valid : (m.pageTables table vpn).valid = true
  writable : (m.pageTables table vpn).readOnly = false
  inMemory : (m.pageTables table vpn).physicalPage.toNat < numPhysPages

/-- Where the page table sends an address. -/
def Memory.frameAddress (m : Memory) (table : TableId) (addr : Word) : Nat :=
  (m.pageTables table (addr.toNat / pageSize)).physicalPage.toNat * pageSize +
    addr.toNat % pageSize

theorem reaches_of_writable (hd : m.Distinct table)
    (hw : m.Writable table (addr.toNat / pageSize)) (haligned : addr.toNat % 4 = 0) :
    m.Reaches addr true (m.frameAddress table addr) := by
  have hone : m.OneTable := by
    unfold Memory.OneTable
    rw [hd.noTLB, hd.current]
    rfl
  have hlookup : m.lookup (addr.toNat / pageSize) = .ok (.page table (addr.toNat / pageSize)) := by
    unfold Memory.lookup
    rw [hd.noTLB, hd.current]
    dsimp only
    rw [if_neg (Nat.not_le.mpr hw.inTable), if_pos hw.valid]
  have hpage : addr.toNat % pageSize + 4 ≤ pageSize := by
    show addr.toNat % 128 + 4 ≤ 128
    omega
  exact ⟨haligned, hone, .page table (addr.toNat / pageSize), hlookup, ⟨_,
    ⟨hd.noTLB, hd.current, hw.inTable⟩, rfl, hw.valid, fun _ => hw.writable, hw.inMemory, rfl⟩,
    hpage⟩

theorem frameAddress_inj (hd : m.Distinct table) (hw : m.Writable table (addr.toNat / pageSize))
    (hw' : m.Writable table (addr'.toNat / pageSize))
    (h : m.frameAddress table addr = m.frameAddress table addr') : addr = addr' := by
  have hoffset : ∀ x y p q : Nat, p * 128 + x % 128 = q * 128 + y % 128 →
      p = q ∧ x % 128 = y % 128 := by
    intro x y p q h
    omega
  obtain ⟨hframe, hmod⟩ := hoffset _ _ _ _ h
  have hdiv := hd.frames _ _ hw.inTable hw'.inTable hw.valid hw'.valid
    (BitVec.eq_of_toNat_eq hframe)
  have hdiv' : addr.toNat / 128 = addr'.toNat / 128 := hdiv
  apply BitVec.eq_of_toNat_eq
  omega

theorem frameAddress_aligned (m : Memory) (table : TableId) (haligned : addr.toNat % 4 = 0) :
    m.frameAddress table addr % 4 = 0 := by
  show ((m.pageTables table (addr.toNat / 128)).physicalPage.toNat * 128 + addr.toNat % 128) % 4 = 0
  omega

theorem wordOf_ne {a : Word} (hr : a.toNat % 4 ≠ 0) : wordOf a ≠ wordOf (a + 3) := by
  intro h
  have hnext : (wordOf a + 4).toNat = ((wordOf a).toNat + 4) % 4294967296 :=
    BitVec.toNat_add (wordOf a) 4
  rw [wordOf_last, if_neg hr] at h
  have hlt := (wordOf a).isLt
  rw [← h] at hnext
  omega

theorem wordOf_page (a : Word) : (wordOf a).toNat / pageSize = a.toNat / pageSize := by
  have hword := wordOf_toNat a
  show (wordOf a).toNat / 128 = a.toNat / 128
  omega

end Tables

/-! ## The bytes of one store -/

section Bytes

variable {m m₁ m₂ mem : Memory} {a v : Word} {pa pa' : Nat} {P Q : Nat → Prop}

/-- The bytes of the word at `a` that satisfy `P` are those of `v`, and nothing else
is new. -/
structure Patched (m m' : Memory) (address : Nat → Nat) (P : Nat → Prop) (v : Word) : Prop where
  inside : ∀ k, k < 4 → P k → m'.physical (address k) = byteOf v k
  outside : ∀ p, (∀ k, k < 4 → P k → address k ≠ p) → m'.physical p = m.physical p

/-- Two stores of the same word, each of a part of it. -/
theorem Patched.trans {address : Nat → Nat} (h : Patched m m₁ address P v)
    (h' : Patched m₁ m₂ address Q v)
    (hinj : ∀ k l, k < 4 → l < 4 → address k = address l → k = l) :
    Patched m m₂ address (fun k => P k ∨ Q k) v := by
  refine ⟨fun k hk hPQ => ?_, fun p hp => ?_⟩
  · by_cases hQ : Q k
    · exact h'.inside k hk hQ
    · have hkept : m₂.physical (address k) = m₁.physical (address k) :=
        h'.outside _ fun l hl hQl heq => hQ (hinj l k hl hk heq ▸ hQl)
      rw [hkept]
      exact h.inside k hk (hPQ.resolve_right hQ)
  · rw [h'.outside p fun k hk hQ => hp k hk (.inr hQ),
      h.outside p fun k hk hP => hp k hk (.inl hP)]

theorem byteOf_eq {w w' : Word} {k l : Nat} (h : byte w k = byte w' l) : byteOf w k = byteOf w' l :=
  congrArg UInt8.ofBitVec h

theorem byteOf_wordAt (m : Memory) (pa : Nat) {k : Nat} (hk : k < 4) :
    byteOf (m.wordAt pa) k = m.physical (pa + k) :=
  UInt8.toBitVec_inj.mp (byte_ofBytes _ hk)

theorem physical_val (m : Memory) (p : Fin memorySize) : m.physical p.val = m.mainMemory p :=
  dif_pos p.isLt

/-- What a store of the word at `pa` does. -/
abbrev Replaced (m mem : Memory) (pa : Nat) (w : Word) : Prop :=
  ∀ p, mem.physical p = if pa ≤ p ∧ p < pa + 4 then byteOf w (p - pa) else m.physical p

/-- SWR stores the bytes of the word at `a` that are in the aligned word around it. -/
theorem patched_right (h : Replaced m mem pa (splitRight a (m.wordAt pa) v)) :
    Patched m mem (byteAddress a pa pa') (fun k => a.toNat % 4 + k < 4) v := by
  have hbyte : ∀ k, k < 4 → byteOf (splitRight a (m.wordAt pa) v) k =
      if k < a.toNat % 4 then m.physical (pa + k) else byteOf v (k - a.toNat % 4) := by
    intro k hk
    by_cases hlow : k < a.toNat % 4
    · rw [if_pos hlow, ← byteOf_wordAt m pa hk]
      exact byteOf_eq ((byte_splitRight hk).trans (if_pos hlow))
    · rw [if_neg hlow]
      exact byteOf_eq ((byte_splitRight hk).trans (if_neg hlow))
  refine ⟨fun k hk hP => ?_, fun p hp => ?_⟩
  · have hin : pa ≤ pa + (a.toNat % 4 + k) ∧ pa + (a.toNat % 4 + k) < pa + 4 := by omega
    rw [byteAddress, if_pos hP, h, if_pos hin, Nat.add_sub_cancel_left, hbyte _ hP,
      if_neg (by omega), Nat.add_sub_cancel_left]
  · rw [h]
    by_cases hin : pa ≤ p ∧ p < pa + 4
    · have hlow : p - pa < a.toNat % 4 := by
        by_contra hge
        refine hp (p - pa - a.toNat % 4) (by omega) (by omega) ?_
        rw [byteAddress, if_pos (by omega)]
        omega
      rw [if_pos hin, hbyte _ (by omega), if_pos hlow, Nat.add_sub_cancel' hin.1]
    · rw [if_neg hin]

/-- The last byte of the word at `a` and those before it, in the aligned word around
it. -/
theorem byteAddress_left (hsame : a.toNat % 4 = 0 → pa = pa') {l : Nat}
    (hl : l ≤ (a + 3).toNat % 4) :
    byteAddress a pa pa' (3 - (a + 3).toNat % 4 + l) = pa' + l := by
  rw [last_mod] at hl ⊢
  by_cases hr : a.toNat % 4 = 0
  · rw [if_pos hr] at hl ⊢
    rw [byteAddress, hr, if_pos (by omega), hsame hr]
    omega
  · rw [if_neg hr] at hl ⊢
    rw [byteAddress, if_neg (by omega)]
    omega

/-- SWL stores those that are in the aligned word around the last one. -/
theorem patched_left (h : Replaced m mem pa' (splitLeft (a + 3) (m.wordAt pa') v))
    (hsame : a.toNat % 4 = 0 → pa = pa') :
    Patched m mem (byteAddress a pa pa') (fun k => a.toNat % 4 = 0 ∨ 4 ≤ a.toNat % 4 + k) v := by
  have hbyte : ∀ k, k < 4 → byteOf (splitLeft (a + 3) (m.wordAt pa') v) k =
      if k ≤ (a + 3).toNat % 4 then byteOf v (3 - (a + 3).toNat % 4 + k)
      else m.physical (pa' + k) := by
    intro k hk
    by_cases hhigh : k ≤ (a + 3).toNat % 4
    · rw [if_pos hhigh]
      exact byteOf_eq ((byte_splitLeft hk).trans (if_pos hhigh))
    · rw [if_neg hhigh, ← byteOf_wordAt m pa' hk]
      exact byteOf_eq ((byte_splitLeft hk).trans (if_neg hhigh))
  have hlast := last_mod a
  refine ⟨fun k hk hP => ?_, fun p hp => ?_⟩
  · -- Byte `k` is this byte of the aligned word.
    obtain ⟨l, hl, rfl⟩ : ∃ l, l ≤ (a + 3).toNat % 4 ∧ k = 3 - (a + 3).toNat % 4 + l := by
      refine ⟨k + (a + 3).toNat % 4 - 3, ?_, ?_⟩ <;> split at hlast <;> omega
    have hin : pa' ≤ pa' + l ∧ pa' + l < pa' + 4 := by omega
    rw [byteAddress_left hsame hl, h, if_pos hin, Nat.add_sub_cancel_left, hbyte _ (by omega),
      if_pos hl]
  · rw [h]
    by_cases hin : pa' ≤ p ∧ p < pa' + 4
    · have hlow : ¬ p - pa' ≤ (a + 3).toNat % 4 := by
        intro hle
        refine hp (3 - (a + 3).toNat % 4 + (p - pa')) (by omega) ?_ ?_
        · split at hlast <;> omega
        · rw [byteAddress_left hsame hle, Nat.add_sub_cancel' hin.1]
      rw [if_pos hin, hbyte _ (by omega), if_neg hlow, Nat.add_sub_cancel' hin.1]
    · rw [if_neg hin]

/-- The four bytes of the word are at distinct places. -/
theorem byteAddress_inj (hpa : pa % 4 = 0) (hpa' : pa' % 4 = 0)
    (hne : a.toNat % 4 ≠ 0 → pa ≠ pa') {k l : Nat} (hk : k < 4) (hl : l < 4)
    (h : byteAddress a pa pa' k = byteAddress a pa pa' l) : k = l := by
  unfold byteAddress at h
  by_cases hr : a.toNat % 4 = 0
  · rw [if_pos (by omega), if_pos (by omega)] at h
    omega
  · have hdiff := hne hr
    split at h <;> split at h <;> omega

end Bytes

/-! ## One of the two -/

section One

variable {m : Machine} {i : Instruction} {a addr : Word} {pa pa' : Nat} {P : Nat → Prop}
  {split : Word → Word → Word → Word}

/-- The instruction stores a part of a word, and replaces the bytes in this way. -/
def Splits (i : Instruction) (split : Word → Word → Word → Word) : Prop :=
  i.opCode = .swr ∧ split = splitRight ∨ i.opCode = .swl ∧ split = splitLeft

theorem execute_splits (hsplit : Splits i split) (haddr : m.registers (gp i.rs) + i.extra = addr)
    (h : m.memory.Reaches (wordOf addr) true pa) :
    ∃ mem, SameTables m.memory mem ∧
      Replaced m.memory mem pa (split addr (m.memory.wordAt pa) (m.registers (gp i.rt))) ∧
      execute i m = .ok { pcAfter := m.registers nextPCReg + 4 } { m with memory := mem } := by
  subst haddr
  obtain ⟨mem, hused, hread⟩ := readMem_run h.reading
  obtain ⟨mem', htables, hbytes, hwrite⟩ := writeMem_run (m := { m with memory := mem })
    (h.same hused.toSameTables) (split (m.registers (gp i.rs) + i.extra) (m.memory.wordAt pa)
      (m.registers (gp i.rt)))
  refine ⟨mem', hused.toSameTables.trans htables, fun p => ?_, ?_⟩
  · rw [hbytes, physical_congr hused.mainMemory]
  · have hstore : execute i m =
        straight (m.registers nextPCReg + 4) (storeUnaligned i split) m := by
      unfold execute
      rw [bind_run (show reg nextPCReg m = .ok (m.registers nextPCReg) m from rfl)]
      rcases hsplit with ⟨hop, rfl⟩ | ⟨hop, rfl⟩ <;> rw [hop]
    have hdone : storeUnaligned i split m = .ok () { m with memory := mem' } := by
      unfold storeUnaligned
      rw [bind_run (show effective i m = .ok (m.registers (gp i.rs) + i.extra) m from rfl),
        bind_run hread]
      exact hwrite
    rw [hstore]
    unfold straight
    rw [bind_run hdone]
    rfl

theorem oneInstruction_splits (hsplit : Splits i split) (hi : fetched m = some i)
    (hload : (m.registers loadReg).toNat < numTotalRegs)
    (haddr : m.registers (gp i.rs) + i.extra = addr)
    (h : m.memory.Reaches (wordOf addr) true pa) :
    ∃ mem, (SameTables m.memory mem ∧
      Replaced m.memory mem pa (split addr (m.memory.wordAt pa) (m.registers (gp i.rt)))) ∧
      oneInstruction m = .ok () { m with
        registers := retired m.registers { pcAfter := m.registers nextPCReg + 4 }
        memory := mem } := by
  refine oneInstruction_run hi hload fun mem hused => ?_
  obtain ⟨mem', htables, hbytes, hexecute⟩ := execute_splits (m := { m with memory := mem })
    hsplit haddr (h.same hused.toSameTables)
  refine ⟨mem', ⟨hused.toSameTables.trans htables, fun p => ?_⟩, hexecute⟩
  rw [hbytes, physical_congr hused.mainMemory, wordAt_congr hused.mainMemory]

/-- Which bytes of the word at `a` the instruction stores, and the address it does
that with. -/
def StoresPart (i : Instruction) (a addr : Word) (P : Nat → Prop) : Prop :=
  i.opCode = .swr ∧ addr = a ∧ P = (fun k => a.toNat % 4 + k < 4) ∨
    i.opCode = .swl ∧ addr = a + 3 ∧ P = fun k => a.toNat % 4 = 0 ∨ 4 ≤ a.toNat % 4 + k

theorem oneInstruction_part (hpart : StoresPart i a addr P) (hi : fetched m = some i)
    (hload : (m.registers loadReg).toNat < numTotalRegs)
    (haddr : m.registers (gp i.rs) + i.extra = addr)
    (h : m.memory.Reaches (wordOf a) true pa) (h' : m.memory.Reaches (wordOf (a + 3)) true pa') :
    ∃ mem, SameTables m.memory mem ∧
      Patched m.memory mem (byteAddress a pa pa') P (m.registers (gp i.rt)) ∧
      oneInstruction m = .ok () { m with
        registers := retired m.registers { pcAfter := m.registers nextPCReg + 4 }
        memory := mem } := by
  rcases hpart with ⟨hop, rfl, rfl⟩ | ⟨hop, rfl, rfl⟩
  · obtain ⟨mem, ⟨htables, hbytes⟩, hrun⟩ :=
      oneInstruction_splits (.inl ⟨hop, rfl⟩) hi hload haddr h
    exact ⟨mem, htables, patched_right hbytes, hrun⟩
  · obtain ⟨mem, ⟨htables, hbytes⟩, hrun⟩ :=
      oneInstruction_splits (.inr ⟨hop, rfl⟩) hi hload haddr h'
    refine ⟨mem, htables, patched_left hbytes fun hr => ?_, hrun⟩
    rw [wordOf_last, if_pos hr] at h'
    exact h.unique h'

end One

/-! ## The pair -/

/-- The two instructions. -/
def storePair : Sim Unit := do
  oneInstruction
  oneInstruction

section Pair

variable {m : Machine} {rt : GPReg} {a : Word} {i j : Instruction} {rightFirst : Bool}
  {table : TableId}

theorem Pair.parts {r : Registers} (hpair : Pair .swr .swl r rt a rightFirst i j) :
    ∃ P Q, StoresPart i a (r (gp i.rs) + i.extra) P ∧
      StoresPart j a (loaded r 0 0 (gp j.rs) + j.extra) Q ∧ ∀ k, k < 4 → P k ∨ Q k := by
  obtain ⟨hops, haddresses, -⟩ := hpair
  cases rightFirst with
  | true =>
    obtain ⟨hi, hj⟩ := Prod.mk.inj hops
    obtain ⟨ha, ha'⟩ := Prod.mk.inj haddresses
    exact ⟨_, _, .inl ⟨hi, ha, rfl⟩, .inr ⟨hj, ha', rfl⟩, fun k hk => by omega⟩
  | false =>
    obtain ⟨hi, hj⟩ := Prod.mk.inj hops
    obtain ⟨ha, ha'⟩ := Prod.mk.inj haddresses
    exact ⟨_, _, .inr ⟨hi, ha, rfl⟩, .inl ⟨hj, ha', rfl⟩, fun k hk => by omega⟩

/-- **Unaligned stores.**  The pair stores the register at the address, whatever its
alignment and also over the end of a page, and changes nothing else but for a load
that was pending. -/
theorem unaligned_store (hpair : Pair .swr .swl m.registers rt a rightFirst i j)
    (hrt : Settled m.registers rt) (hload : (m.registers loadReg).toNat < numTotalRegs)
    (hd : m.memory.Distinct table) (hfirst : m.memory.Writable table (a.toNat / pageSize))
    (hlast : m.memory.Writable table ((a + 3).toNat / pageSize)) (hi : fetched m = some i)
    (hj : ∀ m₁, oneInstruction m = .ok () m₁ → fetched m₁ = some j) :
    ∃ m', storePair m = .ok () m' ∧
      (∀ k, k < 4 →
        m'.memory.byte (a + BitVec.ofNat 32 k) = some (byteOf (m.registers (gp rt)) k)) ∧
      (∀ p : Fin memorySize, (∀ k, k < 4 → m.memory.locate (a + BitVec.ofNat 32 k) ≠ some p.val) →
        m'.memory.mainMemory p = m.memory.mainMemory p) ∧
      ∀ g, m'.registers (gp g) = loaded m.registers 0 0 (gp g) := by
  obtain ⟨P, Q, hP, hQ, hcover⟩ := hpair.parts
  obtain ⟨hrt₁, hrt₂⟩ := hpair.registers
  have hword : m.memory.Writable table ((wordOf a).toNat / pageSize) := by
    rw [wordOf_page]
    exact hfirst
  have hword' : m.memory.Writable table ((wordOf (a + 3)).toNat / pageSize) := by
    rw [wordOf_page]
    exact hlast
  have h := reaches_of_writable hd hword (wordOf_aligned a)
  have h' := reaches_of_writable hd hword' (wordOf_aligned (a + 3))
  have hinj := fun k l => byteAddress_inj (a := a) (k := k) (l := l)
    (frameAddress_aligned m.memory table (wordOf_aligned a))
    (frameAddress_aligned m.memory table (wordOf_aligned (a + 3)))
    fun hr heq => wordOf_ne hr (frameAddress_inj hd hword hword' heq)
  generalize m.memory.frameAddress table (wordOf a) = pa at h hinj
  generalize m.memory.frameAddress table (wordOf (a + 3)) = pa' at h' hinj
  -- The first store.
  obtain ⟨mem, htables, hpatched, hrun⟩ := oneInstruction_part hP hi hload rfl h h'
  generalize hn : ({ pcAfter := m.registers nextPCReg + 4 } : Next) = n at hrun
  generalize hm₁ : ({ m with registers := retired m.registers n, memory := mem } : Machine) = m₁
    at hrun
  have hmem₁ : m₁.memory = mem := by rw [← hm₁]
  have hgeneral : ∀ g, m₁.registers (gp g) = loaded m.registers 0 0 (gp g) := by
    intro g
    rw [← hm₁, ← hn]
    exact retired_gp _
  have hload₁ : m₁.registers loadReg = 0 := by
    rw [← hm₁, ← hn]
    rfl
  have hvalue : m₁.registers (gp j.rt) = m.registers (gp i.rt) := by
    rw [hgeneral, hrt₁, hrt₂]
    exact loaded_settled hrt 0 0
  -- The second one.
  obtain ⟨mem', htables', hpatched', hrun'⟩ := oneInstruction_part hQ (hj m₁ hrun)
    (by rw [hload₁]; decide) (by rw [hgeneral]) (by rw [hmem₁]; exact h.same htables)
    (by rw [hmem₁]; exact h'.same htables)
  rw [hvalue, hmem₁] at hpatched'
  rw [hmem₁] at htables'
  have hboth := hpatched.trans hpatched' hinj
  refine ⟨_, (bind_run hrun).trans hrun', fun k hk => ?_, fun p hp => ?_, fun g => ?_⟩
  · have hall := htables.trans htables'
    rw [Memory.byte, locate_unaligned (h.same hall) (h'.same hall) (.inl hk), Option.map_some,
      hboth.inside k hk (hcover k hk), hrt₁]
  · have hphysical := hboth.outside p.val fun k hk _ heq => hp k hk (by
      rw [locate_unaligned h h' (.inl hk), heq])
    rw [physical_val, physical_val] at hphysical
    exact hphysical
  · have hsettled : Settled m₁.registers g := by
      refine ⟨fun _ => (hgeneral 0).trans (loaded_zero _ 0 0), fun hg => ?_⟩
      rw [hload₁]
      exact (regNo_ne_zero hg).symm
    refine (retired_gp _).trans ?_
    rw [← hgeneral]
    exact loaded_settled hsettled 0 0

end Pair

/-- `SWR r2, 0(r1)` and `SWL r2, 3(r1)`, over the end of the first page. -/
theorem unaligned_store_two_pages :
    ∃ m', storePair (twoInstructions 0xb8220000 0xa8220003 126) = .ok () m' ∧
      (∀ k, k < 4 → m'.memory.byte (126 + BitVec.ofNat 32 k) = some (byteOf 0x44332211 k)) ∧
      (∀ p : Fin memorySize, (∀ k, k < 4 →
          (twoInstructions 0xb8220000 0xa8220003 126).memory.locate (126 + BitVec.ofNat 32 k) ≠
            some p.val) →
        m'.memory.mainMemory p =
          (twoInstructions 0xb8220000 0xa8220003 126).memory.mainMemory p) ∧
      ∀ g, m'.registers (gp g) =
        loaded (twoInstructions 0xb8220000 0xa8220003 126).registers 0 0 (gp g) := by
  have hpair : Pair .swr .swl (twoInstructions 0xb8220000 0xa8220003 126).registers 2 (126 + 0) true
      (decode 0xb8220000) (decode 0xa8220003) :=
    pair_of_base (by decide) (by decide) (show _ = (1 : GPReg) ∧ _ = (1 : GPReg) by decide)
      (by decide) ⟨fun _ => rfl, fun _ => show (0 : Word) ≠ regNo 1 by decide⟩
  have hsecond : fetchedAfter (twoInstructions 0xb8220000 0xa8220003 126) =
      some (decode 0xa8220003) := by decide +kernel
  have hdistinct : (twoInstructions 0xb8220000 0xa8220003 126).memory.Distinct 0 := by
    refine ⟨rfl, rfl, fun v v' hv hv' _ _ h => ?_⟩
    have hpage := congrArg BitVec.toNat h
    have hv₂ : v < 2 := hv
    have hv₂' : v' < 2 := hv'
    have hframe : v % 4294967296 = v' % 4294967296 := hpage
    omega
  exact unaligned_store hpair ⟨fun _ => rfl, fun _ => by decide⟩ (by decide) hdistinct
    ⟨by decide, rfl, rfl, by decide⟩ ⟨by decide, rfl, rfl, by decide⟩ (by decide +kernel)
    fun _ hrun => fetched_after hsecond hrun

end Machine
end Nachos
