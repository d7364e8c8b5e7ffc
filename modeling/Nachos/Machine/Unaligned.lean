import Nachos.Machine.Words

/-!
# Unaligned words

LWR and SWR work on the part of an unaligned word that lies in the aligned word
around its first byte, and LWL and SWL on the part around its last byte.
-/

namespace Nachos
namespace Machine

open Lib WordBytes

/-! ## Addresses -/

section Address

variable (a : Word)

theorem wordOf_add : wordOf a + (a &&& 3) = a := by
  have hdisjoint : wordOf a &&& (a &&& 3) = 0 := by
    rw [wordOf, BitVec.and_assoc, ← BitVec.and_assoc (~~~3) a 3, BitVec.and_comm (~~~3) a,
      BitVec.and_assoc a]
    simp
  rw [BitVec.add_eq_or_of_and_eq_zero _ _ hdisjoint, wordOf]
  apply BitVec.eq_of_getLsbD_eq
  intro i hi
  rw [BitVec.getLsbD_or, BitVec.getLsbD_and, BitVec.getLsbD_and, BitVec.getLsbD_not]
  cases a.getLsbD i <;> cases (3 : Word).getLsbD i <;> simp [hi]

theorem wordOf_toNat : (wordOf a).toNat = a.toNat - a.toNat % 4 := by
  have hle : (wordOf a).toNat ≤ a.toNat := by
    rw [wordOf, BitVec.toNat_and]
    exact Nat.and_le_left
  have hadd := congrArg BitVec.toNat (wordOf_add a)
  have hlt := a.isLt
  rw [BitVec.toNat_add, and_three] at hadd
  omega

/-- The aligned words around an unaligned one. -/
theorem wordOf_last : wordOf (a + 3) = if a.toNat % 4 = 0 then wordOf a else wordOf a + 4 := by
  have hlt := a.isLt
  have hword := wordOf_toNat a
  have hlast := wordOf_toNat (a + 3)
  have hadd : (a + 3).toNat = (a.toNat + 3) % 4294967296 := BitVec.toNat_add a 3
  have hnext : (wordOf a + 4).toNat = ((wordOf a).toNat + 4) % 4294967296 :=
    BitVec.toNat_add (wordOf a) 4
  split
  · apply BitVec.eq_of_toNat_eq
    omega
  · apply BitVec.eq_of_toNat_eq
    omega

theorem last_mod :
    (a + 3).toNat % 4 = if a.toNat % 4 = 0 then 3 else a.toNat % 4 - 1 := by
  have hadd : (a + 3).toNat = (a.toNat + 3) % 4294967296 := BitVec.toNat_add a 3
  by_cases hr : a.toNat % 4 = 0
  · rw [if_pos hr]
    omega
  · rw [if_neg hr]
    omega

theorem wordOf_aligned : (wordOf a).toNat % 4 = 0 := by
  have hword := wordOf_toNat a
  omega

/-- Byte `k` of an unaligned word, in the aligned word around the first byte. -/
theorem add_eq_wordOf (k : Nat) :
    a + BitVec.ofNat 32 k = wordOf a + BitVec.ofNat 32 (a.toNat % 4 + k) := by
  have hlt := a.isLt
  have hword := wordOf_toNat a
  apply BitVec.eq_of_toNat_eq
  rw [BitVec.toNat_add, BitVec.toNat_add, BitVec.toNat_ofNat, BitVec.toNat_ofNat]
  omega

/-- The same in the aligned word around the last byte. -/
theorem add_eq_wordOf_last {k : Nat} (hr : a.toNat % 4 ≠ 0) (hk : 4 ≤ a.toNat % 4 + k) :
    a + BitVec.ofNat 32 k = wordOf (a + 3) + BitVec.ofNat 32 (a.toNat % 4 + k - 4) := by
  have hlt := a.isLt
  have hword := wordOf_toNat a
  have hnext : (wordOf a + 4).toNat = ((wordOf a).toNat + 4) % 4294967296 :=
    BitVec.toNat_add (wordOf a) 4
  rw [wordOf_last, if_neg hr]
  apply BitVec.eq_of_toNat_eq
  rw [BitVec.toNat_add, BitVec.toNat_add, hnext, BitVec.toNat_ofNat, BitVec.toNat_ofNat]
  omega

end Address

/-! ## The bytes of an unaligned word -/

section Bytes

variable {m : Memory} {a : Word} {writing : Bool} {pa pa' : Nat}

/-- Where byte `k` is, if the words around the first and the last byte are at `pa`
and `pa'`. -/
def byteAddress (a : Word) (pa pa' k : Nat) : Nat :=
  if a.toNat % 4 + k < 4 then pa + (a.toNat % 4 + k) else pa' + (a.toNat % 4 + k - 4)

theorem locate_unaligned (h : m.Reaches (wordOf a) writing pa)
    (h' : m.Reaches (wordOf (a + 3)) writing pa') {k : Nat}
    (hk : k < 4 ∨ a.toNat % 4 ≠ 0 ∧ a.toNat % 4 + k < 8) :
    m.locate (a + BitVec.ofNat 32 k) = some (byteAddress a pa pa' k) := by
  rw [byteAddress]
  by_cases hfirst : a.toNat % 4 + k < 4
  · rw [if_pos hfirst, add_eq_wordOf, h.locate hfirst]
  · rw [if_neg hfirst, add_eq_wordOf_last a (by omega) (by omega), h'.locate (by omega)]

end Bytes

/-! ## Parts of words -/

section Parts

variable {addr old value new : Word} {k : Nat}

/-- The byte of a word that an address points at. -/
theorem alignment (addr : Word) :
    addr.toNat % 4 = 0 ∧ addr &&& 3 = 0 ∨ addr.toNat % 4 = 1 ∧ addr &&& 3 = 1 ∨
      addr.toNat % 4 = 2 ∧ addr &&& 3 = 2 ∨ addr.toNat % 4 = 3 ∧ addr &&& 3 = 3 := by
  have hcases : addr.toNat % 4 = 0 ∨ addr.toNat % 4 = 1 ∨ addr.toNat % 4 = 2 ∨
      addr.toNat % 4 = 3 := by omega
  rcases hcases with h | h | h | h
  · exact .inl ⟨h, (and_three_eq addr (by decide)).mpr h⟩
  · exact .inr (.inl ⟨h, (and_three_eq addr (by decide)).mpr h⟩)
  · exact .inr (.inr (.inl ⟨h, (and_three_eq addr (by decide)).mpr h⟩))
  · exact .inr (.inr (.inr ⟨h, (and_three_eq addr (by decide)).mpr h⟩))

/-- LWR puts the bytes from the address on at the bottom of the register. -/
theorem byte_mergeRight (hk : k < 4) : byte (mergeRight addr old value) k =
    if addr.toNat % 4 + k < 4 then byte value (addr.toNat % 4 + k) else byte old k := by
  rcases alignment addr with ⟨hr, ha⟩ | ⟨hr, ha⟩ | ⟨hr, ha⟩ | ⟨hr, ha⟩
  · rw [mergeRight, if_pos ha, hr, Nat.zero_add, if_pos hk]
  · rw [mergeRight, ha, hr, if_neg (by decide), if_pos (by decide)]
    refine (byte_keepHigh (n := 3) (by decide) (by decide) hk).trans ?_
    exact if_congr (by omega) rfl rfl
  · rw [mergeRight, ha, hr, if_neg (by decide), if_neg (by decide), if_pos (by decide)]
    refine (byte_keepHigh (n := 2) (by decide) (by decide) hk).trans ?_
    exact if_congr (by omega) rfl rfl
  · rw [mergeRight, ha, hr, if_neg (by decide), if_neg (by decide), if_neg (by decide)]
    refine (byte_keepHigh (n := 1) (by decide) (by decide) hk).trans ?_
    exact if_congr (by omega) rfl rfl

/-- How many low bytes of the register LWL keeps.  One and three are in each
other's place. -/
def leftKept (addr : Word) : Nat :=
  if addr.toNat % 4 = 0 then 1
  else if addr.toNat % 4 = 1 then 2
  else if addr.toNat % 4 = 2 then 3
  else 0

theorem byte_mergeLeft (hk : k < 4) : byte (mergeLeft addr old value) k =
    if k < leftKept addr then byte old k else byte value (k - leftKept addr) := by
  rcases alignment addr with ⟨hr, ha⟩ | ⟨hr, ha⟩ | ⟨hr, ha⟩ | ⟨hr, ha⟩
  · rw [mergeLeft, leftKept, ha, hr, if_pos rfl, if_pos rfl]
    exact byte_keepLow (n := 1) (by decide) hk
  · rw [mergeLeft, leftKept, ha, hr, if_neg (by decide), if_pos (by decide)]
    exact byte_keepLow (n := 2) (by decide) hk
  · rw [mergeLeft, leftKept, ha, hr, if_neg (by decide), if_neg (by decide), if_pos (by decide)]
    exact byte_keepLow (n := 3) (by decide) hk
  · rw [mergeLeft, leftKept, ha, hr, if_neg (by decide), if_neg (by decide), if_neg (by decide)]
    exact (if_neg (Nat.not_lt_zero k)).symm

/-- SWR puts the low bytes of the register at the address and behind it. -/
theorem byte_splitRight (hk : k < 4) : byte (splitRight addr value new) k =
    if k < addr.toNat % 4 then byte value k else byte new (k - addr.toNat % 4) := by
  rcases alignment addr with ⟨hr, ha⟩ | ⟨hr, ha⟩ | ⟨hr, ha⟩ | ⟨hr, ha⟩
  · rw [splitRight, ha, hr, if_pos rfl]
    exact (if_neg (Nat.not_lt_zero k)).symm
  · rw [splitRight, ha, hr, if_neg (by decide), if_pos (by decide)]
    exact byte_keepLow (n := 1) (by decide) hk
  · rw [splitRight, ha, hr, if_neg (by decide), if_neg (by decide), if_pos (by decide)]
    exact byte_keepLow (n := 2) (by decide) hk
  · rw [splitRight, ha, hr, if_neg (by decide), if_neg (by decide), if_neg (by decide)]
    exact byte_keepLow (n := 3) (by decide) hk

/-- SWL puts the high bytes of the register at the address and before it. -/
theorem byte_splitLeft (hk : k < 4) : byte (splitLeft addr value new) k =
    if k ≤ addr.toNat % 4 then byte new (3 - addr.toNat % 4 + k) else byte value k := by
  rcases alignment addr with ⟨hr, ha⟩ | ⟨hr, ha⟩ | ⟨hr, ha⟩ | ⟨hr, ha⟩
  · rw [splitLeft, ha, hr, if_pos rfl]
    exact (byte_keepHigh (n := 1) (by decide) (by decide) hk).trans (if_congr (by omega) rfl rfl)
  · rw [splitLeft, ha, hr, if_neg (by decide), if_pos (by decide)]
    exact (byte_keepHigh (n := 2) (by decide) (by decide) hk).trans (if_congr (by omega) rfl rfl)
  · rw [splitLeft, ha, hr, if_neg (by decide), if_neg (by decide), if_pos (by decide)]
    exact (byte_keepHigh (n := 3) (by decide) (by decide) hk).trans (if_congr (by omega) rfl rfl)
  · rw [splitLeft, ha, hr, if_neg (by decide), if_neg (by decide), if_neg (by decide),
      if_pos (by omega), Nat.sub_self, Nat.zero_add]

end Parts

/-! ## Instructions and registers -/

section Registers

variable {m : Machine} {i : Instruction} {r : Registers} {g : GPReg}

/-- The instructions for the right and for the left part of the word at `a`, in the
order in which they are executed.  The second one takes its address when a pending
load has been done. -/
structure Pair (right left : OpCode) (r : Registers) (rt : GPReg) (a : Word) (rightFirst : Bool)
    (i j : Instruction) : Prop where
  opCodes : (i.opCode, j.opCode) = if rightFirst then (right, left) else (left, right)
  addresses : (r (gp i.rs) + i.extra, loaded r 0 0 (gp j.rs) + j.extra) =
    if rightFirst then (a, a + 3) else (a + 3, a)
  registers : i.rt = rt ∧ j.rt = rt

theorem oneInstruction_of_fetched (hi : fetched m = some i) : ∃ mem, Used m.memory mem ∧
    oneInstruction m = (execute i >>= retire) { m with memory := mem } := by
  obtain ⟨raw, m₁, hread, rfl⟩ := readMem_of_fetched hi
  have hruns : Runs m (m.registers pcReg) False (readMem (m.registers pcReg) 4)
      (fun _ s => Quiet m s) := readMem_triple _ (.inr (.inr rfl))
  have hquiet := hruns.ok ⟨rfl, .refl _⟩ hread
  obtain ⟨regs, mem⟩ := m₁
  obtain rfl : regs = m.registers := hquiet.registers
  refine ⟨mem, hquiet.memory, ?_⟩
  unfold oneInstruction
  rw [bind_run (show reg pcReg m = .ok (m.registers pcReg) m from rfl), bind_run hread]

/-- An instruction whose `switch` is known for every memory that the fetch may leave. -/
theorem oneInstruction_run {n : Next} {P : Memory → Prop} (hi : fetched m = some i)
    (hload : (m.registers loadReg).toNat < numTotalRegs)
    (h : ∀ mem, Used m.memory mem → ∃ mem', P mem' ∧
      execute i { m with memory := mem } = .ok n { m with memory := mem' }) :
    ∃ mem', P mem' ∧ oneInstruction m =
      .ok () { m with registers := retired m.registers n, memory := mem' } := by
  obtain ⟨mem, hused, hrun⟩ := oneInstruction_of_fetched hi
  obtain ⟨mem', hP, hexecute⟩ := h mem hused
  refine ⟨mem', hP, ?_⟩
  rw [hrun, bind_run hexecute]
  exact retire_run (m := { m with memory := mem' }) hload n

theorem retired_gp (n : Next) :
    retired r n (gp g) = loaded r n.nextLoadReg n.nextLoadValue (gp g) := by
  have hne : ∀ j : Reg, 32 ≤ j.val → gp g ≠ j := fun j hj => (gp_ne_special hj).symm
  show (if gp g = nextPCReg then _ else if gp g = pcReg then _ else if gp g = prevPCReg then _
    else _) = _
  rw [if_neg (hne _ (by decide)), if_neg (hne _ (by decide)), if_neg (hne _ (by decide))]

/-- No load is on its way to the register.  Register 0 takes none, but it may have to be
set to 0. -/
structure Settled (r : Registers) (g : GPReg) : Prop where
  zero : g = 0 → r 0 = 0
  load : g ≠ 0 → r loadReg ≠ regNo g

theorem loaded_settled (h : Settled r g) (a b : Word) : loaded r a b (gp g) = r (gp g) := by
  rcases Decidable.em (g = 0) with rfl | hg
  · exact (h.zero rfl).symm
  · refine loaded_of_ne a b (gp_ne_zero hg) (gp_ne_special (by decide)).symm
      (gp_ne_special (by decide)).symm fun hval => h.load hg ?_
    apply BitVec.eq_of_toNat_eq
    rw [regNo_toNat, ← hval, gp_val]

/-- The general registers after a delayed load do not depend on the next one. -/
theorem loaded_general (a b : Word) : loaded r a b (gp g) = loaded r 0 0 (gp g) := by
  have hl : gp g ≠ loadReg := (gp_ne_special (by decide)).symm
  have hv : gp g ≠ loadValueReg := (gp_ne_special (by decide)).symm
  unfold loaded
  rw [if_neg hv, if_neg hl, if_neg hv, if_neg hl]

/-- Both with the same base register, and no load on its way to it. -/
theorem pair_of_base {right left : OpCode} {base rt : GPReg} {offset : Word} {rightFirst : Bool}
    {j : Instruction}
    (hops : (i.opCode, j.opCode) = if rightFirst then (right, left) else (left, right))
    (hoffsets : (i.extra, j.extra) =
      if rightFirst then (offset, offset + 3) else (offset + 3, offset))
    (hbases : i.rs = base ∧ j.rs = base) (hregisters : i.rt = rt ∧ j.rt = rt)
    (hbase : Settled r base) :
    Pair right left r rt (r (gp base) + offset) rightFirst i j := by
  refine ⟨hops, ?_, hregisters⟩
  rw [hbases.1, hbases.2, loaded_settled hbase]
  cases rightFirst with
  | true =>
    obtain ⟨h, h'⟩ := Prod.mk.inj hoffsets
    rw [h, h', if_pos rfl, BitVec.add_assoc]
  | false =>
    obtain ⟨h, h'⟩ := Prod.mk.inj hoffsets
    rw [h, h', if_neg (by decide), BitVec.add_assoc]

end Registers

/-! ## Two instructions -/

/-- A machine about to execute the two instructions, with the address in `r1`.  The
byte at any address behind them is the address, modulo 256. -/
def twoInstructions (first second address : Word) : Machine where
  registers := fun j =>
    if j = nextPCReg then 4 else if j = 1 then address else if j = 2 then 0x44332211 else 0
  memory :=
    { mainMemory := fun a =>
        if a.val < 4 then byteOf first a.val
        else if a.val < 8 then byteOf second (a.val - 4)
        else UInt8.ofNat a.val
      tlb := none
      pageTables := fun _ vpn =>
        ⟨BitVec.ofNat 32 vpn, BitVec.ofNat 32 vpn, true, false, false, false⟩
      currentPageTable := some 0
      currentPageTableSize := 2 }

/-- The instruction that is fetched when the next one has returned. -/
def fetchedAfter (m : Machine) : Option Instruction :=
  match oneInstruction m with
  | .ok _ m' => fetched m'
  | .error _ _ => none

theorem fetched_after {m m₁ : Machine} {j : Instruction} (h : fetchedAfter m = some j)
    (hrun : oneInstruction m = .ok () m₁) : fetched m₁ = some j := by
  unfold fetchedAfter at h
  rw [hrun] at h
  exact h

end Machine
end Nachos
