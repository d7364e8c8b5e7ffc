import Nachos.Machine.Unaligned

/-!
# LWR and LWL

The pair is meant to load an unaligned word.  The two alignments at which LWL takes
one byte and three bytes of memory are in each other's place, so of the odd
addresses the pair serves none but those where the bytes agree by chance.
-/

namespace Nachos
namespace Machine

open Lib WordBytes

/-! ## One of the two -/

section One

variable {m : Machine} {i j : Instruction} {merge : Word → Word → Word → Word} {pa pa' : Nat}

/-- The instruction loads a part of a word, and merges it in this way. -/
def Merges (i : Instruction) (merge : Word → Word → Word → Word) : Prop :=
  i.opCode = .lwr ∧ merge = mergeRight ∨ i.opCode = .lwl ∧ merge = mergeLeft

/-- What it leaves to `retire`. -/
def merged (r : Registers) (i : Instruction) (merge : Word → Word → Word → Word) (value : Word) :
    Next where
  pcAfter := r nextPCReg + 4
  nextLoadReg := regNo i.rt
  nextLoadValue := merge (r (gp i.rs) + i.extra) (pendingValue r i.rt) value

theorem execute_merges (hmerge : Merges i merge)
    (h : m.memory.Reaches (wordOf (m.registers (gp i.rs) + i.extra)) false pa) :
    ∃ mem, Used m.memory mem ∧ execute i m =
      .ok (merged m.registers i merge (m.memory.wordAt pa)) { m with memory := mem } := by
  obtain ⟨mem, hused, hread⟩ := readMem_run h
  have hload : execute i m = loadUnaligned i (m.registers nextPCReg + 4) merge m := by
    unfold execute
    rw [bind_run (show reg nextPCReg m = .ok (m.registers nextPCReg) m from rfl)]
    rcases hmerge with ⟨hop, rfl⟩ | ⟨hop, rfl⟩ <;> rw [hop]
  refine ⟨mem, hused, ?_⟩
  rw [hload]
  unfold loadUnaligned
  rw [bind_run (show effective i m = .ok (m.registers (gp i.rs) + i.extra) m from rfl),
    bind_run hread, bind_run (forwarded_run i.rt _)]
  rfl

theorem oneInstruction_merges (hmerge : Merges i merge) (hi : fetched m = some i)
    (hload : (m.registers loadReg).toNat < numTotalRegs)
    (h : m.memory.Reaches (wordOf (m.registers (gp i.rs) + i.extra)) false pa) :
    ∃ mem, Used m.memory mem ∧ oneInstruction m = .ok () { m with
      registers := retired m.registers (merged m.registers i merge (m.memory.wordAt pa))
      memory := mem } := by
  refine oneInstruction_run hi hload fun mem hused => ?_
  have hword : ({ m with memory := mem } : Machine).memory.wordAt pa = m.memory.wordAt pa :=
    wordAt_congr hused.mainMemory pa
  obtain ⟨mem', hused', hexecute⟩ := execute_merges (m := { m with memory := mem }) hmerge
    (h.same hused.toSameTables)
  rw [hword] at hexecute
  exact ⟨mem', hused.trans hused', hexecute⟩

end One

/-! ## The pair -/

/-- Two instructions, and whatever lets the load of the second one commit. -/
def loadPair (nextReg nextValue : Word) : Sim Unit := do
  oneInstruction
  oneInstruction
  delayedLoad nextReg nextValue

section Pair

variable {m : Machine} {rt : GPReg} {i j : Instruction} {a a' : Word} {pa pa' : Nat}
  {merge merge' : Word → Word → Word → Word}

/-- The second load finds in the delay slot what the first one has merged. -/
theorem loadPair_run (hmerge : Merges i merge) (hmerge' : Merges j merge')
    (hregisters : i.rt = rt ∧ j.rt = rt) (hrt : rt ≠ 0)
    (hload : (m.registers loadReg).toNat < numTotalRegs) (ha : m.registers (gp i.rs) + i.extra = a)
    (ha' : loaded m.registers 0 0 (gp j.rs) + j.extra = a')
    (h : m.memory.Reaches (wordOf a) false pa) (h' : m.memory.Reaches (wordOf a') false pa')
    (hi : fetched m = some i) (hj : ∀ m₁, oneInstruction m = .ok () m₁ → fetched m₁ = some j)
    (nextReg nextValue : Word) :
    ∃ m', loadPair nextReg nextValue m = .ok () m' ∧ m'.registers (gp rt) =
      merge' a' (merge a (pendingValue m.registers rt) (m.memory.wordAt pa))
        (m.memory.wordAt pa') := by
  obtain ⟨hrt₁, hrt₂⟩ := hregisters
  obtain ⟨mem, hused, hfirst⟩ := oneInstruction_merges hmerge hi hload (by rw [ha]; exact h)
  generalize hn : merged m.registers i merge (m.memory.wordAt pa) = n at hfirst
  generalize hm₁ : ({ m with registers := retired m.registers n, memory := mem } : Machine) = m₁
    at hfirst
  have hmem₁ : m₁.memory = mem := by rw [← hm₁]
  have haddress₁ : m₁.registers (gp j.rs) + j.extra = a' := by
    rw [← ha', ← hm₁]
    exact congrArg (· + j.extra) ((retired_gp n).trans (loaded_general _ _))
  have hreg₁ : m₁.registers loadReg = regNo rt := by
    rw [← hm₁, ← hn, ← hrt₁]
    rfl
  have hpending : pendingValue m₁.registers j.rt = n.nextLoadValue := by
    unfold pendingValue
    rw [hrt₂, if_pos hreg₁, ← hm₁]
    rfl
  have hload₁ : (m₁.registers loadReg).toNat < numTotalRegs := by
    rw [hreg₁]
    exact regNo_inRange rt
  obtain ⟨mem', -, hsecond⟩ := oneInstruction_merges hmerge' (hj m₁ hfirst) hload₁ (by
    rw [haddress₁, hmem₁]
    exact h'.same hused.toSameTables)
  generalize hn₂ : merged m₁.registers j merge' (m₁.memory.wordAt pa') = n₂ at hsecond
  have hreg₂ : retired m₁.registers n₂ loadReg = regNo rt := by
    rw [← hn₂, ← hrt₂]
    rfl
  have hcommit := delayedLoad_run (m := { registers := retired m₁.registers n₂, memory := mem' })
    (show (retired m₁.registers n₂ loadReg).toNat < numTotalRegs by
      rw [hreg₂]
      exact regNo_inRange rt) nextReg nextValue
  refine ⟨_, (bind_run hfirst).trans ((bind_run hsecond).trans hcommit), ?_⟩
  show loaded (retired m₁.registers n₂) nextReg nextValue (gp rt) = _
  rw [loaded_gp hreg₂ hrt]
  show n₂.nextLoadValue = _
  rw [← hn₂]
  show merge' (m₁.registers (gp j.rs) + j.extra) (pendingValue m₁.registers j.rt) _ = _
  rw [haddress₁, hpending, hmem₁, wordAt_congr hused.mainMemory, ← hn, ← ha, ← hrt₁]
  rfl

end Pair

/-! ## The word that is loaded -/

section Word

variable {a old first last : Word} {b : Nat → UInt8} {rightFirst : Bool} {k : Nat}

/-- What the pair makes of the old value and the words around the first and the last
byte. -/
def pairValue (rightFirst : Bool) (a old first last : Word) : Word :=
  if rightFirst then mergeLeft (a + 3) (mergeRight a old first) last
  else mergeRight a (mergeLeft (a + 3) old last) first

/-- When that is the word at `a`: `b` are its bytes and the two behind it. -/
def LoadsWord (rightFirst : Bool) (a old : Word) (b : Nat → UInt8) : Prop :=
  if a.toNat % 4 = 1 then (rightFirst = true → b 3 = b 1 ∧ b 4 = b 2) ∧ b 5 = b 3
  else if a.toNat % 4 = 3 then byteOf old 1 = b 1 ∧ byteOf old 2 = b 2 ∧ b 1 = b 3
  else True

/-- Byte `k` counted from `a` is `b k`, in the words around the first and the last
byte of the word at `a`. -/
structure Around (a first last : Word) (b : Nat → UInt8) : Prop where
  first : ∀ k, a.toNat % 4 + k < 4 → byte first (a.toNat % 4 + k) = (b k).toBitVec
  last : ∀ k, k < 4 →
    byte last k = (b (if a.toNat % 4 = 0 then k else k + 4 - a.toNat % 4)).toBitVec

theorem leftKept_last (a : Word) : leftKept (a + 3) = a.toNat % 4 := by
  rw [leftKept, last_mod]
  rcases alignment a with ⟨hr, -⟩ | ⟨hr, -⟩ | ⟨hr, -⟩ | ⟨hr, -⟩
  · rw [hr]
    rfl
  · rw [hr]
    rfl
  · rw [hr]
    rfl
  · rw [hr]
    rfl

theorem byte_right (h : Around a first last b) (hk : k < 4) (old : Word) :
    byte (mergeRight a old first) k =
      if a.toNat % 4 + k < 4 then (b k).toBitVec else byte old k := by
  rw [byte_mergeRight hk]
  by_cases hin : a.toNat % 4 + k < 4
  · rw [if_pos hin, if_pos hin, h.first k hin]
  · rw [if_neg hin, if_neg hin]

theorem byte_left (h : Around a first last b) (hk : k < 4) (old : Word) :
    byte (mergeLeft (a + 3) old last) k =
      if k < a.toNat % 4 then byte old k
      else (b (if a.toNat % 4 = 0 then k else k + 4 - 2 * (a.toNat % 4))).toBitVec := by
  rw [byte_mergeLeft hk, leftKept_last]
  by_cases hin : k < a.toNat % 4
  · rw [if_pos hin, if_pos hin]
  · have hsub : k - a.toNat % 4 + 4 - a.toNat % 4 = k + 4 - 2 * (a.toNat % 4) := by omega
    rw [if_neg hin, if_neg hin, h.last _ (by omega), hsub]
    by_cases hr : a.toNat % 4 = 0
    · rw [if_pos hr, if_pos hr, hr, Nat.sub_zero]
    · rw [if_neg hr, if_neg hr]

theorem byte_pairValue (h : Around a first last b) (hk : k < 4) :
    byte (pairValue rightFirst a old first last) k =
      if a.toNat % 4 + k < 4 ∧ (rightFirst = true → k < a.toNat % 4) then (b k).toBitVec
      else if k < a.toNat % 4 then byte old k
      else (b (if a.toNat % 4 = 0 then k else k + 4 - 2 * (a.toNat % 4))).toBitVec := by
  cases rightFirst with
  | false =>
    refine (byte_right h hk _).trans ?_
    rw [byte_left h hk]
    exact if_congr (by simp) rfl rfl
  | true =>
    refine (byte_left h hk _).trans ?_
    rw [byte_right h hk]
    by_cases hin : k < a.toNat % 4
    · rw [if_pos hin, if_pos hin]
      exact if_congr (by simp [hin]) rfl rfl
    · have hleft : ¬ (a.toNat % 4 + k < 4 ∧ (true = true → k < a.toNat % 4)) :=
        fun hright => hin (hright.2 rfl)
      rw [if_neg hin, if_neg hleft, if_neg hin]

theorem pairValue_eq_iff (h : Around a first last b) :
    pairValue rightFirst a old first last = ofBytes (fun k => (b k).toBitVec) ↔
      LoadsWord rightFirst a old b := by
  have hold : ∀ k, byteOf old k = b k ↔ byte old k = (b k).toBitVec := fun k =>
    ⟨fun h => congrArg UInt8.toBitVec h, fun h => UInt8.toBitVec_inj.mp h⟩
  rw [eq_ofBytes_iff, byte_pairValue h (by decide), byte_pairValue h (by decide),
    byte_pairValue h (by decide), byte_pairValue h (by decide), LoadsWord]
  rcases alignment a with ⟨hr, -⟩ | ⟨hr, -⟩ | ⟨hr, -⟩ | ⟨hr, -⟩
  · simp [hr]
  · cases rightFirst <;> simp [hr, UInt8.toBitVec_inj, and_assoc]
  · simp [hr]
  · cases rightFirst <;> simp [hr, hold, UInt8.toBitVec_inj]

end Word
/-! ## Unaligned loads -/

section Unaligned

variable {m : Machine} {rt : GPReg} {a : Word} {i j : Instruction} {rightFirst : Bool}

theorem Memory.Reaches.around {mem : Memory} {pa pa' : Nat} (h : mem.Reaches (wordOf a) false pa)
    (h' : mem.Reaches (wordOf (a + 3)) false pa') :
    Around a (mem.wordAt pa) (mem.wordAt pa')
      (fun k => mem.physical (byteAddress a pa pa' k)) := by
  refine ⟨fun k hk => ?_, fun k hk => ?_⟩
  · rw [byteAddress, if_pos hk]
    exact byte_ofBytes _ hk
  · refine (byte_ofBytes _ hk).trans ?_
    by_cases hr : a.toNat % 4 = 0
    · rw [wordOf_last, if_pos hr] at h'
      have hin : a.toNat % 4 + k < 4 := by omega
      rw [if_pos hr, byteAddress, if_pos hin, h.unique h', hr, Nat.zero_add]
    · have hin : ¬ a.toNat % 4 + (k + 4 - a.toNat % 4) < 4 := by omega
      have hsub : a.toNat % 4 + (k + 4 - a.toNat % 4) - 4 = k := by omega
      rw [if_neg hr, byteAddress, if_neg hin, hsub]

/-- **Unaligned loads.**  The pair leaves the word at the address in the register at
the even addresses, and at the odd ones if and only if the bytes that LWL takes by
mistake are the right ones. -/
theorem unaligned_load_iff (hpair : Pair .lwr .lwl m.registers rt a rightFirst i j)
    (hrt : rt ≠ 0) (hload : (m.registers loadReg).toNat < numTotalRegs)
    (hfirst : (m.memory.word (wordOf a)).isSome)
    (hlast : (m.memory.word (wordOf (a + 3))).isSome) (hi : fetched m = some i)
    (hj : ∀ m₁, oneInstruction m = .ok () m₁ → fetched m₁ = some j) (nextReg nextValue : Word) :
    ∃ m' b, loadPair nextReg nextValue m = .ok () m' ∧
      (∀ k, k < 4 ∨ a.toNat % 4 ≠ 0 ∧ a.toNat % 4 + k < 8 →
        m.memory.byte (a + BitVec.ofNat 32 k) = some (b k)) ∧
      (m'.registers (gp rt) = ofBytes (fun k => (b k).toBitVec) ↔
        LoadsWord rightFirst a (pendingValue m.registers rt) b) := by
  obtain ⟨pa, h⟩ := reaches_of_word hfirst (wordOf_aligned a)
  obtain ⟨pa', h'⟩ := reaches_of_word hlast (wordOf_aligned (a + 3))
  obtain ⟨hops, haddresses, hregisters⟩ := hpair
  have hvalue : ∃ m', loadPair nextReg nextValue m = .ok () m' ∧ m'.registers (gp rt) =
      pairValue rightFirst a (pendingValue m.registers rt) (m.memory.wordAt pa)
        (m.memory.wordAt pa') := by
    cases rightFirst with
    | true =>
      obtain ⟨hi₁, hj₁⟩ := Prod.mk.inj hops
      obtain ⟨hi₂, hj₂⟩ := Prod.mk.inj haddresses
      exact loadPair_run (.inl ⟨hi₁, rfl⟩) (.inr ⟨hj₁, rfl⟩) hregisters hrt hload hi₂ hj₂ h h' hi
        hj nextReg nextValue
    | false =>
      obtain ⟨hi₁, hj₁⟩ := Prod.mk.inj hops
      obtain ⟨hi₂, hj₂⟩ := Prod.mk.inj haddresses
      exact loadPair_run (.inr ⟨hi₁, rfl⟩) (.inl ⟨hj₁, rfl⟩) hregisters hrt hload hi₂ hj₂ h' h hi
        hj nextReg nextValue
  obtain ⟨m', hrun, hreg⟩ := hvalue
  refine ⟨m', fun k => m.memory.physical (byteAddress a pa pa' k), hrun, fun k hk => ?_, ?_⟩
  · rw [Memory.byte, locate_unaligned h h' hk, Option.map_some]
  · rw [hreg]
    exact pairValue_eq_iff (h.around h')

end Unaligned

/-! ## A pair at two addresses -/

/-- `LWR r2, 0(r1)` and `LWL r2, 3(r1)`. -/
abbrev twoLoads (address : Word) : Machine := twoInstructions 0x98220000 0x88220003 address

theorem twoLoads_pair (address : Word) : Pair .lwr .lwl (twoLoads address).registers 2
    (address + 0) true (decode 0x98220000) (decode 0x88220003) :=
  pair_of_base (by decide) (by decide) (show _ = (1 : GPReg) ∧ _ = (1 : GPReg) by decide)
    (by decide) ⟨fun _ => rfl, fun _ => show (0 : Word) ≠ regNo 1 by decide⟩

/-- At address 9 the register gets the bytes 9, 12, 13 and 14. -/
theorem unaligned_load_swapped :
    Pair .lwr .lwl (twoLoads 9).registers 2 9 true (decode 0x98220000) (decode 0x88220003) ∧
      (twoLoads 9).registers 0 = 0 ∧ (twoLoads 9).registers loadReg = 0 ∧
      ((twoLoads 9).memory.word (wordOf 9)).isSome ∧
      ((twoLoads 9).memory.word (wordOf 12)).isSome ∧
      fetched (twoLoads 9) = some (decode 0x98220000) ∧
      (∀ m₁, oneInstruction (twoLoads 9) = .ok () m₁ → fetched m₁ = some (decode 0x88220003)) ∧
      (∀ k : Fin 4, (twoLoads 9).memory.byte (9 + BitVec.ofNat 32 k) = some (UInt8.ofNat (9 + k))) ∧
      registerAfter (loadPair 0 0) (twoLoads 9) 2 = some 0x0e0d0c09 ∧
      ofBytes (fun k => (UInt8.ofNat (9 + k)).toBitVec) = 0x0c0b0a09 := by
  have hsecond : fetchedAfter (twoLoads 9) = some (decode 0x88220003) := by decide +kernel
  exact ⟨twoLoads_pair 9, rfl, rfl, by decide +kernel, by decide +kernel, by decide +kernel,
    fun _ hrun => fetched_after hsecond hrun, by decide +kernel, by decide +kernel, by decide⟩

theorem unaligned_load_ten :
    ∃ m' b, loadPair 0 0 (twoLoads 10) = .ok () m' ∧
      (∀ k, k < 4 ∨ (10 : Word).toNat % 4 ≠ 0 ∧ (10 : Word).toNat % 4 + k < 8 →
        (twoLoads 10).memory.byte (10 + BitVec.ofNat 32 k) = some (b k)) ∧
      (m'.registers (gp 2) = ofBytes (fun k => (b k).toBitVec) ↔
        LoadsWord true 10 (pendingValue (twoLoads 10).registers 2) b) := by
  have hsecond : fetchedAfter (twoLoads 10) = some (decode 0x88220003) := by decide +kernel
  exact unaligned_load_iff (twoLoads_pair 10) (by decide) (by decide) (by decide +kernel)
    (by decide +kernel) (by decide +kernel)
    (fun _ hrun => fetched_after hsecond hrun) 0 0

end Machine
end Nachos
