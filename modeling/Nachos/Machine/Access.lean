import Nachos.Machine.Parallel
import Nachos.Machine.Translation

/-!
# Access to memory and exceptions

What `ReadMem`, `WriteMem`, `DelayedLoad` and `RaiseException` have done when
they return, and what has been done when they stop.
-/

namespace Nachos
namespace Machine

open Lib

/-! ## Memory -/

/-- Only use bits were set. -/
structure Used (m m' : Memory) : Prop extends SameTables m m' where
  mainMemory : m'.mainMemory = m.mainMemory
  dirty : ∀ slot, m'.dirty slot = m.dirty slot

/-- Something was stored at the virtual address. -/
structure Stored (m : Memory) (addr : Word) (m' : Memory) : Prop extends SameTables m m' where
  bytes : ∃ slot size pa, Found m addr size true slot pa ∧
    (∀ a, m'.mainMemory a ≠ m.mainMemory a → pa ≤ a.val ∧ a.val < pa + size) ∧
    ∀ slot', m'.dirty slot' ≠ m.dirty slot' → slot' = slot

theorem Used.refl (m : Memory) : Used m m := ⟨.refl m, rfl, fun _ => rfl⟩

theorem Used.trans {m₁ m₂ m₃ : Memory} (h : Used m₁ m₂) (h' : Used m₂ m₃) : Used m₁ m₃ :=
  ⟨h.toSameTables.trans h'.toSameTables, h'.mainMemory.trans h.mainMemory,
    fun slot => (h'.dirty slot).trans (h.dirty slot)⟩

theorem Memory.touch_mainMemory (m : Memory) (slot : Slot) (writing : Bool) :
    (m.touch slot writing).mainMemory = m.mainMemory := by
  cases slot <;> rfl

theorem Used.touch (m : Memory) (slot : Slot) : Used m (m.touch slot false) :=
  ⟨m.touch_sameTables slot false, m.touch_mainMemory slot false,
    fun slot' => m.touch_dirty slot slot' false (.inl rfl)⟩

theorem Found.same {m m' : Memory} (h : SameTables m m') {addr : Word} {size : Nat}
    {writing : Bool} {slot : Slot} {pa : Nat} (hf : Found m' addr size writing slot pa) :
    Found m addr size writing slot pa := by
  obtain ⟨hlookup, ⟨e, hactive, hmapping, hrest⟩, hpage⟩ := hf
  refine ⟨(h.lookup _).symm.trans hlookup, ⟨e, (h.active slot).mp hactive, ?_, hrest⟩, hpage⟩
  rw [← h.mapping]
  exact hmapping

/-- A store after accesses that only read. -/
theorem Used.stored {m₁ m₂ m₃ : Memory} {addr : Word} (h : Used m₁ m₂) (h' : Stored m₂ addr m₃) :
    Stored m₁ addr m₃ := by
  obtain ⟨slot, size, pa, hfound, hbytes, hdirty⟩ := h'.bytes
  refine ⟨h.toSameTables.trans h'.toSameTables, slot, size, pa, hfound.same h.toSameTables, ?_, ?_⟩
  · rw [← h.mainMemory]
    exact hbytes
  · intro slot' hne
    rw [← h.dirty] at hne
    exact hdirty slot' hne

theorem byteAt_triple (m : Memory) {a : Nat} (ha : a < memorySize) :
    Triple (· = m) (byteAt a) (fun _ s => s = m) (fun _ _ => False) := by
  refine .returns fun s hs => ⟨s.mainMemory ⟨a, ha⟩, s, ?_, hs⟩
  unfold byteAt
  rw [bind_run (show (get : MemSim Memory) s = .ok s s from rfl), dif_pos ha]
  rfl

theorem fetch_triple (m : Memory) {pa size : Nat} (hsize : size = 1 ∨ size = 2 ∨ size = 4)
    (hin : ∀ a, pa ≤ a → a < pa + size → a < memorySize) :
    Triple (· = m) (fetch pa size) (fun _ s => s = m) (fun _ _ => False) := by
  have hbyte : ∀ k, k < size → Triple (· = m) (byteAt (pa + k)) (fun _ s => s = m) (fun _ _ => False) :=
    fun k hk => byteAt_triple m (hin _ (Nat.le_add_right pa k) (Nat.add_lt_add_left hk pa))
  unfold fetch
  rcases hsize with rfl | rfl | rfl
  · rw [if_pos rfl]
    exact (hbyte 0 (by decide)).bind fun _ => .pure fun _ hs => hs
  · rw [if_neg (by decide), if_pos rfl]
    exact (hbyte 1 (by decide)).bind fun _ => (hbyte 0 (by decide)).bind fun _ =>
      .pure fun _ hs => hs
  · rw [if_neg (by decide), if_neg (by decide), if_pos rfl]
    exact (hbyte 3 (by decide)).bind fun _ => (hbyte 2 (by decide)).bind fun _ =>
      (hbyte 1 (by decide)).bind fun _ => (hbyte 0 (by decide)).bind fun _ => .pure fun _ hs => hs

/-- The tables are untouched and only bytes in the range may be new. -/
structure Wrote (m : Memory) (pa size : Nat) (m' : Memory) : Prop where
  tables : ∃ bytes, m' = { m with mainMemory := bytes }
  bytes : ∀ a, m'.mainMemory a ≠ m.mainMemory a → pa ≤ a.val ∧ a.val < pa + size

theorem Wrote.stored {m m' : Memory} {addr : Word} {size pa : Nat} {slot : Slot}
    (h : Wrote (m.touch slot true) pa size m') (hf : Found m addr size true slot pa) :
    Stored m addr m' := by
  obtain ⟨⟨bytes, rfl⟩, hbytes⟩ := h
  have htables := m.touch_sameTables slot true
  refine ⟨⟨htables.tlb, htables.pageTables, htables.currentPageTable, htables.currentPageTableSize⟩,
    slot, size, pa, hf, fun a ha => hbytes a ?_, ?_⟩
  · rwa [m.touch_mainMemory]
  · intro slot' hne
    by_contra hslot
    exact hne (m.touch_dirty slot slot' true (.inr hslot))

theorem setByteAt_triple {m : Memory} {pa size a : Nat} {b : UInt8} (ha : a < memorySize)
    (hlow : pa ≤ a) (hhigh : a < pa + size) :
    Triple (Wrote m pa size) (setByteAt a b) (fun _ s => Wrote m pa size s) (fun _ _ => False) := by
  refine .returns fun s hs => ⟨(),
    { s with mainMemory := fun j => if j.val = a then b else s.mainMemory j }, ?_, ?_⟩
  · unfold setByteAt
    rw [bind_run (show (get : MemSim Memory) s = .ok s s from rfl), if_pos ha]
    rfl
  obtain ⟨⟨bytes, rfl⟩, hbytes⟩ := hs
  refine ⟨⟨_, rfl⟩, fun j hj => ?_⟩
  by_cases hja : j.val = a
  · rw [hja]
    exact ⟨hlow, hhigh⟩
  · refine hbytes j ?_
    simpa [hja] using hj

theorem store_triple (m : Memory) {pa size : Nat} (value : Word)
    (hsize : size = 1 ∨ size = 2 ∨ size = 4)
    (hin : ∀ a, pa ≤ a → a < pa + size → a < memorySize) :
    Triple (· = m) (store pa size value) (fun _ s => Wrote m pa size s) (fun _ _ => False) := by
  have hbytes : ∀ n, n ≤ size →
      Triple (· = m) (storeBytes pa value n) (fun _ s => Wrote m pa size s) (fun _ _ => False) := by
    intro n
    induction n with
    | zero =>
      intro _
      refine .pure fun s hs => ⟨⟨m.mainMemory, hs⟩, fun a ha => absurd ?_ ha⟩
      rw [hs]
    | succ n ih =>
      intro hn
      refine (ih (Nat.le_of_succ_le hn)).bind fun _ => ?_
      have hlt : pa + n < pa + size := Nat.add_lt_add_left hn pa
      exact setByteAt_triple (hin _ (Nat.le_add_right pa n) hlt) (Nat.le_add_right pa n) hlt
  unfold store
  rw [if_pos hsize]
  exact hbytes size (Nat.le_refl size)

/-! ## Registers and memory -/

/-- The registers that the kernel finds when `RaiseException` was called with the
address. -/
def raised (r : Registers) (badVAddr : Word) : Registers :=
  loaded (fun j => if j = badVAddrReg then badVAddr else r j) 0 0

/-- Nothing was changed yet but use bits. -/
structure Quiet (m₀ m : Machine) : Prop where
  registers : m.registers = m₀.registers
  memory : Used m₀.memory m.memory

/-- Nothing but use bits, the register `d`, Hi and Lo. -/
structure Kept (m₀ : Machine) (d : Option GPReg) (m : Machine) : Prop where
  registers : ∀ j, j ∈ kept d → m.registers j = m₀.registers j
  memory : Used m₀.memory m.memory

/-- Nothing but the bytes at the address, with their entry. -/
structure Written (m₀ : Machine) (addr : Word) (m : Machine) : Prop where
  registers : m.registers = m₀.registers
  memory : Stored m₀.memory addr m.memory

/-- What stops a program: `addr` is the address it raises exceptions with, and
`divides` says that it comes to the division that the host traps. -/
def Stops (m₀ : Machine) (addr : Word) (divides : Prop) : Stop → Machine → Prop
  | .exception _, m => m.registers = raised m₀.registers addr ∧ Used m₀.memory m.memory
  | .badIndex, _ => numTotalRegs ≤ (m₀.registers loadReg).toNat
  | .assertion, _ => ¬ m₀.memory.OneTable
  | .hostDivide, _ => divides

/-- `ReadMem` once the address is translated. -/
theorem readMem_translated {m : Machine} {mem : Memory} {addr : Word} {size pa : Nat}
    (h : translate addr size false m.memory = .ok (.ok pa) mem) :
    readMem addr size m = onMemory (fetch pa size) { m with memory := mem } := by
  have htranslated : onMemory (translate addr size false) m =
      .ok (.ok pa) { m with memory := mem } := by
    unfold onMemory
    rw [h]
  unfold readMem
  rw [bind_run htranslated]

theorem writeMem_translated {m : Machine} {mem : Memory} {addr : Word} {size pa : Nat}
    (value : Word) (h : translate addr size true m.memory = .ok (.ok pa) mem) :
    writeMem addr size value m = onMemory (store pa size value) { m with memory := mem } := by
  have htranslated : onMemory (translate addr size true) m =
      .ok (.ok pa) { m with memory := mem } := by
    unfold onMemory
    rw [h]
  unfold writeMem
  rw [bind_run htranslated]

theorem onMemory_triple {α : Type} {x : MemSim α} {m : Machine} {Q : α → Memory → Prop}
    {E : Stop → Memory → Prop} (h : Triple (· = m.memory) x Q E) :
    Triple (· = m) (onMemory x) (fun a s => s.registers = m.registers ∧ Q a s.memory)
      (fun e s => s.registers = m.registers ∧ E e s.memory) := by
  rintro s rfl
  have hrun := h s.memory rfl
  unfold onMemory
  cases hx : x s.memory with
  | ok a mem =>
    rw [hx] at hrun
    exact ⟨rfl, hrun⟩
  | error e mem =>
    rw [hx] at hrun
    exact ⟨rfl, hrun⟩

section Programs

variable {m₀ : Machine} {addr : Word} {divides : Prop} {P : Machine → Prop} {α : Type}

theorem reg_triple (j : Reg) {E : Stop → Machine → Prop} :
    Triple P (reg j) (fun v m => P m ∧ v = m.registers j) E :=
  fun _ hm => ⟨hm, rfl⟩

theorem setReg_triple (j : Reg) (v : Word) {E : Stop → Machine → Prop} :
    Triple P (setReg j v)
      (fun _ m => ∃ m', P m' ∧ m = { m' with
        registers := fun k => if k = j then v else m'.registers k }) E :=
  fun m hm => ⟨m, hm, rfl⟩

theorem delayedLoad_triple (m : Machine) (a b : Word) :
    Triple (· = m) (delayedLoad a b)
      (fun _ s => s = { m with registers := loaded m.registers a b })
      (fun e _ => e = .badIndex ∧ numTotalRegs ≤ (m.registers loadReg).toNat) := by
  by_cases h : (m.registers loadReg).toNat < numTotalRegs
  · refine .returns fun s hs => ?_
    rw [hs]
    exact ⟨(), _, delayedLoad_run h a b, rfl⟩
  · unfold delayedLoad
    refine (reg_triple loadReg).bind fun i => (reg_triple loadValueReg).bind fun v => ?_
    refine .bind (Q := fun _ _ => False) ?_ fun _ => fun s hs => hs.elim
    refine .given (φ := i = m.registers loadReg) (fun s hs => by rw [hs.1.2, hs.1.1]) ?_
    rintro rfl
    unfold setRegAt
    rw [dif_neg h]
    exact .throw fun _ _ => ⟨rfl, Nat.le_of_not_lt h⟩

theorem raiseException_triple (which : ExceptionType) (addr : Word) {Q : α → Machine → Prop} :
    Triple (Quiet m₀) (raiseException which addr) Q (Stops m₀ addr divides) := by
  refine .each fun m hm => ?_
  unfold raiseException
  refine (setReg_triple badVAddrReg addr).bind fun _ => ?_
  refine .each fun m₁ hm₁ => ?_
  obtain ⟨_, rfl, rfl⟩ := hm₁
  refine ((delayedLoad_triple _ 0 0).errors ?_).bind fun _ => .throw fun s hs => ?_
  · rintro e s ⟨rfl, hload⟩
    show numTotalRegs ≤ (m₀.registers loadReg).toNat
    rw [← hm.registers]
    exact hload
  · refine ⟨?_, ?_⟩
    · rw [hs, ← hm.registers]
      rfl
    · rw [hs]
      exact hm.memory

/-- `ReadMem` and `WriteMem` up to the access: the address is translated, and an exception
is raised if it cannot be. -/
theorem translated_triple {β : Type} {m : Machine} {size : Nat} {writing : Bool}
    {k : Except ExceptionType Nat → Sim β} {Q : β → Machine → Prop} (hm : Quiet m₀ m)
    (hsize : size = 1 ∨ size = 2 ∨ size = 4) (herror : ∀ e, k (.error e) = raiseException e addr)
    (hok : ∀ (s : Machine) slot pa, s.registers = m₀.registers →
      Found m.memory addr size writing slot pa → s.memory = m.memory.touch slot writing →
      Triple (· = s) (k (.ok pa)) Q (Stops m₀ addr divides)) :
    Triple (· = m) (onMemory (translate addr size writing) >>= k) Q (Stops m₀ addr divides) := by
  have htables := hm.memory.toSameTables
  refine ((onMemory_triple (translate_triple m.memory addr writing hsize)).errors ?_).bind
    fun found => ?_
  · rintro e s ⟨_, rfl, _, hone⟩
    exact fun h => hone (htables.oneTable.mpr h)
  cases found with
  | error e =>
    rw [herror]
    refine (raiseException_triple e addr).pre fun s hs => ⟨hs.1.trans hm.registers, ?_⟩
    rw [show s.memory = m.memory from hs.2]
    exact hm.memory
  | ok pa =>
    refine .each fun s hs => ?_
    obtain ⟨hregs, slot, hfound, hmem⟩ := hs
    exact hok s slot pa (hregs.trans hm.registers) hfound hmem

/-- `ReadMem` at the address changes nothing but use bits. -/
theorem readMem_triple (addr : Word) {size : Nat} (hsize : size = 1 ∨ size = 2 ∨ size = 4) :
    Triple (Quiet m₀) (readMem addr size) (fun _ m => Quiet m₀ m) (Stops m₀ addr divides) := by
  refine .each fun m hm => ?_
  unfold readMem
  refine translated_triple hm hsize (fun _ => rfl) fun s slot pa hregs hfound hmem => ?_
  refine ((onMemory_triple (fetch_triple s.memory hsize ?_)).errors ?_).post ?_
  · exact fun a ha ha' => (hfound.bytes ha ha').1
  · exact fun _ _ h => h.2.elim
  · rintro v s' ⟨hregs', hmem'⟩
    refine ⟨hregs'.trans hregs, ?_⟩
    rw [hmem', hmem]
    exact hm.memory.trans (.touch _ slot)

theorem writeMem_triple (addr : Word) {size : Nat} (value : Word)
    (hsize : size = 1 ∨ size = 2 ∨ size = 4) :
    Triple (Quiet m₀) (writeMem addr size value) (fun _ m => Written m₀ addr m)
      (Stops m₀ addr divides) := by
  refine .each fun m hm => ?_
  unfold writeMem
  refine translated_triple hm hsize (fun _ => rfl) fun s slot pa hregs hfound hmem => ?_
  refine ((onMemory_triple (store_triple s.memory value hsize ?_)).errors ?_).post ?_
  · exact fun a ha ha' => (hfound.bytes ha ha').1
  · exact fun _ _ h => h.2.elim
  · rintro v s' ⟨hregs', hwrote⟩
    refine ⟨hregs'.trans hregs, hm.memory.stored ?_⟩
    rw [hmem] at hwrote
    exact hwrote.stored hfound

end Programs

end Machine
end Nachos
