import Nachos.Machine.Exceptions
import Nachos.Machine.Visibility

/-!
# Memory protection

Whatever a program does, the bytes it changes and the bytes it sees are those of
frames that the kernel has mapped for it.
-/

namespace Nachos
namespace Machine

open Lib

/-! ## Runs of a program -/

/-- What happens to a program: an instruction, an exception, and the kernel, which may do
what it likes with the registers. -/
inductive Event
  | executed
  | trapped (which : ExceptionType)
  | kernel (r : Registers)

inductive Happens (m : Machine) : Event → Machine → Prop
  | executed {m' : Machine} (hrun : oneInstruction m = .ok () m') : Happens m .executed m'
  | trapped {which : ExceptionType} {m' : Machine}
      (hrun : oneInstruction m = .error (.exception which) m') : Happens m (.trapped which) m'
  | kernel (r : Registers) : Happens m (.kernel r) { m with registers := r }

/-- A run, with all that happens in it. -/
inductive Traced (m : Machine) : List Event → Machine → Prop
  | nil : Traced m [] m
  | snoc {events : List Event} {event : Event} {m₁ m₂ : Machine} (hrun : Traced m events m₁)
      (hnext : Happens m₁ event m₂) : Traced m (events ++ [event]) m₂

/-! ## Writing -/

/-- The mappings are the same, and only bytes in writable frames are new. -/
structure Confined (m m' : Memory) : Prop extends SameTables m m' where
  bytes : ∀ a : Fin memorySize, m'.mainMemory a ≠ m.mainMemory a → m.Maps (a.val / pageSize) true

/-- The next instruction stores through the entry in the slot. -/
def StoresThrough (m : Machine) (slot : Slot) : Prop :=
  ∃ i size pa, fetched m = some i ∧ i.stores = true ∧
    Found m.memory (i.address m.registers) size true slot pa

theorem Confined.trans {m₁ m₂ m₃ : Memory} (h : Confined m₁ m₂) (h' : Confined m₂ m₃) :
    Confined m₁ m₃ := by
  refine ⟨h.toSameTables.trans h'.toSameTables, fun a ha => ?_⟩
  by_cases h₁ : m₂.mainMemory a = m₁.mainMemory a
  · refine (h.toSameTables.maps _ true).mp (h'.bytes a ?_)
    rwa [h₁]
  · exact h.bytes a h₁

theorem Used.confined {m m' : Memory} (h : Used m m') : Confined m m' :=
  ⟨h.toSameTables, fun a ha => absurd (congrFun h.mainMemory a) ha⟩

theorem Stored.confined {m m' : Memory} {addr : Word} (h : Stored m addr m') : Confined m m' := by
  obtain ⟨slot, size, pa, hfound, hbytes, _⟩ := h.bytes
  refine ⟨h.toSameTables, fun a ha => ?_⟩
  obtain ⟨hlow, hhigh⟩ := hbytes a ha
  exact (hfound.bytes hlow hhigh).2

theorem Executed.memory {m m' : Machine} {i : Instruction} {n : Next} (h : Executed m i n m') :
    Used m.memory m'.memory ∨
      i.stores = true ∧ Stored m.memory (i.address m.registers) m'.memory := by
  obtain ⟨m₂, heffect, rfl⟩ := h.effect
  exact heffect.memory

theorem confined_of_step {m m' : Machine} {event : Event} (h : Happens m event m') :
    Confined m.memory m'.memory := by
  cases h with
  | executed hrun =>
    obtain ⟨i, n, hexec⟩ := (oneInstruction_triple m).ok rfl hrun
    rcases hexec.memory with hused | ⟨_, hstored⟩
    · exact hused.confined
    · exact hstored.confined
  | trapped hrun => exact ((oneInstruction_triple m).error rfl hrun).2.confined
  | kernel r => exact (Used.refl _).confined

/-- A dirty bit changes by a store through its entry. -/
theorem dirty_of_step {m m' : Machine} {event : Event} {slot : Slot} (h : Happens m event m')
    (hne : m'.memory.dirty slot ≠ m.memory.dirty slot) :
    event = .executed ∧ StoresThrough m slot := by
  cases h with
  | executed hrun =>
    obtain ⟨i, n, hexec⟩ := (oneInstruction_triple m).ok rfl hrun
    refine ⟨rfl, ?_⟩
    rcases hexec.memory with hused | ⟨hstores, hstored⟩
    · exact absurd (hused.dirty slot) hne
    · obtain ⟨slot', size, pa, hfound, _, hdirty⟩ := hstored.bytes
      cases hdirty slot hne
      exact ⟨i, size, pa, hexec.fetched, hstores, hfound⟩
  | trapped hrun => exact absurd (((oneInstruction_triple m).error rfl hrun).2.dirty slot) hne
  | kernel r => exact absurd rfl hne

theorem confined_of_traced {m m' : Machine} {events : List Event} (h : Traced m events m') :
    Confined m.memory m'.memory := by
  induction h with
  | nil => exact (Used.refl _).confined
  | snoc _ hnext ih => exact ih.trans (confined_of_step hnext)

/-- The part of a run up to a store, the store, and the part after it. -/
structure StoredIn (m : Machine) (events : List Event) (m' : Machine) (slot : Slot) : Prop where
  split : ∃ before after m₁ m₂, events = before ++ .executed :: after ∧ Traced m before m₁ ∧
    StoresThrough m₁ slot ∧ Happens m₁ .executed m₂ ∧ Traced m₂ after m'

theorem dirty_of_traced {m m' : Machine} {events : List Event} {slot : Slot}
    (h : Traced m events m') (hne : m'.memory.dirty slot ≠ m.memory.dirty slot) :
    StoredIn m events m' slot := by
  induction h with
  | nil => exact absurd rfl hne
  | @snoc events event m₁ m₂ hrun hnext ih =>
    by_cases hsame : m₁.memory.dirty slot = m.memory.dirty slot
    · rw [← hsame] at hne
      obtain ⟨rfl, hstores⟩ := dirty_of_step hnext hne
      exact ⟨events, [], m₁, m₂, rfl, hrun, hstores, hnext, .nil⟩
    · obtain ⟨before, after, n₁, n₂, rfl, hbefore, hstores, hstore, hafter⟩ := ih hsame
      exact ⟨before, after ++ [event], n₁, n₂, by rw [List.append_assoc, List.cons_append],
        hbefore, hstores, hstore, hafter.snoc hnext⟩

/-! ## Reading -/

/-- Machines in lockstep go through the same events. -/
theorem happens_lockstep {R : Machine → Machine → Prop} (hone : Lockstep R oneInstruction)
    (hset : ∀ m n r, R m n → R { m with registers := r } { n with registers := r })
    {m m' n : Machine} {event : Event} (h : R m n) (hm : Happens m event m') :
    ∃ n', Happens n event n' ∧ R m' n' := by
  cases hm with
  | executed hrun =>
    obtain ⟨n', hrun', h'⟩ := hone.ok h hrun
    exact ⟨n', .executed hrun', h'⟩
  | trapped hrun =>
    obtain ⟨n', hrun', h'⟩ := hone.error h hrun
    exact ⟨n', .trapped hrun', h'⟩
  | kernel r => exact ⟨_, .kernel r, hset m n r h⟩

theorem traced_lockstep {R : Machine → Machine → Prop} (hone : Lockstep R oneInstruction)
    (hset : ∀ m n r, R m n → R { m with registers := r } { n with registers := r })
    {m m' n : Machine} {events : List Event} (h : R m n) (hm : Traced m events m') :
    ∃ n', Traced n events n' ∧ R m' n' := by
  induction hm with
  | nil => exact ⟨n, .nil, h⟩
  | snoc _ hnext ih =>
    obtain ⟨n₁, hrun, h₁⟩ := ih
    obtain ⟨n₂, hnext', h₂⟩ := happens_lockstep hone hset h₁ hnext
    exact ⟨n₂, hrun.snoc hnext', h₂⟩

/-! ## Protection -/

/-- **Memory protection.**  Over any run the mappings stay, the bytes that change are in
writable frames, and a dirty bit changes only by a store through its entry.  Bytes in
frames that no valid entry maps are not read: with other bytes there the same events
happen, the kernel's changes of registers among them, and lead to the same registers, the
same tables and the same bytes in all mapped frames. -/
theorem memory_protected {m m' : Machine} {events : List Event} (h : Traced m events m') :
    Confined m.memory m'.memory ∧
      (∀ slot, m'.memory.dirty slot ≠ m.memory.dirty slot → StoredIn m events m' slot) ∧
      ∀ n, SameView (m.memory.Maps · false) m n →
        ∃ n', Traced n events n' ∧ SameView (m.memory.Maps · false) m' n' :=
  ⟨confined_of_traced h, fun _ hne => dirty_of_traced h hne, fun _ hview =>
    traced_lockstep unseen_oneInstruction (fun _ _ _ hview => ⟨rfl, hview.memory⟩) hview h⟩

/-- `SW r1, 8(r0)` with 5 in `r1`. -/
def storeFive : Machine := single 0xac010008 fun j => if j = 1 then 5 else 0

/-- The byte that an instruction leaves at an address, if it raises no exception. -/
def byteAfter (m : Machine) (addr : Fin memorySize) : Option UInt8 :=
  match oneInstruction m with
  | .ok _ m' => some (m'.memory.mainMemory addr)
  | .error _ _ => none

/-- The byte changes, whatever the bytes of the other frames are. -/
theorem memory_protected_storeFive :
    ∃ m', Traced storeFive [.executed] m' ∧ m'.memory.mainMemory 8 = 5 ∧
      Confined storeFive.memory m'.memory ∧
      ∀ n, SameView (storeFive.memory.Maps · false) storeFive n →
        ∃ n', Traced n [.executed] n' ∧ SameView (storeFive.memory.Maps · false) m' n' := by
  have hbyte : byteAfter storeFive 8 = some 5 := by decide +kernel
  unfold byteAfter at hbyte
  cases hrun : oneInstruction storeFive with
  | ok a m' =>
    rw [hrun] at hbyte
    have htraced : Traced storeFive [.executed] m' := Traced.nil.snoc (.executed hrun)
    obtain ⟨hconfined, -, hunseen⟩ := memory_protected htraced
    exact ⟨m', htraced, Option.some.inj hbyte, hconfined, hunseen⟩
  | error e m' =>
    rw [hrun] at hbyte
    cases hbyte

end Machine
end Nachos
