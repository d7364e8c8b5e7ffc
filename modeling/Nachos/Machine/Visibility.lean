import Nachos.Machine.Access
import Nachos.Machine.Routines

/-!
# What a program can see

Two machines with the same registers and the same tables, whose memories agree in
the frames that valid entries map, execute the same instruction in the same way.
-/

namespace Nachos
namespace Machine

open Lib

/-! ## Memory -/

/-- The memories differ at most in frames outside `F`, and no other frame is
mapped by a valid entry. -/
structure SameFrames (F : Nat → Prop) (m n : Memory) : Prop where
  rest : n = { m with mainMemory := n.mainMemory }
  bytes : ∀ a : Fin memorySize, F (a.val / pageSize) → n.mainMemory a = m.mainMemory a
  mapped : ∀ f, m.Maps f false → F f

variable {F : Nat → Prop}

theorem SameFrames.sameTables {m n : Memory} (h : SameFrames F m n) : SameTables m n := by
  rw [h.rest]
  exact ⟨rfl, fun _ _ => rfl, rfl, rfl⟩

theorem SameFrames.symm {m n : Memory} (h : SameFrames F m n) : SameFrames F n m := by
  refine ⟨?_, fun a ha => (h.bytes a ha).symm, fun f hf => h.mapped f ?_⟩
  · rw [h.rest]
  · exact (h.sameTables.maps f false).mp hf

/-- `Translate` does not look at the bytes. -/
theorem translate_bytes (m : Memory) (bytes : Fin memorySize → UInt8) (addr : Word) (size : Nat)
    (writing : Bool) :
    translate addr size writing { m with mainMemory := bytes } =
      match translate addr size writing m with
      | .ok r s => .ok r { s with mainMemory := bytes }
      | .error e s => .error e { s with mainMemory := bytes } := by
  have htouch : ∀ slot, ({ m with mainMemory := bytes } : Memory).touch slot writing
      = { m.touch slot writing with mainMemory := bytes } := by
    intro slot
    cases slot <;> rfl
  have hentry : ∀ slot, ({ m with mainMemory := bytes } : Memory).entry slot = m.entry slot := by
    intro slot
    cases slot <;> rfl
  have hlookup : ∀ vpn, ({ m with mainMemory := bytes } : Memory).lookup vpn = m.lookup vpn :=
    fun _ => rfl
  have hget : ∀ s : Memory, (get : MemSim Memory) s = .ok s s := fun _ => rfl
  unfold translate
  split_ifs with h1
  · rfl
  · rw [bind_run (hget _), bind_run (hget _)]
    unfold assert
    dsimp only
    split_ifs with h2 h3
    · rw [bind_run (show (pure () : MemSim Unit) _ = .ok () _ from rfl),
        bind_run (show (pure () : MemSim Unit) _ = .ok () _ from rfl),
        bind_run (show (pure () : MemSim Unit) _ = .ok () _ from rfl),
        bind_run (show (pure () : MemSim Unit) _ = .ok () _ from rfl)]
      cases hl : m.lookup (addr.toNat / pageSize) with
      | error e =>
        have hl' : ({ m with mainMemory := bytes } : Memory).lookup (addr.toNat / pageSize)
          = .error e := hl
        rw [hl']
        rfl
      | ok slot =>
        have hl' : ({ m with mainMemory := bytes } : Memory).lookup (addr.toNat / pageSize)
          = .ok slot := hl
        rw [hl']
        dsimp only
        rw [hentry]
        cases m.entry slot with
        | none => rfl
        | some entry =>
          dsimp only
          split_ifs with h4 h5 h6
          · rfl
          · rfl
          · rw [htouch]
            rfl
          · rw [htouch]
            rfl
    all_goals rfl

/-- In lockstep when the memories differ outside `F`. -/
abbrev Blind (F : Nat → Prop) {α : Type} (x : MemSim α) : Prop := Lockstep (SameFrames F) x

theorem SameFrames.mono {m m' n : Memory} (h : SameFrames F m n) (hm : SameTables m m')
    (hbytes : m'.mainMemory = m.mainMemory) :
    SameFrames F m' { m' with mainMemory := n.mainMemory } := by
  refine ⟨rfl, ?_, fun f hf => h.mapped f ((hm.maps f false).mp hf)⟩
  rw [hbytes]
  exact h.bytes

theorem blind_translate (addr : Word) {size : Nat} (writing : Bool)
    (hsize : size = 1 ∨ size = 2 ∨ size = 4) : Blind F (translate addr size writing) := by
  intro m n h
  have hrun := translate_triple m addr writing hsize m rfl
  have hn := translate_bytes m n.mainMemory addr size writing
  rw [← h.rest] at hn
  rw [hn]
  cases hm : translate addr size writing m with
  | error e s =>
    rw [hm] at hrun
    obtain ⟨_, rfl, _⟩ := hrun
    exact ⟨rfl, h.mono (.refl _) rfl⟩
  | ok r s =>
    rw [hm] at hrun
    cases r with
    | error e =>
      cases (show s = m from hrun)
      exact ⟨rfl, h.mono (.refl _) rfl⟩
    | ok pa =>
      obtain ⟨slot, _, rfl⟩ := hrun
      exact ⟨rfl, h.mono (m.touch_sameTables slot writing) (m.touch_mainMemory slot writing)⟩

/-- What `Translate` finds is in a mapped frame. -/
theorem SameFrames.found {m n s : Memory} (h : SameFrames F m n) {addr : Word} {size : Nat}
    {writing : Bool} {r : Except ExceptionType Nat} (hsize : size = 1 ∨ size = 2 ∨ size = 4)
    (hrun : translate addr size writing m = .ok r s) :
    ∀ pa, r = .ok pa → ∀ a, pa ≤ a → a < pa + size → F (a / pageSize) := by
  rintro pa rfl a ha ha'
  obtain ⟨slot, hfound, _⟩ := (translate_triple m addr writing hsize).ok rfl hrun
  obtain ⟨hf, slot', e, hactive, hmapping, hvalid, _, hpage⟩ := (hfound.bytes ha ha').2
  refine h.mapped _ ⟨hf, slot', e, hactive, hmapping, hvalid, ?_, hpage⟩
  exact fun hno => absurd hno (by decide)

theorem blind_byteAt {a : Nat} (ha : F (a / pageSize)) : Blind F (byteAt a) := by
  intro m n h
  unfold byteAt
  rw [bind_run (show (get : MemSim Memory) m = .ok m m from rfl),
    bind_run (show (get : MemSim Memory) n = .ok n n from rfl)]
  by_cases hlt : a < memorySize
  · rw [dif_pos hlt, dif_pos hlt]
    exact ⟨(h.bytes ⟨a, hlt⟩ ha).symm, h⟩
  · rw [dif_neg hlt, dif_neg hlt]
    exact ⟨rfl, h⟩

theorem blind_fetch {pa size : Nat}
    (hF : ∀ a, pa ≤ a → a < pa + size → F (a / pageSize)) : Blind F (fetch pa size) := by
  have hbyte : ∀ k, k < size → Blind F (byteAt (pa + k)) :=
    fun k hk => blind_byteAt (hF _ (Nat.le_add_right pa k) (Nat.add_lt_add_left hk pa))
  unfold fetch
  by_cases h1 : size = 1
  · subst h1
    rw [if_pos rfl]
    exact (hbyte 0 (by decide)).bind fun _ => .pure
  rw [if_neg h1]
  by_cases h2 : size = 2
  · subst h2
    rw [if_pos rfl]
    exact (hbyte 1 (by decide)).bind fun _ => (hbyte 0 (by decide)).bind fun _ => .pure
  rw [if_neg h2]
  by_cases h4 : size = 4
  · subst h4
    rw [if_pos rfl]
    exact (hbyte 3 (by decide)).bind fun _ => (hbyte 2 (by decide)).bind fun _ =>
      (hbyte 1 (by decide)).bind fun _ => (hbyte 0 (by decide)).bind fun _ => .pure
  · rw [if_neg h4]
    exact .throw

theorem blind_setByteAt (a : Nat) (b : UInt8) : Blind F (setByteAt a b) := by
  intro m n h
  unfold setByteAt
  rw [bind_run (show (get : MemSim Memory) m = .ok m m from rfl),
    bind_run (show (get : MemSim Memory) n = .ok n n from rfl)]
  by_cases hlt : a < memorySize
  · rw [if_pos hlt, if_pos hlt]
    refine ⟨rfl, ?_, fun j hj => ?_, h.mapped⟩
    · show ({ n with mainMemory := _ } : Memory) = _
      rw [h.rest]
    · show (if j.val = a then b else n.mainMemory j) = if j.val = a then b else m.mainMemory j
      rw [h.bytes j hj]
  · rw [if_neg hlt, if_neg hlt]
    exact ⟨rfl, h⟩

theorem blind_store (pa size : Nat) (value : Word) : Blind F (store pa size value) := by
  have hbytes : ∀ n, Blind F (storeBytes pa value n) := by
    intro n
    induction n with
    | zero => exact .pure
    | succ n ih => exact ih.bind fun _ => blind_setByteAt _ _
  unfold store
  exact .ite (hbytes size) .throw

/-! ## Registers and memory -/

/-- The same registers, and memories that differ outside `F`. -/
structure SameView (F : Nat → Prop) (m n : Machine) : Prop where
  registers : n.registers = m.registers
  memory : SameFrames F m.memory n.memory

theorem SameView.symm {m n : Machine} (h : SameView F m n) : SameView F n m :=
  ⟨h.registers.symm, h.memory.symm⟩

/-- In lockstep when the memories differ outside `F`. -/
abbrev Unseen (F : Nat → Prop) {α : Type} (x : Sim α) : Prop := Lockstep (SameView F) x

theorem unseen_reg (j : Reg) : Unseen F (reg j) :=
  fun _ _ h => ⟨congrFun h.registers.symm j, h⟩

theorem unseen_setReg (j : Reg) (v : Word) : Unseen F (setReg j v) := by
  intro m n h
  refine ⟨rfl, ?_, h.memory⟩
  show (fun k => if k = j then v else n.registers k) = fun k => if k = j then v else m.registers k
  rw [h.registers]

theorem unseen_registers : SharesRegisters (SameView F) := ⟨unseen_reg, unseen_setReg⟩

theorem unseen_onMemory {α : Type} {x : MemSim α} (hx : Blind F x) : Unseen F (onMemory x) := by
  intro m n h
  have hrun := hx m.memory n.memory h.memory
  unfold onMemory
  cases hm : x m.memory with
  | ok a mem =>
    cases hn : x n.memory with
    | ok b mem' =>
      rw [hm, hn] at hrun
      exact ⟨hrun.1, h.registers, hrun.2⟩
    | error e mem' => rw [hm, hn] at hrun; exact hrun.elim
  | error e mem =>
    cases hn : x n.memory with
    | ok b mem' => rw [hm, hn] at hrun; exact hrun.elim
    | error e' mem' =>
      rw [hm, hn] at hrun
      exact ⟨hrun.1, h.registers, hrun.2⟩

theorem SameView.found {m n s : Machine} (h : SameView F m n) {addr : Word} {size : Nat}
    {writing : Bool} {r : Except ExceptionType Nat} (hsize : size = 1 ∨ size = 2 ∨ size = 4)
    (hrun : onMemory (translate addr size writing) m = .ok r s) :
    ∀ pa, r = .ok pa → ∀ a, pa ≤ a → a < pa + size → F (a / pageSize) := by
  unfold onMemory at hrun
  cases hm : translate addr size writing m.memory with
  | error e mem =>
    rw [hm] at hrun
    cases hrun
  | ok r' mem =>
    rw [hm] at hrun
    cases hrun
    exact h.memory.found hsize hm

theorem unseen_readMem (addr : Word) {size : Nat} (hsize : size = 1 ∨ size = 2 ∨ size = 4) :
    Unseen F (readMem addr size) := by
  unfold readMem
  refine (unseen_onMemory (blind_translate addr false hsize)).bindOf
    (fun s t r s' h hrun => h.found hsize hrun) fun found hfound => ?_
  cases found with
  | error e => exact unseen_registers.raiseException e addr
  | ok pa => exact unseen_onMemory (blind_fetch (hfound pa rfl))

theorem unseen_writeMem (addr : Word) {size : Nat} (value : Word)
    (hsize : size = 1 ∨ size = 2 ∨ size = 4) : Unseen F (writeMem addr size value) := by
  unfold writeMem
  refine (unseen_onMemory (blind_translate addr true hsize)).bind fun found => ?_
  cases found with
  | error e => exact unseen_registers.raiseException e addr
  | ok pa => exact unseen_onMemory (blind_store pa size value)

/-! ## The instruction -/

theorem unseen_respected : Respected (SameView F) where
  toSharesRegisters := unseen_registers
  readMem := fun addr _ hsize => unseen_readMem addr hsize
  writeMem := fun addr _ value hsize => unseen_writeMem addr value hsize

theorem unseen_oneInstruction : Unseen F oneInstruction := unseen_respected.oneInstruction

end Machine
end Nachos
