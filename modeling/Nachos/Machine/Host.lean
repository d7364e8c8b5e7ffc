import Nachos.Machine.Unaligned

/-!
# The host

`ReadMem` and `WriteMem` go through pointers to the integers of the processor that
runs the simulator.  Its byte order makes no difference, and the sign of its `char`
none to a program.
-/

namespace Nachos
namespace Machine

open Lib WordBytes

/-- The processor that runs the simulator.  `bigEndian` is `HOST_IS_BIG_ENDIAN`. -/
structure Host where
  bigEndian : Bool
  charSigned : Bool

namespace Host

variable (h : Host)

/-! ## Integers in memory -/

/-- The bytes of an `unsigned short` in the order of their addresses. -/
def shortByte (value : BitVec 16) (k : Nat) : UInt8 :=
  ⟨byte value (if h.bigEndian then 1 - k else k)⟩

/-- The bytes of an `unsigned int`. -/
def wordByte (value : Word) (k : Nat) : UInt8 :=
  ⟨byte value (if h.bigEndian then 3 - k else k)⟩

/-- The `unsigned short` in two bytes of memory. -/
def shortOf (b₀ b₁ : UInt8) : BitVec 16 :=
  if h.bigEndian then b₀.toBitVec ++ b₁.toBitVec else b₁.toBitVec ++ b₀.toBitVec

/-- The `unsigned int` in four bytes of memory. -/
def wordOfBytes (b₀ b₁ b₂ b₃ : UInt8) : Word :=
  if h.bigEndian then b₀.toBitVec ++ b₁.toBitVec ++ b₂.toBitVec ++ b₃.toBitVec
  else b₃.toBitVec ++ b₂.toBitVec ++ b₁.toBitVec ++ b₀.toBitVec

/-- `WordToHost`, and `WordToMachine`. -/
def wordToHost (word : Word) : Word :=
  if h.bigEndian then
    ((word >>> 24) &&& 0x000000ff) ||| ((word >>> 8) &&& 0x0000ff00)
      ||| ((word <<< 8) &&& 0x00ff0000) ||| ((word <<< 24) &&& 0xff000000)
  else word

/-- `ShortToHost`, and `ShortToMachine`. -/
def shortToHost (shortword : BitVec 16) : BitVec 16 :=
  if h.bigEndian then ((shortword <<< 8) &&& 0xff00) ||| ((shortword >>> 8) &&& 0x00ff)
  else shortword

/-- An integer from a `char`. -/
def charToInt (c : UInt8) : Word :=
  if h.charSigned then c.toBitVec.signExtend 32 else c.toBitVec.zeroExtend 32

/-! ## Memory -/

/-- The `switch` of `ReadMem`. -/
def fetch (a : Nat) (size : Nat) : MemSim Word := do
  if size = 1 then return h.charToInt (← byteAt a)
  else if size = 2 then
    let b₁ ← byteAt (a + 1)
    let b₀ ← byteAt a
    return (h.shortToHost (h.shortOf b₀ b₁)).zeroExtend 32
  else if size = 4 then
    let b₃ ← byteAt (a + 3)
    let b₂ ← byteAt (a + 2)
    let b₁ ← byteAt (a + 1)
    let b₀ ← byteAt a
    return h.wordToHost (h.wordOfBytes b₀ b₁ b₂ b₃)
  else throw .assertion

/-- The `switch` of `WriteMem`. -/
def store (a : Nat) (size : Nat) (value : Word) : MemSim Unit := do
  if size = 1 then setByteAt a ⟨(value &&& 0xff).setWidth 8⟩
  else if size = 2 then
    let data := h.shortToHost ((value &&& 0xffff).setWidth 16)
    setByteAt a (h.shortByte data 0)
    setByteAt (a + 1) (h.shortByte data 1)
  else if size = 4 then
    let data := h.wordToHost value
    setByteAt a (h.wordByte data 0)
    setByteAt (a + 1) (h.wordByte data 1)
    setByteAt (a + 2) (h.wordByte data 2)
    setByteAt (a + 3) (h.wordByte data 3)
  else throw .assertion

/-- `Machine::ReadMem`. -/
def readMem (addr : Word) (size : Nat) : Sim Word := do
  match ← onMemory (translate addr size false) with
  | .error e => raiseException e addr
  | .ok physicalAddress => onMemory (h.fetch physicalAddress size)

/-- `Machine::WriteMem`. -/
def writeMem (addr : Word) (size : Nat) (value : Word) : Sim Unit := do
  match ← onMemory (translate addr size true) with
  | .error e => raiseException e addr
  | .ok physicalAddress => onMemory (h.store physicalAddress size value)

/-! ## Instructions -/

def loadByte (i : Instruction) (pcAfter : Word) (signed : Bool) : Sim Next := do
  let tmp ← effective i
  let value ← h.readMem tmp 1
  return { pcAfter, nextLoadReg := regNo i.rt, nextLoadValue :=
    if value &&& 0x80 ≠ 0 ∧ signed then value ||| 0xffffff00 else value &&& 0xff }

def loadHalf (i : Instruction) (pcAfter : Word) (signed : Bool) : Sim Next := do
  let tmp ← effective i
  if tmp &&& 1 ≠ 0 then raiseException .addressError tmp
  else
    let value ← h.readMem tmp 2
    return { pcAfter, nextLoadReg := regNo i.rt, nextLoadValue :=
      if value &&& 0x8000 ≠ 0 ∧ signed then value ||| 0xffff0000 else value &&& 0xffff }

def loadWord (i : Instruction) (pcAfter : Word) : Sim Next := do
  let tmp ← effective i
  if tmp &&& 3 ≠ 0 then raiseException .addressError tmp
  else
    let value ← h.readMem tmp 4
    return { pcAfter, nextLoadReg := regNo i.rt, nextLoadValue := value }

def loadUnaligned (i : Instruction) (pcAfter : Word) (merge : Word → Word → Word → Word) :
    Sim Next := do
  let tmp ← effective i
  let value ← h.readMem (wordOf tmp) 4
  let old ← forwarded i.rt
  return { pcAfter, nextLoadReg := regNo i.rt, nextLoadValue := merge tmp old value }

def storeReg (i : Instruction) (size : Nat) : Sim Unit := do
  let tmp ← effective i
  let v ← gpr i.rt
  h.writeMem tmp size v

def storeUnaligned (i : Instruction) (split : Word → Word → Word → Word) : Sim Unit := do
  let tmp ← effective i
  let value ← h.readMem (wordOf tmp) 4
  let new ← gpr i.rt
  h.writeMem (wordOf tmp) 4 (split tmp value new)

/-- The `switch` on the opcode: the cases that go to memory, and the others, which have
nothing to do with the host. -/
def execute (i : Instruction) : Sim Next := do
  let next ← reg nextPCReg
  let pcAfter := next + 4
  match i.opCode with
  | .lb => h.loadByte i pcAfter true
  | .lbu => h.loadByte i pcAfter false
  | .lh => h.loadHalf i pcAfter true
  | .lhu => h.loadHalf i pcAfter false
  | .lw => h.loadWord i pcAfter
  | .lwr => h.loadUnaligned i pcAfter mergeRight
  | .lwl => h.loadUnaligned i pcAfter mergeLeft
  | .sb => straight pcAfter (h.storeReg i 1)
  | .sh => straight pcAfter (h.storeReg i 2)
  | .sw => straight pcAfter (h.storeReg i 4)
  | .swr => straight pcAfter (h.storeUnaligned i splitRight)
  | .swl => straight pcAfter (h.storeUnaligned i splitLeft)
  | _ => Machine.execute i

/-- `Machine::OneInstruction`. -/
def oneInstruction : Sim Unit := do
  let pc ← reg pcReg
  let raw ← h.readMem pc 4
  let next ← h.execute (decode raw)
  retire next

/-! ## The byte order -/

theorem byte_wordToHost (word : Word) {k : Nat} (hk : k < 4) :
    byte (h.wordToHost word) k = byte word (if h.bigEndian then 3 - k else k) := by
  unfold wordToHost
  cases h.bigEndian with
  | false => rfl
  | true =>
    have hright24 : byte (word >>> 24) k = byte word (3 + k) := byte_shiftRight word 3 k
    have hright8 : byte (word >>> 8) k = byte word (1 + k) := byte_shiftRight word 1 k
    have hleft8 : byte (word <<< 8) k = if k < 1 then 0#8 else byte word (k - 1) :=
      byte_shiftLeft word 1 (by omega)
    have hleft24 : byte (word <<< 24) k = if k < 3 then 0#8 else byte word (k - 3) :=
      byte_shiftLeft word 3 (by omega)
    have hmask : ∀ x : BitVec 8, x &&& 255#8 = x := fun _ => BitVec.and_allOnes
    simp only [if_true, byte_or, byte_and, hright24, hright8, hleft8, hleft24]
    obtain rfl | rfl | rfl | rfl : k = 0 ∨ k = 1 ∨ k = 2 ∨ k = 3 := by omega
    · simp [byte, hmask]
    · simp [byte, hmask]
    · simp [byte, hmask]
    · simp [byte, hmask]

theorem byte_shortToHost (shortword : BitVec 16) {k : Nat} (hk : k < 2) :
    byte (h.shortToHost shortword) k = byte shortword (if h.bigEndian then 1 - k else k) := by
  unfold shortToHost
  cases h.bigEndian with
  | false => rfl
  | true =>
    have hleft : byte (shortword <<< 8) k = if k < 1 then 0#8 else byte shortword (k - 1) :=
      byte_shiftLeft shortword 1 (by omega)
    have hright : byte (shortword >>> 8) k = byte shortword (1 + k) := byte_shiftRight shortword 1 k
    have hmask : ∀ x : BitVec 8, x &&& 255#8 = x := fun _ => BitVec.and_allOnes
    simp only [if_true, byte_or, byte_and, hleft, hright]
    obtain rfl | rfl : k = 0 ∨ k = 1 := by omega
    · simp [byte, hmask]
    · simp [byte, hmask]

/-- What is stored has its bytes in the order of the machine. -/
theorem wordByte_wordToHost (word : Word) {k : Nat} (hk : k < 4) :
    h.wordByte (h.wordToHost word) k = byteOf word k := by
  obtain ⟨bigEndian, charSigned⟩ := h
  cases bigEndian with
  | false => rfl
  | true =>
    have hback : 3 - (3 - k) = k := by omega
    have hbyte := byte_wordToHost ⟨true, charSigned⟩ word (k := 3 - k) (by omega)
    rw [if_pos rfl, hback] at hbyte
    exact congrArg UInt8.ofBitVec hbyte

theorem shortByte_shortToHost (shortword : BitVec 16) {k : Nat} (hk : k < 2) :
    h.shortByte (h.shortToHost shortword) k = ⟨byte shortword k⟩ := by
  obtain ⟨bigEndian, charSigned⟩ := h
  cases bigEndian with
  | false => rfl
  | true =>
    have hback : 1 - (1 - k) = k := by omega
    have hbyte := byte_shortToHost ⟨true, charSigned⟩ shortword (k := 1 - k) (by omega)
    rw [if_pos rfl, hback] at hbyte
    exact congrArg UInt8.ofBitVec hbyte

theorem wordToHost_wordOfBytes (b₀ b₁ b₂ b₃ : UInt8) : h.wordToHost (h.wordOfBytes b₀ b₁ b₂ b₃) =
    b₃.toBitVec ++ b₂.toBitVec ++ b₁.toBitVec ++ b₀.toBitVec := by
  obtain ⟨bigEndian, charSigned⟩ := h
  cases bigEndian with
  | false => rfl
  | true =>
    refine ext fun k hk => ?_
    rw [byte_wordToHost _ _ (by omega), if_pos rfl]
    show byte (b₀.toBitVec ++ b₁.toBitVec ++ b₂.toBitVec ++ b₃.toBitVec) (3 - k) = _
    simp only [byte_append]
    obtain rfl | rfl | rfl | rfl : k = 0 ∨ k = 1 ∨ k = 2 ∨ k = 3 := by omega
    · simp [byte_zero]
    · simp
    · simp
    · simp [byte_zero]

theorem shortToHost_shortOf (b₀ b₁ : UInt8) :
    h.shortToHost (h.shortOf b₀ b₁) = b₁.toBitVec ++ b₀.toBitVec := by
  obtain ⟨bigEndian, charSigned⟩ := h
  cases bigEndian with
  | false => rfl
  | true =>
    refine ext fun k hk => ?_
    rw [byte_shortToHost _ _ (by omega), if_pos rfl]
    show byte (b₀.toBitVec ++ b₁.toBitVec) (1 - k) = _
    simp only [byte_append]
    obtain rfl | rfl : k = 0 ∨ k = 1 := by omega
    · simp [byte_zero]
    · simp [byte_zero]

/-! ## The same on every host -/

/-- What an unsigned `char` makes of the value of a byte. -/
def narrow (size : Nat) (value : Word) : Word :=
  if size = 1 ∧ h.charSigned = false then value &&& 0xff else value

theorem narrow_char (c : UInt8) : h.narrow 1 (c.toBitVec.signExtend 32) = h.charToInt c := by
  obtain ⟨bigEndian, charSigned⟩ := h
  cases charSigned with
  | true => rfl
  | false =>
    show c.toBitVec.signExtend 32 &&& 0xff = c.toBitVec.zeroExtend 32
    apply BitVec.eq_of_getLsbD_eq
    intro i hi
    have hmask : (0xff : Word).getLsbD i = (decide (i < 32) && decide (i < 8)) := by
      rw [show (0xff : Word) = BitVec.ofNat 32 (2 ^ 8 - 1) from rfl, BitVec.getLsbD_ofNat,
        Nat.testBit_two_pow_sub_one]
    rw [BitVec.getLsbD_and, hmask, BitVec.getLsbD_signExtend]
    by_cases hlow : i < 8
    · simp [hi, hlow]
    · simp [hlow, BitVec.getLsbD_of_ge c.toBitVec i (not_lt.mp hlow)]

theorem fetch_eq (a size : Nat) :
    h.fetch a size = (do return h.narrow size (← Machine.fetch a size)) := by
  unfold fetch Machine.fetch
  by_cases h1 : size = 1
  · subst h1
    simp only [if_true, bind_assoc, pure_bind, narrow_char]
  · have hnarrow : h.narrow size = id := funext fun value => if_neg fun hsize => h1 hsize.1
    simp only [hnarrow, if_neg h1, id]
    by_cases h2 : size = 2
    · simp only [if_pos h2, bind_assoc, pure_bind, shortToHost_shortOf]
    · simp only [if_neg h2]
      by_cases h4 : size = 4
      · simp only [if_pos h4, bind_assoc, pure_bind, wordToHost_wordOfBytes]
      · simp only [if_neg h4]
        rfl

theorem byte_setWidth (value : Word) {w k : Nat} (hk : 8 * k + 8 ≤ w) :
    byte (value.setWidth w) k = byte value k := by
  apply BitVec.eq_of_getLsbD_eq
  intro i hi
  have hlt : 8 * k + i < w := by omega
  rw [getLsbD_byte, getLsbD_byte, BitVec.getLsbD_setWidth]
  simp [hlt]

theorem low_byte (value : Word) : (value &&& 0xff).setWidth 8 = byte value 0 := by
  have hmask : (value &&& 0xff).setWidth 8 = value.setWidth 8 := by
    rw [BitVec.setWidth_and]
    exact BitVec.and_allOnes
  rw [hmask, ← byte_setWidth value (w := 8) (by decide), byte_zero]

theorem low_short (value : Word) {k : Nat} (hk : k < 2) :
    byte ((value &&& 0xffff).setWidth 16) k = byte value k := by
  have hmask : (value &&& 0xffff).setWidth 16 = value.setWidth 16 := by
    rw [BitVec.setWidth_and]
    exact BitVec.and_allOnes
  rw [hmask, byte_setWidth value (by omega)]

theorem store_eq (a size : Nat) (value : Word) :
    h.store a size value = Machine.store a size value := by
  unfold store Machine.store
  by_cases h1 : size = 1
  · subst h1
    rw [if_pos rfl, if_pos (.inl rfl), low_byte]
    simp only [storeBytes, pure_bind, Nat.add_zero]
    rfl
  · rw [if_neg h1]
    by_cases h2 : size = 2
    · subst h2
      rw [if_pos rfl, if_pos (.inr (.inl rfl))]
      simp only [storeBytes, pure_bind, Nat.add_zero,
        h.shortByte_shortToHost _ (k := 0) (by decide),
        h.shortByte_shortToHost _ (k := 1) (by decide),
        low_short value (k := 0) (by decide), low_short value (k := 1) (by decide)]
      rfl
    · rw [if_neg h2]
      by_cases h4 : size = 4
      · subst h4
        rw [if_pos rfl, if_pos (.inr (.inr rfl))]
        simp only [storeBytes, pure_bind, Nat.add_zero, bind_assoc,
          h.wordByte_wordToHost value (k := 0) (by decide),
          h.wordByte_wordToHost value (k := 1) (by decide),
          h.wordByte_wordToHost value (k := 2) (by decide),
          h.wordByte_wordToHost value (k := 3) (by decide)]
      · rw [if_neg h4, if_neg (by omega)]

theorem writeMem_eq : h.writeMem = Machine.writeMem := by
  funext addr size value
  unfold writeMem Machine.writeMem
  refine bind_congr fun found => ?_
  cases found with
  | error e => rfl
  | ok pa => exact congrArg onMemory (h.store_eq pa size value)

theorem onMemory_map {α β : Type} (x : MemSim α) (f : α → β) :
    onMemory (x >>= fun a => pure (f a)) = onMemory x >>= fun a => pure (f a) := by
  funext m
  cases hx : x m.memory with
  | ok a mem =>
    have hrun : onMemory x m = .ok a { m with memory := mem } := by
      unfold onMemory
      rw [hx]
    rw [bind_run hrun]
    unfold onMemory
    rw [bind_run hx]
    rfl
  | error e mem =>
    have hrun : onMemory x m = .error e { m with memory := mem } := by
      unfold onMemory
      rw [hx]
    rw [bind_error hrun]
    unfold onMemory
    rw [bind_error hx]

theorem raiseException_bind {α β : Type} (which : ExceptionType) (addr : Word) (f : α → Sim β) :
    raiseException which addr >>= f = (raiseException which addr : Sim β) := by
  unfold raiseException
  rw [bind_assoc]
  refine bind_congr fun _ => ?_
  rw [bind_assoc]
  refine bind_congr fun _ => ?_
  rfl

/-- The hosts differ in the value of one byte only. -/
theorem readMem_eq (addr : Word) (size : Nat) :
    h.readMem addr size =
      Machine.readMem addr size >>= fun value => pure (h.narrow size value) := by
  unfold readMem Machine.readMem
  rw [bind_assoc]
  refine bind_congr fun found => ?_
  cases found with
  | error e => exact (raiseException_bind e addr _).symm
  | ok pa =>
    show onMemory (h.fetch pa size) = _
    rw [fetch_eq]
    exact onMemory_map _ _

/-- What is wider than a byte is read the same way on every host. -/
theorem readMem_wide (addr : Word) {size : Nat} (hsize : size ≠ 1) :
    h.readMem addr size = Machine.readMem addr size := by
  have hnarrow : ∀ value, h.narrow size value = value := fun value =>
    if_neg fun hone => hsize hone.1
  rw [readMem_eq]
  simp only [hnarrow, bind_pure]

/-- LB and LBU look at the low byte only. -/
theorem loaded_narrow (value : Word) (signed : Bool) :
    (if value &&& 0xff &&& 0x80 ≠ 0 ∧ signed then value &&& 0xff ||| 0xffffff00
      else value &&& 0xff &&& 0xff) =
      if value &&& 0x80 ≠ 0 ∧ signed then value ||| 0xffffff00 else value &&& 0xff := by
  have hmask : value &&& 0xff &&& 0x80 = value &&& 0x80 := by
    rw [BitVec.and_assoc]
    rfl
  have hlow : value &&& 0xff &&& 0xff = value &&& 0xff := by rw [BitVec.and_assoc, BitVec.and_self]
  have hsign : value &&& 0xff ||| 0xffffff00 = value ||| 0xffffff00 := by
    have hones : ∀ x : BitVec 8, x ||| 255#8 = 255#8 := fun _ => BitVec.or_allOnes
    have hmask : ∀ x : BitVec 8, x &&& 255#8 = x := fun _ => BitVec.and_allOnes
    refine ext fun k hk => ?_
    rw [byte_or, byte_or, byte_and]
    obtain rfl | rfl | rfl | rfl : k = 0 ∨ k = 1 ∨ k = 2 ∨ k = 3 := by omega
    · simp [byte, hmask]
    · simp [byte, hones]
    · simp [byte, hones]
    · simp [byte, hones]
  rw [hmask, hlow, hsign]

theorem loadByte_eq (i : Instruction) (pcAfter : Word) (signed : Bool) :
    h.loadByte i pcAfter signed = Machine.loadByte i pcAfter signed := by
  unfold loadByte Machine.loadByte
  refine bind_congr fun tmp => ?_
  rw [readMem_eq, bind_assoc]
  refine bind_congr fun value => ?_
  rw [pure_bind]
  by_cases hsigned : h.charSigned = false
  · have hnarrow : h.narrow 1 value = value &&& 0xff := if_pos ⟨rfl, hsigned⟩
    rw [hnarrow, loaded_narrow]
  · have hnarrow : h.narrow 1 value = value := if_neg fun hone => hsigned hone.2
    rw [hnarrow]

/-- An instruction does the same on every host. -/
theorem execute_eq : h.execute = Machine.execute := by
  funext i
  have hhalf : ∀ addr, h.readMem addr 2 = Machine.readMem addr 2 := fun addr =>
    h.readMem_wide addr (by decide)
  have hword : ∀ addr, h.readMem addr 4 = Machine.readMem addr 4 := fun addr =>
    h.readMem_wide addr (by decide)
  have hloadHalf : h.loadHalf = Machine.loadHalf := by
    funext i pcAfter signed
    unfold loadHalf Machine.loadHalf
    simp only [hhalf]
  have hloadWord : h.loadWord = Machine.loadWord := by
    funext i pcAfter
    unfold loadWord Machine.loadWord
    simp only [hword]
  have hloadUnaligned : h.loadUnaligned = Machine.loadUnaligned := by
    funext i pcAfter merge
    unfold loadUnaligned Machine.loadUnaligned
    simp only [hword]
  have hstoreReg : h.storeReg = Machine.storeReg := by
    funext i size
    unfold storeReg Machine.storeReg
    rw [writeMem_eq]
  have hstoreUnaligned : h.storeUnaligned = Machine.storeUnaligned := by
    funext i split
    unfold storeUnaligned Machine.storeUnaligned
    simp only [hword, writeMem_eq]
  obtain ⟨value, opCode, rs, rt, rd, extra⟩ := i
  unfold execute
  rw [hloadHalf, hloadWord, hloadUnaligned, hstoreReg, hstoreUnaligned]
  funext m
  rw [bind_run (show reg nextPCReg m = .ok _ m from rfl)]
  cases opCode with
  | lb => exact congrFun (h.loadByte_eq _ _ true) m
  | lbu => exact congrFun (h.loadByte_eq _ _ false) m
  | _ => rfl

theorem oneInstruction_eq : h.oneInstruction = Machine.oneInstruction := by
  unfold oneInstruction Machine.oneInstruction
  rw [execute_eq]
  refine bind_congr fun pc => ?_
  rw [h.readMem_wide pc (by decide)]

end Host
end Machine
end Nachos
