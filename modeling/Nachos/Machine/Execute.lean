import Nachos.Machine.Memory

/-!
# One instruction

`Machine::OneInstruction`.  Opcodes that differ in an operator only are written
with one routine that takes the operator; the others have a routine of their
own.
-/

namespace Nachos
namespace Machine

/-- What is left to do after the `switch`: the next pc, and the load to start.
The defaults are the initial values of `nextLoadReg` and `nextLoadValue`. -/
structure Next where
  pcAfter : Word
  nextLoadReg : Word := 0
  nextLoadValue : Word := 0

/-- `SIGN_BIT` is set. -/
def sign (w : Word) : Bool := w &&& 0x80000000 ≠ 0

def indexToAddr (w : Word) : Word := w <<< 2

def gpr (r : GPReg) : Sim Word := reg (gp r)

def setGpr (r : GPReg) (v : Word) : Sim Unit := setReg (gp r) v

/-! ## Multiplication -/

/-- The loop of `Mult`, with `n` rounds left. -/
def multLoop : (n : Nat) → (a bHi bLo hi lo : Word) → Word × Word
  | 0, _, _, _, hi, lo => (hi, lo)
  | n + 1, a, bHi, bLo, hi, lo =>
    let odd := a &&& 1 ≠ 0
    let lo' := if odd then lo + bLo else lo
    let hi' := if odd then (if lo' < bLo then hi + 1 else hi) + bHi else hi
    if odd ∧ a &&& 0xfffffffe = 0 then (hi', lo')
    else
      multLoop n (a.sshiftRight 1) ((bHi <<< 1) ||| (if sign bLo then 1 else 0)) (bLo <<< 1)
        hi' lo'

/-- The static `Mult`: the values stored through `hiPtr` and `loPtr`. -/
def mult (a b : Word) (signedArith : Bool) : Word × Word :=
  if a = 0 ∨ b = 0 then (0, 0)
  else
    let negative := signedArith && (a.slt 0 != b.slt 0)
    let a' := if signedArith && a.slt 0 then -a else a
    let b' := if signedArith && b.slt 0 then -b else b
    let (hi, lo) := multLoop 32 a' 0 b' 0 0
    if negative then
      let lo' := ~~~lo + 1
      (if lo' = 0 then ~~~hi + 1 else ~~~hi, lo')
    else (hi, lo)

/-! ## Families of opcodes -/

/-- `registers[d] = f(registers[a], registers[b])` -/
def alu (d a b : GPReg) (f : Word → Word → Word) : Sim Unit := do
  let x ← gpr a
  let y ← gpr b
  setGpr d (f x y)

/-- `registers[d] = f(registers[a])` -/
def aluImm (d a : GPReg) (f : Word → Word) : Sim Unit := do
  let x ← gpr a
  setGpr d (f x)

def setOnLess (less : Bool) : Word := if less then 1 else 0

/-- `registers[d] = result`, or the trap. -/
def trapping (d : GPReg) (result : Word) (overflow : Bool) : Sim Unit :=
  if overflow then raiseException .overflow 0 else setGpr d result

def branch (i : Instruction) (pcAfter : Word) (taken : Bool) : Sim Next := do
  let next ← reg nextPCReg
  return { pcAfter := if taken then next + indexToAddr i.extra else pcAfter }

/-- `registers[d] = registers[NextPCReg] + 4` -/
def link (d : GPReg) : Sim Unit := do
  let next ← reg nextPCReg
  setGpr d (next + 4)

def jump (i : Instruction) (pcAfter : Word) : Sim Next :=
  return { pcAfter := (pcAfter &&& 0xf0000000) ||| indexToAddr i.extra }

def setHiLo (hi lo : Word) : Sim Unit := do
  setReg loReg lo
  setReg hiReg hi

/-- `OP_DIV`.  The host traps the one quotient that is out of range. -/
def divSigned (a b : Word) : Sim Unit :=
  if b = 0 then setHiLo 0 0
  else if a = 0x80000000 ∧ b = 0xffffffff then throw .hostDivide
  else setHiLo (a.srem b) (a.sdiv b)

def divUnsigned (a b : Word) : Sim Unit :=
  if b = 0 then setHiLo 0 0 else setHiLo (a.umod b) (a.udiv b)

/-! ## Loads and stores -/

/-- The register field as the simulator stores it in `LoadReg`. -/
def regNo (r : GPReg) : Word := BitVec.ofNat 32 r

/-- The address `registers[rs] + extra`. -/
def effective (i : Instruction) : Sim Word := do
  let base ← gpr i.rs
  return base + i.extra

/-- `tmp & ~0x3`, the word around an unaligned address. -/
def wordOf (tmp : Word) : Word := tmp &&& ~~~3

def loadByte (i : Instruction) (pcAfter : Word) (signed : Bool) : Sim Next := do
  let tmp ← effective i
  let value ← readMem tmp 1
  return { pcAfter, nextLoadReg := regNo i.rt, nextLoadValue :=
    if value &&& 0x80 ≠ 0 ∧ signed then value ||| 0xffffff00 else value &&& 0xff }

def loadHalf (i : Instruction) (pcAfter : Word) (signed : Bool) : Sim Next := do
  let tmp ← effective i
  if tmp &&& 1 ≠ 0 then raiseException .addressError tmp
  else
    let value ← readMem tmp 2
    return { pcAfter, nextLoadReg := regNo i.rt, nextLoadValue :=
      if value &&& 0x8000 ≠ 0 ∧ signed then value ||| 0xffff0000 else value &&& 0xffff }

def loadWord (i : Instruction) (pcAfter : Word) : Sim Next := do
  let tmp ← effective i
  if tmp &&& 3 ≠ 0 then raiseException .addressError tmp
  else
    let value ← readMem tmp 4
    return { pcAfter, nextLoadReg := regNo i.rt, nextLoadValue := value }

/-- The register an unaligned load merges into, with a pending load to it taken
into account. -/
def forwarded (rt : GPReg) : Sim Word := do
  let pending ← reg loadReg
  if pending = regNo rt then reg loadValueReg else gpr rt

/-- What LWR makes of the old value of the register and the word in memory. -/
def mergeRight (tmp old value : Word) : Word :=
  if tmp &&& 3 = 0 then value
  else if tmp &&& 3 = 1 then (old &&& 0xff000000) ||| ((value >>> 8) &&& 0xffffff)
  else if tmp &&& 3 = 2 then (old &&& 0xffff0000) ||| ((value >>> 16) &&& 0xffff)
  else (old &&& 0xffffff00) ||| ((value >>> 24) &&& 0xff)

def mergeLeft (tmp old value : Word) : Word :=
  if tmp &&& 3 = 0 then (old &&& 0xff) ||| (value <<< 8)
  else if tmp &&& 3 = 1 then (old &&& 0xffff) ||| (value <<< 16)
  else if tmp &&& 3 = 2 then (old &&& 0xffffff) ||| (value <<< 24)
  else value

def loadUnaligned (i : Instruction) (pcAfter : Word) (merge : Word → Word → Word → Word) :
    Sim Next := do
  let tmp ← effective i
  let value ← readMem (wordOf tmp) 4
  let old ← forwarded i.rt
  return { pcAfter, nextLoadReg := regNo i.rt, nextLoadValue := merge tmp old value }

def storeReg (i : Instruction) (size : Nat) : Sim Unit := do
  let tmp ← effective i
  let v ← gpr i.rt
  writeMem tmp size v

/-- The word SWR puts in place of `value`. -/
def splitRight (tmp value new : Word) : Word :=
  if tmp &&& 3 = 0 then new
  else if tmp &&& 3 = 1 then (value &&& 0xff) ||| (new <<< 8)
  else if tmp &&& 3 = 2 then (value &&& 0xffff) ||| (new <<< 16)
  else (value &&& 0xffffff) ||| (new <<< 24)

def splitLeft (tmp value new : Word) : Word :=
  if tmp &&& 3 = 0 then (value &&& 0xffffff00) ||| ((new >>> 24) &&& 0xff)
  else if tmp &&& 3 = 1 then (value &&& 0xffff0000) ||| ((new >>> 16) &&& 0xffff)
  else if tmp &&& 3 = 2 then (value &&& 0xff000000) ||| ((new >>> 8) &&& 0xffffff)
  else new

def storeUnaligned (i : Instruction) (split : Word → Word → Word → Word) : Sim Unit := do
  let tmp ← effective i
  let value ← readMem (wordOf tmp) 4
  let new ← gpr i.rt
  writeMem (wordOf tmp) 4 (split tmp value new)

/-! ## The switch -/

/-- The opcodes after which the program goes on with `pcAfter` and no load is
started. -/
def straight (pcAfter : Word) (x : Sim Unit) : Sim Next := do
  x
  return { pcAfter }

/-- The `switch` on the opcode. -/
def execute (i : Instruction) : Sim Next := do
  let next ← reg nextPCReg
  let pcAfter := next + 4
  match i.opCode with
  | .add => straight pcAfter do
      let a ← gpr i.rs
      let b ← gpr i.rt
      trapping i.rd (a + b) (!sign (a ^^^ b) && sign (a ^^^ (a + b)))
  | .addi => straight pcAfter do
      let a ← gpr i.rs
      trapping i.rt (a + i.extra) (!sign (a ^^^ i.extra) && sign (i.extra ^^^ (a + i.extra)))
  | .addiu => straight pcAfter (aluImm i.rt i.rs fun a => a + i.extra)
  | .addu => straight pcAfter (alu i.rd i.rs i.rt fun a b => a + b)
  | .and => straight pcAfter (alu i.rd i.rs i.rt fun a b => a &&& b)
  | .andi => straight pcAfter (aluImm i.rt i.rs fun a => a &&& (i.extra &&& 0xffff))
  | .beq => do
      let a ← gpr i.rs
      let b ← gpr i.rt
      branch i pcAfter (a = b)
  | .bgezal => do
      link 31
      let a ← gpr i.rs
      branch i pcAfter (!sign a)
  | .bgez => do
      let a ← gpr i.rs
      branch i pcAfter (!sign a)
  | .bgtz => do
      let a ← gpr i.rs
      branch i pcAfter ((0 : Word).slt a)
  | .blez => do
      let a ← gpr i.rs
      branch i pcAfter (a.sle 0)
  | .bltzal => do
      link 31
      let a ← gpr i.rs
      branch i pcAfter (sign a)
  | .bltz => do
      let a ← gpr i.rs
      branch i pcAfter (sign a)
  | .bne => do
      let a ← gpr i.rs
      let b ← gpr i.rt
      branch i pcAfter (a ≠ b)
  | .div => straight pcAfter do
      let a ← gpr i.rs
      let b ← gpr i.rt
      divSigned a b
  | .divu => straight pcAfter do
      let a ← gpr i.rs
      let b ← gpr i.rt
      divUnsigned a b
  | .jal => do
      link 31
      jump i pcAfter
  | .j => jump i pcAfter
  | .jalr => do
      link i.rd
      let a ← gpr i.rs
      return { pcAfter := a }
  | .jr => do
      let a ← gpr i.rs
      return { pcAfter := a }
  | .lb => loadByte i pcAfter true
  | .lbu => loadByte i pcAfter false
  | .lh => loadHalf i pcAfter true
  | .lhu => loadHalf i pcAfter false
  | .lui => straight pcAfter (setGpr i.rt (i.extra <<< 16))
  | .lw => loadWord i pcAfter
  | .lwr => loadUnaligned i pcAfter mergeRight
  | .lwl => loadUnaligned i pcAfter mergeLeft
  | .mfhi => straight pcAfter (do setGpr i.rd (← reg hiReg))
  | .mflo => straight pcAfter (do setGpr i.rd (← reg loReg))
  | .mthi => straight pcAfter (do setReg hiReg (← gpr i.rs))
  | .mtlo => straight pcAfter (do setReg loReg (← gpr i.rs))
  | .mult => straight pcAfter do
      let a ← gpr i.rs
      let b ← gpr i.rt
      setHiLo (mult a b true).1 (mult a b true).2
  | .multu => straight pcAfter do
      let a ← gpr i.rs
      let b ← gpr i.rt
      setHiLo (mult a b false).1 (mult a b false).2
  | .nor => straight pcAfter (alu i.rd i.rs i.rt fun a b => ~~~(a ||| b))
  | .or => straight pcAfter (alu i.rd i.rs i.rt fun a b => a ||| b)
  | .ori => straight pcAfter (aluImm i.rt i.rs fun a => a ||| (i.extra &&& 0xffff))
  | .sb => straight pcAfter (storeReg i 1)
  | .sh => straight pcAfter (storeReg i 2)
  | .sll => straight pcAfter (aluImm i.rd i.rt fun a => a <<< i.extra)
  | .sllv => straight pcAfter (alu i.rd i.rs i.rt fun a b => b <<< (a &&& 0x1f))
  | .slt => straight pcAfter (alu i.rd i.rs i.rt fun a b => setOnLess (a.slt b))
  | .slti => straight pcAfter (aluImm i.rt i.rs fun a => setOnLess (a.slt i.extra))
  | .sltiu => straight pcAfter (aluImm i.rt i.rs fun a => setOnLess (a.ult i.extra))
  | .sltu => straight pcAfter (alu i.rd i.rs i.rt fun a b => setOnLess (a.ult b))
  | .sra => straight pcAfter (aluImm i.rd i.rt fun a => a.sshiftRight' i.extra)
  | .srav => straight pcAfter (alu i.rd i.rs i.rt fun a b => b.sshiftRight' (a &&& 0x1f))
  | .srl => straight pcAfter (aluImm i.rd i.rt fun a => a >>> i.extra)
  | .srlv => straight pcAfter (alu i.rd i.rs i.rt fun a b => b >>> (a &&& 0x1f))
  | .sub => straight pcAfter do
      let a ← gpr i.rs
      let b ← gpr i.rt
      trapping i.rd (a - b) (sign (a ^^^ b) && sign (a ^^^ (a - b)))
  | .subu => straight pcAfter (alu i.rd i.rs i.rt fun a b => a - b)
  | .sw => straight pcAfter (storeReg i 4)
  | .swr => straight pcAfter (storeUnaligned i splitRight)
  | .swl => straight pcAfter (storeUnaligned i splitLeft)
  | .syscall => raiseException .syscall 0
  | .xor => straight pcAfter (alu i.rd i.rs i.rt fun a b => a ^^^ b)
  | .xori => straight pcAfter (aluImm i.rt i.rs fun a => a ^^^ (i.extra &&& 0xffff))
  | .res | .unimp => raiseException .illegalInstr 0
  | .rfe => throw .assertion

/-- What follows the `switch`: the delayed load, and the program counters. -/
def retire (next : Next) : Sim Unit := do
  delayedLoad next.nextLoadReg next.nextLoadValue
  setReg prevPCReg (← reg pcReg)
  setReg pcReg (← reg nextPCReg)
  setReg nextPCReg next.pcAfter

/-- `Machine::OneInstruction`. -/
def oneInstruction : Sim Unit := do
  let pc ← reg pcReg
  let raw ← readMem pc 4
  let next ← execute (decode raw)
  retire next

end Machine
end Nachos
