import Mathlib.Algebra.Group.Nat.Defs
import Mathlib.Algebra.GroupWithZero.Nat
import Mathlib.Data.Fin.Basic

/-!
# MIPS instruction words

`Instruction::Decode` with the tables of `mipssim.h`, and which general
registers an instruction names as operands.
-/

namespace Nachos
namespace Machine

/-- A 32-bit `int` or `unsigned int` of the simulator. -/
abbrev Word := BitVec 32

instance neZeroGPRegs : NeZero 32 := ⟨by decide⟩

/-- A general register, as a five-bit field of an instruction names it. -/
abbrev GPReg := Fin 32

/-- The opcodes of `mipssim.h`.  `rfe` is in no table: `Decode` never yields
it. -/
inductive OpCode
  | add | addi | addiu | addu | and | andi | beq | bgez | bgezal | bgtz | blez | bltz | bltzal
  | bne | div | divu | j | jal | jalr | jr | lb | lbu | lh | lhu | lui | lw | lwl | lwr | mfhi
  | mflo | mthi | mtlo | mult | multu | nor | or | ori | rfe | sb | sh | sll | sllv | slt | slti
  | sltiu | sltu | sra | srav | srl | srlv | sub | subu | sw | swl | swr | xor | xori | syscall
  | unimp | res
  deriving DecidableEq, Repr

/-! ## The tables -/

inductive Format
  | ifmt | jfmt | rfmt
  deriving DecidableEq

/-- The first field of an `OpInfo`: an opcode, or one of the two values that
ask for further decoding. -/
inductive Primary
  | special
  | bcond
  | op (opCode : OpCode)
  deriving DecidableEq

structure OpInfo where
  opCode : Primary
  format : Format

/-- Bits 31:26 of the instruction. -/
def opTable : Vector OpInfo 64 :=
  #v[⟨.special, .rfmt⟩, ⟨.bcond, .ifmt⟩, ⟨.op .j, .jfmt⟩, ⟨.op .jal, .jfmt⟩,
    ⟨.op .beq, .ifmt⟩, ⟨.op .bne, .ifmt⟩, ⟨.op .blez, .ifmt⟩, ⟨.op .bgtz, .ifmt⟩,
    ⟨.op .addi, .ifmt⟩, ⟨.op .addiu, .ifmt⟩, ⟨.op .slti, .ifmt⟩, ⟨.op .sltiu, .ifmt⟩,
    ⟨.op .andi, .ifmt⟩, ⟨.op .ori, .ifmt⟩, ⟨.op .xori, .ifmt⟩, ⟨.op .lui, .ifmt⟩,
    ⟨.op .unimp, .ifmt⟩, ⟨.op .unimp, .ifmt⟩, ⟨.op .unimp, .ifmt⟩, ⟨.op .unimp, .ifmt⟩,
    ⟨.op .res, .ifmt⟩, ⟨.op .res, .ifmt⟩, ⟨.op .res, .ifmt⟩, ⟨.op .res, .ifmt⟩,
    ⟨.op .res, .ifmt⟩, ⟨.op .res, .ifmt⟩, ⟨.op .res, .ifmt⟩, ⟨.op .res, .ifmt⟩,
    ⟨.op .res, .ifmt⟩, ⟨.op .res, .ifmt⟩, ⟨.op .res, .ifmt⟩, ⟨.op .res, .ifmt⟩,
    ⟨.op .lb, .ifmt⟩, ⟨.op .lh, .ifmt⟩, ⟨.op .lwl, .ifmt⟩, ⟨.op .lw, .ifmt⟩,
    ⟨.op .lbu, .ifmt⟩, ⟨.op .lhu, .ifmt⟩, ⟨.op .lwr, .ifmt⟩, ⟨.op .res, .ifmt⟩,
    ⟨.op .sb, .ifmt⟩, ⟨.op .sh, .ifmt⟩, ⟨.op .swl, .ifmt⟩, ⟨.op .sw, .ifmt⟩,
    ⟨.op .res, .ifmt⟩, ⟨.op .res, .ifmt⟩, ⟨.op .swr, .ifmt⟩, ⟨.op .res, .ifmt⟩,
    ⟨.op .unimp, .ifmt⟩, ⟨.op .unimp, .ifmt⟩, ⟨.op .unimp, .ifmt⟩, ⟨.op .unimp, .ifmt⟩,
    ⟨.op .res, .ifmt⟩, ⟨.op .res, .ifmt⟩, ⟨.op .res, .ifmt⟩, ⟨.op .res, .ifmt⟩,
    ⟨.op .unimp, .ifmt⟩, ⟨.op .unimp, .ifmt⟩, ⟨.op .unimp, .ifmt⟩, ⟨.op .unimp, .ifmt⟩,
    ⟨.op .res, .ifmt⟩, ⟨.op .res, .ifmt⟩, ⟨.op .res, .ifmt⟩, ⟨.op .res, .ifmt⟩]

/-- The "funct" field of a SPECIAL instruction. -/
def specialTable : Vector OpCode 64 :=
  #v[.sll, .res, .srl, .sra, .sllv, .res, .srlv, .srav,
    .jr, .jalr, .res, .res, .syscall, .unimp, .res, .res,
    .mfhi, .mthi, .mflo, .mtlo, .res, .res, .res, .res,
    .mult, .multu, .div, .divu, .res, .res, .res, .res,
    .add, .addu, .sub, .subu, .and, .or, .xor, .nor,
    .res, .res, .slt, .sltu, .res, .res, .res, .res,
    .res, .res, .res, .res, .res, .res, .res, .res,
    .res, .res, .res, .res, .res, .res, .res, .res]

/-! ## Decoding -/

structure Instruction where
  value : Word
  opCode : OpCode
  rs : GPReg
  rt : GPReg
  rd : GPReg
  /-- Immediate or target or shamt field or offset; immediates are
  sign-extended. -/
  extra : Word
  deriving DecidableEq

/-- The `n` bits of the word from bit `lo` on, as an index. -/
def field (value : Word) (lo n : Nat) : Fin (2 ^ n) := (value.extractLsb' lo n).toFin

def immediate (value : Word) : Word :=
  let extra := value &&& 0xffff
  if extra &&& 0x8000 ≠ 0 then extra ||| 0xffff0000 else extra

/-- Which branch on a register a BCOND instruction is. -/
def bcond (value : Word) : OpCode :=
  let i := value &&& 0x1f0000
  if i = 0 then .bltz
  else if i = 0x10000 then .bgez
  else if i = 0x100000 then .bltzal
  else if i = 0x110000 then .bgezal
  else .unimp

/-- `Instruction::Decode`. -/
def decode (value : Word) : Instruction :=
  let info := opTable.get (field value 26 6)
  { value := value
    rs := field value 21 5
    rt := field value 16 5
    rd := field value 11 5
    extra := match info.format with
      | .ifmt => immediate value
      | .rfmt => (value >>> 6) &&& 0x1f
      | .jfmt => value &&& 0x3ffffff
    opCode := match info.opCode with
      | .special => specialTable.get (field value 0 6)
      | .bcond => bcond value
      | .op opCode => opCode }

/-! ## Operands -/

/-- The general registers the instruction takes operands from.  The register
that LWL and LWR merge into is not among them. -/
def Instruction.sources (i : Instruction) : List GPReg :=
  match i.opCode with
  | .add | .addu | .and | .beq | .bne | .div | .divu | .mult | .multu | .nor | .or | .sllv | .slt
  | .sltu | .srav | .srlv | .sub | .subu | .xor | .sb | .sh | .sw | .swl | .swr => [i.rs, i.rt]
  | .addi | .addiu | .andi | .bgez | .bgezal | .bgtz | .blez | .bltz | .bltzal | .jalr | .jr | .lb
  | .lbu | .lh | .lhu | .lw | .lwl | .lwr | .mthi | .mtlo | .ori | .slti | .sltiu | .xori => [i.rs]
  | .sll | .sra | .srl => [i.rt]
  | .j | .jal | .lui | .mfhi | .mflo | .syscall | .unimp | .res | .rfe => []

/-- The general register the instruction writes at once.  A load writes none:
its value arrives after the next instruction. -/
def Instruction.dest (i : Instruction) : Option GPReg :=
  match i.opCode with
  | .add | .addu | .and | .jalr | .mfhi | .mflo | .nor | .or | .sll | .sllv | .slt | .sltu | .sra
  | .srav | .srl | .srlv | .sub | .subu | .xor => some i.rd
  | .addi | .addiu | .andi | .lui | .ori | .slti | .sltiu | .xori => some i.rt
  | .jal | .bgezal | .bltzal => some 31
  | _ => none

example : (decode 0x34020005).opCode = .ori ∧ (decode 0x34020005).rt = 2 := by decide

end Machine
end Nachos
