import Mathlib.Data.List.Nodup
import Mathlib.Logic.Function.Basic

/-!
# Assembly

Some instructions of x86-64 on words of 8 bytes, for code that is run from a label up to
the next `call` or `ret`.  Addresses are those of words and do not wrap, so they are
numbers.  Address 0 is not mapped: an access to it stops the program.
-/

namespace Lib
namespace Assembly

inductive Register
  | rax | rbx | rcx | rdx | rsi | rdi | rbp | rsp
  | r8 | r9 | r10 | r11 | r12 | r13 | r14 | r15
  deriving DecidableEq

abbrev Registers := Register → Nat

/-- Memory as words. -/
abbrev Mem := Nat → Nat

structure Cpu where
  regs : Registers
  rip : Nat
  mem : Mem

namespace Cpu

def load (c : Cpu) (a : Nat) : Option Nat := if a = 0 then none else some (c.mem a)

def store (c : Cpu) (a v : Nat) : Option Cpu :=
  if a = 0 then none else some { c with mem := Function.update c.mem a v }

def setReg (c : Cpu) (r : Register) (v : Nat) : Cpu :=
  { c with regs := Function.update c.regs r v }

def push (c : Cpu) (v : Nat) : Option Cpu :=
  (c.setReg .rsp (c.regs .rsp - 8)).store (c.regs .rsp - 8) v

def pop (c : Cpu) : Option (Nat × Cpu) := do
  let v ← c.load (c.regs .rsp)
  return (v, c.setReg .rsp (c.regs .rsp + 8))

end Cpu

inductive Operand
  | reg (r : Register)
  /-- `disp(%base)` -/
  | mem (disp : Nat) (base : Register)
  /-- a variable of the program -/
  | var (a : Nat)

namespace Operand

def read (c : Cpu) : Operand → Option Nat
  | .reg r => some (c.regs r)
  | .mem disp base => c.load (c.regs base + disp)
  | .var a => c.load a

def write (c : Cpu) (v : Nat) : Operand → Option Cpu
  | .reg r => some (c.setReg r v)
  | .mem disp base => c.store (c.regs base + disp) v
  | .var a => c.store a v

end Operand

/-- Instructions, with the operands in the order of the assembler. -/
inductive Instr
  | movq (src dst : Operand)
  | xorq (src dst : Register)
  | subq (n : Nat) (dst : Register)
  | addq (n : Nat) (dst : Register)
  | pushq (src : Register)
  | popq (dst : Register)
  | call (target : Register)
  | ret

/-- Runs code, whose `k`-th instruction is at `text k`, up to the next `call` or `ret`. -/
def exec (text : Nat → Nat) : Nat → List Instr → Cpu → Option Cpu
  | _, [], _ => none
  | k, .movq src dst :: code, c => do
    let v ← src.read c
    let c' ← dst.write c v
    exec text (k + 1) code c'
  | k, .xorq src dst :: code, c =>
    exec text (k + 1) code (c.setReg dst (c.regs dst ^^^ c.regs src))
  | k, .subq n dst :: code, c => exec text (k + 1) code (c.setReg dst (c.regs dst - n))
  | k, .addq n dst :: code, c => exec text (k + 1) code (c.setReg dst (c.regs dst + n))
  | k, .pushq src :: code, c => do
    let c' ← c.push (c.regs src)
    exec text (k + 1) code c'
  | k, .popq dst :: code, c => do
    let (v, c') ← c.pop
    exec text (k + 1) code (c'.setReg dst v)
  | k, .call target :: _, c => do
    let c' ← c.push (text (k + 1))
    return { c' with rip := c.regs target }
  | _, .ret :: _, c => do
    let (v, c') ← c.pop
    return { c' with rip := v }

/-! ## Lists of assignments -/

section

variable {α : Type} [DecidableEq α] {f : α → Nat} {ws : List (α × Nat)} {a : α} {v : Nat}

/-- The function after some assignments. -/
def assign (f : α → Nat) (ws : List (α × Nat)) : α → Nat :=
  ws.foldl (fun f w => Function.update f w.1 w.2) f

theorem assign_cons (f : α → Nat) (w : α × Nat) (ws : List (α × Nat)) :
    assign f (w :: ws) = assign (Function.update f w.1 w.2) ws := rfl

theorem assign_of_notMem (h : a ∉ ws.map Prod.fst) : assign f ws a = f a := by
  induction ws generalizing f with
  | nil => rfl
  | cons w ws ih =>
    rw [List.map_cons, List.mem_cons, not_or] at h
    rw [assign_cons, ih h.2, Function.update_of_ne h.1]

theorem assign_of_mem (hnodup : (ws.map Prod.fst).Nodup) (h : (a, v) ∈ ws) :
    assign f ws a = v := by
  induction ws generalizing f with
  | nil => cases h
  | cons w ws ih =>
    rw [List.map_cons, List.nodup_cons] at hnodup
    rw [assign_cons]
    rcases List.mem_cons.mp h with rfl | h
    · rw [assign_of_notMem hnodup.1, Function.update_self]
    · exact ih hnodup.2 h

end

/-! ## Running code -/

section

variable {text : Nat → Nat} {k : Nat} {code : List Instr} {c c' : Cpu} {src dst : Operand}
  {v a n disp : Nat} {r base : Register}

theorem exec_movq (hread : src.read c = some v) (hwrite : dst.write c v = some c') :
    exec text k (.movq src dst :: code) c = exec text (k + 1) code c' := by
  simp [exec, hread, hwrite]

theorem load_mapped (h : a ≠ 0) : c.load a = some (c.mem a) := if_neg h

theorem store_mapped (h : a ≠ 0) (v : Nat) :
    c.store a v = some { c with mem := Function.update c.mem a v } := if_neg h

/-- `movq disp(%base),%r` -/
theorem exec_load (h : c.regs base + disp ≠ 0) :
    exec text k (.movq (.mem disp base) (.reg r) :: code) c =
      exec text (k + 1) code (c.setReg r (c.mem (c.regs base + disp))) :=
  exec_movq (load_mapped h) rfl

/-- `movq %r,disp(%base)` -/
theorem exec_store (h : c.regs base + disp ≠ 0) :
    exec text k (.movq (.reg r) (.mem disp base) :: code) c =
      exec text (k + 1) code
        { c with mem := Function.update c.mem (c.regs base + disp) (c.regs r) } :=
  exec_movq rfl (store_mapped h _)

theorem exec_loadVar (h : a ≠ 0) :
    exec text k (.movq (.var a) (.reg r) :: code) c =
      exec text (k + 1) code (c.setReg r (c.mem a)) :=
  exec_movq (load_mapped h) rfl

theorem exec_storeVar (h : a ≠ 0) :
    exec text k (.movq (.reg r) (.var a) :: code) c =
      exec text (k + 1) code { c with mem := Function.update c.mem a (c.regs r) } :=
  exec_movq rfl (store_mapped h _)

theorem push_mapped (h : c.regs .rsp - 8 ≠ 0) (v : Nat) :
    c.push v = some
      { c with
        regs := Function.update c.regs .rsp (c.regs .rsp - 8)
        mem := Function.update c.mem (c.regs .rsp - 8) v } :=
  store_mapped h v

theorem pop_mapped (h : c.regs .rsp ≠ 0) :
    c.pop = some (c.mem (c.regs .rsp), c.setReg .rsp (c.regs .rsp + 8)) := by
  unfold Cpu.pop
  rw [load_mapped h]
  rfl

theorem pop_null (h : c.regs .rsp = 0) : c.pop = none := by
  unfold Cpu.pop Cpu.load
  rw [if_pos h]
  rfl

theorem exec_pushq (h : c.regs .rsp - 8 ≠ 0) :
    exec text k (.pushq r :: code) c = exec text (k + 1) code
      { c with
        regs := Function.update c.regs .rsp (c.regs .rsp - 8)
        mem := Function.update c.mem (c.regs .rsp - 8) (c.regs r) } := by
  simp [exec, push_mapped h]

theorem exec_popq (h : c.regs .rsp ≠ 0) :
    exec text k (.popq r :: code) c = exec text (k + 1) code
      ((c.setReg .rsp (c.regs .rsp + 8)).setReg r (c.mem (c.regs .rsp))) := by
  simp [exec, pop_mapped h]

theorem exec_popq_null (h : c.regs .rsp = 0) : exec text k (.popq r :: code) c = none := by
  simp [exec, pop_null h]

theorem exec_call (h : c.regs .rsp - 8 ≠ 0) :
    exec text k (.call r :: code) c = some
      { regs := Function.update c.regs .rsp (c.regs .rsp - 8)
        rip := c.regs r
        mem := Function.update c.mem (c.regs .rsp - 8) (text (k + 1)) } := by
  simp [exec, push_mapped h]

theorem exec_ret (h : c.regs .rsp ≠ 0) :
    exec text k (.ret :: code) c = some
      { c with
        regs := Function.update c.regs .rsp (c.regs .rsp + 8)
        rip := c.mem (c.regs .rsp) } := by
  simp [exec, pop_mapped h, Cpu.setReg]

/-- Registers saved behind `%base`, each at its offset. -/
theorem exec_saves (slots : List (Register × Nat)) (h : ∀ s ∈ slots, c.regs base + s.2 ≠ 0) :
    exec text k (slots.map (fun s => .movq (.reg s.1) (.mem s.2 base)) ++ code) c =
      exec text (k + slots.length) code
        { c with mem := assign c.mem (slots.map fun s => (c.regs base + s.2, c.regs s.1)) } := by
  induction slots generalizing k c with
  | nil => rfl
  | cons s slots ih =>
    have hrest := ih (k := k + 1)
      (c := { c with mem := Function.update c.mem (c.regs base + s.2) (c.regs s.1) })
      fun t ht => h t (List.mem_cons_of_mem s ht)
    rw [List.map_cons, List.cons_append, exec_store (h s List.mem_cons_self), hrest,
      List.length_cons, Nat.add_right_comm, Nat.add_assoc]
    rfl

/-- Registers loaded from behind `%base`, which is none of them. -/
theorem exec_loads (slots : List (Register × Nat)) (hbase : base ∉ slots.map Prod.fst)
    (h : ∀ s ∈ slots, c.regs base + s.2 ≠ 0) :
    exec text k (slots.map (fun s => .movq (.mem s.2 base) (.reg s.1)) ++ code) c =
      exec text (k + slots.length) code
        { c with regs := assign c.regs (slots.map fun s => (s.1, c.mem (c.regs base + s.2))) } := by
  induction slots generalizing k c with
  | nil => rfl
  | cons s slots ih =>
    rw [List.map_cons, List.mem_cons, not_or] at hbase
    have hkept : (c.setReg s.1 (c.mem (c.regs base + s.2))).regs base = c.regs base :=
      Function.update_of_ne hbase.1 _ _
    rw [List.map_cons, List.cons_append, exec_load (h s List.mem_cons_self), ih hbase.2]
    · rw [hkept, List.length_cons, Nat.add_right_comm, Nat.add_assoc]
      rfl
    · intro t ht
      rw [hkept]
      exact h t (List.mem_cons_of_mem s ht)

end

end Assembly
end Lib
