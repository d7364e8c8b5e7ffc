import Nachos.Lib.System
import Nachos.Machine.DelayedLoad
import Nachos.Threads.Kernel
import Nachos.UserProg.AddrSpace

/-!
# Runs of the thread system

One step executes the topmost frame of the current thread.  What kernel code
does next is arbitrary, and so is which instruction a user program executes and
what the devices find when they are polled: a run is any sequence of steps.
-/

namespace Nachos
namespace Threads

open Lib Machine

/-- The processor when a handler is called: in user mode the delayed load is
done first. -/
inductive Interrupted (k : Kernel) : Machine → Prop
  | user {m : Machine} (hs : k.interrupt.status = .user)
      (hm : delayedLoad 0 0 k.machine = .ok () m) : Interrupted k m
  | kernel (hs : k.interrupt.status ≠ .user) : Interrupted k k.machine

/-- A call of `CheckIfDue` that runs a handler. -/
inductive Fires (k : Kernel) (advanceClock : Bool) : Kernel → Prop
  | fire {toOccur : PendingInterrupt} {k₁ : Kernel} {machine : Machine} {effects : List Effect}
      (hdue : k.checkIfDue advanceClock = (some toOccur, k₁)) (hm : Interrupted k₁ machine)
      (hdo : toOccur.handler.Does effects) : Fires k advanceClock (k₁.fire machine effects)

/-- Main memory after bytes were stored in it, each at its index. -/
def loadBytes (bytes : Fin memorySize → UInt8) (stored : List (Int × UInt8)) :
    Fin memorySize → UInt8 :=
  stored.foldl (fun bytes w a => if (a : Int) = w.1 then w.2 else bytes a) bytes

namespace Kernel

variable (k : Kernel)

/-- No thread has the page table, and it is not current: `new` may return it. -/
def NewTable (table : TableId) : Prop :=
  (∀ t space, (k.threads t).space = some space → space.pageTable ≠ table) ∧
    k.machine.memory.currentPageTable ≠ some table

/-- `new AddrSpace`: a page table, and the segments of the program in main memory. -/
def newAddrSpace (table : TableId) (program : UserProg.AddrSpace) : Kernel :=
  { k with machine := { k.machine with memory := { k.machine.memory with
      mainMemory := loadBytes k.machine.memory.mainMemory program.stored
      pageTables := Function.update k.machine.memory.pageTables table fun vpn =>
        program.pageTable.getD vpn (k.machine.memory.pageTables table vpn) } } }

end Kernel

/-- What kernel code calls. -/
inductive CodeStep (k : Kernel) : Kernel → Prop
  | newThread (junk : Registers) : CodeStep k (k.newThread junk)
  /-- what the constructor makes of an executable, if that stays inside main memory -/
  | newAddrSpace (table : TableId) (program : UserProg.AddrSpace) (hnew : k.NewTable table)
      (hin : ∀ w ∈ program.stored, 0 ≤ w.1 ∧ w.1 < memorySize) :
      CodeStep k (k.newAddrSpace table program)
  /-- `thread->space = space`, for itself or for a thread it is about to start -/
  | setSpace (t : ThreadId) (space : AddrSpace)
      (ht : t = k.currentThread ∨ t ∈ k.threadList ∧ (k.threads t).status = .justCreated) :
      CodeStep k (k.setSpace t space)
  /-- `Start` asserts that the thread was just created -/
  | start (t : ThreadId) (halive : t ∈ k.threadList)
      (hstatus : (k.threads t).status = .justCreated) : CodeStep k (k.start t)
  | yield : CodeStep k k.yield
  | p (s : SemId) : CodeStep k (k.p s)
  | v (s : SemId) : CodeStep k (k.v s)
  | setLevel (level : IntStatus) : CodeStep k (k.setLevel level)
  /-- a request to a device -/
  | schedule (handler : Handler) (fromNow : Nat) : CodeStep k (k.schedule handler (fromNow + 1))
  | finish : CodeStep k k.finish
  | powerdown : CodeStep k k.powerdown
  /-- interrupts are enabled when a program is started -/
  | enterUser (space : AddrSpace) (hspace : (k.threads k.currentThread).space = some space)
      (hlevel : k.interrupt.level = .on) : CodeStep k (k.enterUser space)

/-- One instruction of a user program, with the tick or the trap after it. -/
inductive UserStep (k : Kernel) : Kernel → Prop
  | executed {machine : Machine} (hrun : oneInstruction k.machine = .ok () machine) :
      UserStep k (k.executed machine)
  /-- the system call `Halt` -/
  | halt {machine : Machine}
      (hrun : oneInstruction k.machine = .error (.exception .syscall) machine)
      (hcall : machine.registers 2 = 0) :
      UserStep k (Kernel.powerdown { k.setStatus .system with machine := machine })
  /-- any other trap -/
  | trap {stop : Stop} {machine : Machine} (hrun : oneInstruction k.machine = .error stop machine)
      (hno : ¬ (stop = .exception .syscall ∧ machine.registers 2 = 0)) :
      UserStep k { k.setStatus .system with
        machine := machine
        failed := k.failed ++ [.userException] }

/-- Executing the topmost frame. -/
inductive FrameStep (k : Kernel) : Kernel → Prop
  | code {k' : Kernel} (hstack : k.stack = [.code]) (hcode : CodeStep k k') : FrameStep k k'
  | userCode {k' : Kernel} (hstack : k.stack = [.userCode]) (huser : UserStep k k') :
      FrameStep k k'
  | ret {call : Call} {level : IntStatus} {status : MachineStatus} {rest : List Frame}
      (hstack : k.stack = .ret call level status :: rest) :
      FrameStep k ((k.setStack rest).returned call level status)
  | setLevel {level : IntStatus} {rest : List Frame}
      (hstack : k.stack = .setLevel level :: rest) :
      FrameStep k ((k.setStack rest).setLevel level)
  | tickFire {old : MachineStatus} {rest : List Frame} {k' : Kernel}
      (hstack : k.stack = .tickLoop old :: rest) (hfire : Fires k false k') : FrameStep k k'
  | tickDone {old : MachineStatus} {rest : List Frame} {k₁ : Kernel}
      (hstack : k.stack = .tickLoop old :: rest) (hdue : k.checkIfDue false = (none, k₁)) :
      FrameStep k (k₁.tickDone old rest)
  | tickStatus {old : MachineStatus} {rest : List Frame}
      (hstack : k.stack = .tickStatus old :: rest) :
      FrameStep k ((k.setStack rest).setStatus old)
  | afterRun {rest : List Frame} (hstack : k.stack = .afterRun :: rest) :
      FrameStep k (k.destroy.restore.setStack rest)
  | setup {rest : List Frame} (hstack : k.stack = .setup :: rest) :
      FrameStep k ((k.destroy.restore.setStack rest).setLevel .on)
  | pLoop {s : SemId} {rest : List Frame} (hstack : k.stack = .pLoop s :: rest) :
      FrameStep k ((k.setStack rest).pTest s)
  | sleepRun {n : ThreadId} {rest : List Frame} {ready : List ThreadId}
      (hstack : k.stack = .sleep :: rest) (hnext : k.findNextToRun = some (n, ready)) :
      FrameStep k (({ k with readyList := ready }.setStack (.afterRun :: rest)).run n)
  | sleepFire {rest : List Frame} {k' : Kernel} (hstack : k.stack = .sleep :: rest)
      (hnext : k.findNextToRun = none) (hfire : Fires (k.setStatus .idle) true k') :
      FrameStep k (k'.push [.idleLoop])
  | sleepDone {rest : List Frame} {k₁ : Kernel} (hstack : k.stack = .sleep :: rest)
      (hnext : k.findNextToRun = none)
      (hdue : (k.setStatus .idle).checkIfDue true = (none, k₁)) : FrameStep k k₁.powerdown
  | idleFire {rest : List Frame} {k' : Kernel} (hstack : k.stack = .idleLoop :: rest)
      (hfire : Fires k false k') : FrameStep k k'
  | idleDone {rest : List Frame} {k₁ : Kernel} (hstack : k.stack = .idleLoop :: rest)
      (hdue : k.checkIfDue false = (none, k₁)) : FrameStep k (k₁.idleDone rest)

/-- A step.  There is none after a failed assertion, nor after `Exit`. -/
def Step (k k' : Kernel) : Prop := k.failed = [] ∧ FrameStep k k'

/-- The kernel in `Initialize`, when the thread `main`, which is numbered 0, is set
up and interrupts are still off.  The timer may already be running. -/
structure Initial (start : SemId → Int) (k : Kernel) : Prop where
  level : k.interrupt.level = .off
  status : k.interrupt.status = .system
  inHandler : k.interrupt.inHandler = false
  yieldOnReturn : k.interrupt.yieldOnReturn = false
  readyList : k.readyList = []
  halted : k.halted = false
  threadToBeDestroyed : k.threadToBeDestroyed = none
  currentThread : k.currentThread = 0
  threadList : k.threadList = [0]
  nextThread : k.nextThread = 1
  mainStatus : (k.threads k.currentThread).status = .running
  mainStack : k.stack = [.code]
  others : ∀ t, t ≠ k.currentThread → (k.threads t).stack = []
  sems : ∀ s, k.sems s = ⟨start s, []⟩
  startNonneg : ∀ s, 0 ≤ start s
  failed : k.failed = []
  sched : k.history.sched = []
  control : k.history.control = []
  lastUser : ∀ t, k.history.lastUser t = none

/-- The thread system with semaphores that start at `start`. -/
def system (start : SemId → Int) : System Kernel where
  init := Initial start
  step := Step

/-! ## A first switch -/

/-- The processor as the constructor of `Machine` leaves it. -/
def blankMachine : Machine where
  registers := fun _ => 0
  memory :=
    { mainMemory := fun _ => 0
      tlb := none
      pageTables := fun _ _ => ⟨0, 0, false, false, false, false⟩
      currentPageTable := none
      currentPageTableSize := 0 }

/-- A kernel with `main` as thread 0 and nothing pending. -/
def boot (start : SemId → Int) : Kernel where
  interrupt := ⟨.off, [], false, false, .system⟩
  stats := ⟨0, 0, 0, 0⟩
  readyList := []
  halted := false
  currentThread := 0
  threadToBeDestroyed := none
  threadList := [0]
  nextThread := 1
  threads := fun t => if t = 0 then ⟨.running, [.code], none, fun _ => 0⟩
    else ⟨.justCreated, [], none, fun _ => 0⟩
  sems := fun s => ⟨start s, []⟩
  machine := blankMachine
  failed := []
  history := ⟨[], [], fun _ => none⟩

theorem boot_initial {start : SemId → Int} (h : ∀ s, 0 ≤ start s) : Initial start (boot start) where
  level := rfl
  status := rfl
  inHandler := rfl
  yieldOnReturn := rfl
  readyList := rfl
  halted := rfl
  threadToBeDestroyed := rfl
  currentThread := rfl
  threadList := rfl
  nextThread := rfl
  mainStatus := rfl
  mainStack := rfl
  others := fun _ ht => by simp [boot, show _ ≠ 0 from ht]
  sems := fun _ => rfl
  startNonneg := h
  failed := rfl
  sched := rfl
  control := rfl
  lastUser := fun _ => rfl

/-- `main` has created thread 1 and is starting it. -/
def starting : Kernel := ((boot fun _ => 0).newThread fun _ => 0).start 1

/-- `main` has started thread 1 and yields to it. -/
def yielded : Kernel :=
  let k := (starting.setStack [.ret .start .off .system, .code]).setLevel .off
  ((k.setStack [.code]).returned .start .off .system).yield

theorem yielded_reachable : (system fun _ => 0).Reachable yielded := by
  have hboot : (system fun _ => 0).Reachable (boot fun _ => 0) :=
    .of_init (boot_initial fun _ => le_rfl)
  have hnew := hboot.step ⟨rfl, .code rfl (.newThread fun _ => 0)⟩
  have hstart := hnew.step ⟨rfl, .code rfl (.start 1 (by decide) rfl)⟩
  have hlevel := hstart.step ⟨rfl, .setLevel rfl⟩
  have hret := hlevel.step ⟨rfl, .ret rfl⟩
  exact hret.step ⟨rfl, .code rfl .yield⟩

end Threads
end Nachos
