import Nachos.Lib.Dispatcher
import Nachos.Machine.Execute
import Nachos.Threads.Interrupt

/-!
# The thread system

Threads, scheduler, semaphores and the interrupt simulation around them.

A thread's kernel stack is a list of frames: what the routines it is inside of
still have to do.  Between two frames interrupts are off, or simulated time does
not advance, so that a frame is executed in one piece; control changes hands
only in `SWITCH`, and interrupt handlers run only in `CheckIfDue`.
-/

namespace Nachos
namespace Threads

open Lib Machine

abbrev ThreadId := Nat

inductive ThreadStatus
  | justCreated | running | ready | blocked
  deriving DecidableEq

/-- The calls whose return is watched. -/
inductive Call
  | start | yield | sleep | p | v | oneTick
  deriving DecidableEq

inductive Frame
  /-- kernel code: the body of `main` or of the procedure given to `Start` -/
  | code
  /-- the loop of `Machine::Run` -/
  | userCode
  /-- the return from a call; it notes the level and status at the call -/
  | ret (call : Call) (level : IntStatus) (status : MachineStatus)
  /-- `interrupt->SetLevel(level)` -/
  | setLevel (level : IntStatus)
  /-- `while (CheckIfDue(FALSE))` of `OneTick`, and what follows -/
  | tickLoop (old : MachineStatus)
  /-- `status = old` at the end of `OneTick` -/
  | tickStatus (old : MachineStatus)
  /-- `Scheduler::Run` after `SWITCH` -/
  | afterRun
  /-- `SetupThreadState` -/
  | setup
  /-- the test of the `while` in `Semaphore::P`, after a sleep -/
  | pLoop (s : SemId)
  /-- the `while` of `Thread::Sleep` -/
  | sleep
  /-- `while (CheckIfDue(FALSE))` of `Idle`, and what follows -/
  | idleLoop
  /-- `Finish` after its call of `Sleep`: not reached -/
  | finished
  /-- the rest of `Cleanup`, which ends in `Exit` -/
  | exit
  deriving DecidableEq

structure AddrSpace where
  pageTable : TableId
  numPages : Nat

/-- A thread control block.  `stack` stands for the saved machine state and the
kernel stack. -/
structure Thread where
  status : ThreadStatus
  stack : List Frame
  space : Option AddrSpace
  userRegisters : Registers

structure Semaphore where
  value : Int
  queue : List ThreadId

/-- The `ASSERT`s of the thread system, and an exception in user code that the
kernel does not handle. -/
inductive Assertion
  | setLevelInHandler
  | checkIfDueLevel
  | runLevel
  | sleepLevel
  | yieldOnReturnInHandler
  | scheduleFromNow
  | pValue
  | vValue
  | finishDestroyed
  | deleteCurrent
  | threadListRemove
  | userException
  deriving DecidableEq

/-- `ASSERT(c)` -/
def check (c : Prop) [Decidable c] (a : Assertion) : List Assertion := if c then [] else [a]

/-- A call of `SWITCH` with the control state it finds, and the return of a
watched call with the control state at the call and at the return. -/
inductive ControlEvent
  | switch (level : IntStatus) (status : MachineStatus) (inHandler : Bool)
  | ret (call : Call) (level level' : IntStatus) (status status' : MachineStatus)

/-- What has happened so far.  Nothing in the code reads it. -/
structure History where
  sched : List (Dispatcher.Event ThreadId SemId)
  control : List ControlEvent
  /-- the registers of a thread when it last stopped executing user code, or
  when it entered it -/
  lastUser : ThreadId → Option Registers

def History.add (h : History) (e : Dispatcher.Event ThreadId SemId) : History :=
  { h with sched := h.sched ++ [e] }

def History.returned (h : History) (e : ControlEvent) : History :=
  { h with control := h.control ++ [e] }

/-- The global variables of the kernel.  `nextThread` names the next control
block to be allocated, and `failed` collects the assertions that did not hold:
the first one ends the program. -/
structure Kernel where
  interrupt : Interrupt
  stats : Statistics
  readyList : List ThreadId
  halted : Bool
  currentThread : ThreadId
  threadToBeDestroyed : Option ThreadId
  threadList : List ThreadId
  nextThread : ThreadId
  threads : ThreadId → Thread
  sems : SemId → Semaphore
  machine : Machine
  failed : List Assertion
  history : History

/-- An update that keeps what `g` reads. -/
theorem update_same {β : Type} {g : Thread → β} {threads : ThreadId → Thread} {a : ThreadId}
    {th : Thread} (h : g th = g (threads a)) (t : ThreadId) :
    g (Function.update threads a th t) = g (threads t) := by
  by_cases ht : t = a
  · rw [ht, Function.update_self, h]
  · rw [Function.update_of_ne ht]

namespace Thread

/-- `SaveUserState`, for a thread with an address space. -/
def saveUserState (th : Thread) (m : Machine) : Thread :=
  { th with userRegisters := if th.space.isSome then m.registers else th.userRegisters }

/-- `RestoreUserState` and `AddrSpace::RestoreState`, for a thread with an
address space. -/
def restoreState (th : Thread) (m : Machine) : Machine :=
  match th.space with
  | none => m
  | some space =>
    { registers := th.userRegisters
      memory := { m.memory with
        currentPageTable := some space.pageTable
        currentPageTableSize := space.numPages } }

end Thread

abbrev stackReg : Reg := 29

abbrev userStartAddress : Word := 0x80

/-- The registers that `InitRegisters` sets. -/
def AddrSpace.initRegisters (space : AddrSpace) : Registers := fun j =>
  if j = pcReg then userStartAddress
  else if j = nextPCReg then userStartAddress + 4
  else if j = stackReg then BitVec.ofNat 32 (space.numPages * pageSize) - 16
  else 0

namespace Kernel

/-- The frames of the current thread. -/
def stack (k : Kernel) : List Frame := (k.threads k.currentThread).stack

def setStack (k : Kernel) (fs : List Frame) : Kernel :=
  { k with
    threads := Function.update k.threads k.currentThread
      { k.threads k.currentThread with stack := fs } }

def push (k : Kernel) (fs : List Frame) : Kernel := k.setStack (fs ++ k.stack)

/-- `Interrupt::ChangeLevel`. -/
def changeLevel (k : Kernel) (now : IntStatus) : Kernel :=
  { k with interrupt := { k.interrupt with level := now } }

def setStatus (k : Kernel) (status : MachineStatus) : Kernel :=
  { k with interrupt := { k.interrupt with status } }

/-- The return of a call made with `level` and `status`. -/
def returned (k : Kernel) (call : Call) (level : IntStatus) (status : MachineStatus) : Kernel :=
  { k with
    history := k.history.returned
      (.ret call level k.interrupt.level status k.interrupt.status) }

@[simp] theorem setStack_stack (k : Kernel) (fs : List Frame) : (k.setStack fs).stack = fs := by
  show (Function.update k.threads k.currentThread _ k.currentThread).stack = fs
  rw [Function.update_self]

@[simp] theorem push_stack (k : Kernel) (fs : List Frame) : (k.push fs).stack = fs ++ k.stack :=
  k.setStack_stack _

theorem setStack_setStack (k : Kernel) (fs gs : List Frame) :
    (k.setStack fs).setStack gs = k.setStack gs := by
  unfold setStack
  simp only [Function.update_self, Function.update_idem]

theorem setStack_push (k : Kernel) (fs gs : List Frame) :
    (k.setStack fs).push gs = k.setStack (gs ++ fs) := by
  unfold push
  rw [setStack_stack, setStack_setStack]

@[simp] theorem changeLevel_stack (k : Kernel) (now : IntStatus) :
    (k.changeLevel now).stack = k.stack := rfl

/-! ## Clock and interrupt level -/

/-- `Interrupt::OneTick` up to its loop. -/
def oneTick (k : Kernel) : Kernel :=
  let status := k.interrupt.status
  ({ k with stats := k.stats.tick status }.push
    [.tickLoop status, .ret .oneTick k.interrupt.level status]).changeLevel .off

/-- `Interrupt::SetLevel`. -/
def setLevel (k : Kernel) (now : IntStatus) : Kernel :=
  let k := { k with
    failed := k.failed ++ check (now = IntStatus.off ∨ k.interrupt.inHandler = false) .setLevelInHandler }
  if now = .on ∧ k.interrupt.level = .off then (k.changeLevel now).oneTick else k.changeLevel now

theorem setLevel_halted (k : Kernel) (now : IntStatus) : (k.setLevel now).halted = k.halted := by
  unfold setLevel
  by_cases hon : now = .on ∧ k.interrupt.level = .off
  · rw [if_pos hon]
    rfl
  · rw [if_neg hon]
    rfl

/-- `Interrupt::CheckIfDue` up to the call of the handler. -/
def checkIfDue (k : Kernel) (advanceClock : Bool) : Option PendingInterrupt × Kernel :=
  let due := k.interrupt.checkIfDue k.stats advanceClock
  (due.toOccur, { k with
    interrupt := { k.interrupt with pending := due.pending }
    stats := due.stats
    failed := k.failed ++ check (k.interrupt.level = .off) .checkIfDueLevel })

/-- `Interrupt::Schedule`. -/
def schedule (k : Kernel) (handler : Handler) (fromNow : Nat) : Kernel :=
  { k with
    interrupt := { k.interrupt with
      pending := sortedInsert ⟨handler, k.stats.totalTicks + fromNow⟩ k.interrupt.pending }
    failed := k.failed ++ check (0 < fromNow) .scheduleFromNow }

/-- `Interrupt::YieldOnReturn`, as `TimerInterruptHandler` calls it. -/
def timeSlice (k : Kernel) : Kernel :=
  if k.interrupt.status = .idle then k
  else { k with
    interrupt := { k.interrupt with yieldOnReturn := true }
    failed := k.failed ++ check (k.interrupt.inHandler = true) .yieldOnReturnInHandler }

/-! ## Scheduler -/

/-- `Scheduler::ReadyToRun`. -/
def readyToRun (k : Kernel) (t : ThreadId) : Kernel :=
  { k with
    threads := Function.update k.threads t { k.threads t with status := .ready }
    readyList := k.readyList ++ [t]
    history := k.history.add (.readied t) }

/-- `Scheduler::FindNextToRun`: the thread, and the ready list without it. -/
def findNextToRun (k : Kernel) : Option (ThreadId × List ThreadId) :=
  match k.halted, k.readyList with
  | true, _ => none
  | false, [] => none
  | false, n :: rest => some (n, rest)

theorem findNextToRun_some {k : Kernel} {n : ThreadId} {rest : List ThreadId}
    (h : k.findNextToRun = some (n, rest)) : k.halted = false ∧ k.readyList = n :: rest := by
  unfold findNextToRun at h
  split at h
  · cases h
  · cases h
  · rename_i hhalted hready
    cases h
    exact ⟨hhalted, hready⟩

/-- The threads after the first half of `Scheduler::Run`. -/
def runThreads (k : Kernel) (nextThread : ThreadId) : ThreadId → Thread :=
  let threads := Function.update k.threads k.currentThread
    ((k.threads k.currentThread).saveUserState k.machine)
  Function.update threads nextThread { threads nextThread with status := .running }

theorem runThreads_stack (k : Kernel) (n t : ThreadId) :
    (k.runThreads n t).stack = (k.threads t).stack := by
  unfold runThreads
  rw [update_same (g := Thread.stack), update_same (g := Thread.stack)] <;> rfl

theorem runThreads_space (k : Kernel) (n t : ThreadId) :
    (k.runThreads n t).space = (k.threads t).space := by
  unfold runThreads
  rw [update_same (g := Thread.space), update_same (g := Thread.space)] <;> rfl

theorem runThreads_status (k : Kernel) (n t : ThreadId) :
    (k.runThreads n t).status = if t = n then .running else (k.threads t).status := by
  unfold runThreads
  by_cases ht : t = n
  · rw [if_pos ht, ht, Function.update_self]
  · rw [if_neg ht, Function.update_of_ne ht, update_same (g := Thread.status)]
    rfl

/-- `Scheduler::Run` up to and including `SWITCH`. -/
def run (k : Kernel) (nextThread : ThreadId) : Kernel :=
  { k with
    threads := k.runThreads nextThread
    currentThread := nextThread
    failed := k.failed ++ check (k.interrupt.level = .off) .runLevel
    history := (k.history.add (.switched k.currentThread nextThread)).returned
      (.switch k.interrupt.level k.interrupt.status k.interrupt.inHandler) }

/-- The deletion of `threadToBeDestroyed`, in `Scheduler::Run` and in
`SetupThreadState`. -/
def destroy (k : Kernel) : Kernel :=
  match k.threadToBeDestroyed with
  | none => k
  | some t => { k with
      threadToBeDestroyed := none
      threadList := k.threadList.erase t
      failed := k.failed ++ check (t ≠ k.currentThread) .deleteCurrent
        ++ check (t ∈ k.threadList) .threadListRemove
      history := k.history.add (.deleted t k.currentThread) }

/-- The end of `Scheduler::Run` and the like part of `SetupThreadState`. -/
def restore (k : Kernel) : Kernel :=
  { k with machine := (k.threads k.currentThread).restoreState k.machine }

/-! ## Threads -/

/-- `Thread::Thread`.  The registers are not initialised, except for the pending
load. -/
def newThread (k : Kernel) (junk : Registers) : Kernel :=
  { k with
    threads := Function.update k.threads k.nextThread
      { status := .justCreated
        stack := []
        space := none
        userRegisters := fun j => if j = loadReg ∨ j = loadValueReg then 0 else junk j }
    threadList := k.threadList ++ [k.nextThread]
    nextThread := k.nextThread + 1 }

/-- `thread->space = space` -/
def setSpace (k : Kernel) (t : ThreadId) (space : AddrSpace) : Kernel :=
  { k with threads := Function.update k.threads t { k.threads t with space := some space } }

/-- `Thread::StackAllocate`: the thread will run `SetupThreadState` first. -/
def stackAllocate (k : Kernel) (t : ThreadId) : Kernel :=
  { k with
    threads := Function.update k.threads t { k.threads t with stack := [.setup, .code] } }

/-- `Thread::Start`. -/
def start (k : Kernel) (t : ThreadId) : Kernel :=
  let oldLevel := k.interrupt.level
  let k := ((k.stackAllocate t).changeLevel .off).readyToRun t
  k.push [.setLevel oldLevel, .ret .start oldLevel k.interrupt.status]

theorem start_eq (k : Kernel) (t : ThreadId) :
    k.start t = Kernel.push { k.changeLevel .off with
      threads := Function.update k.threads t
        { k.threads t with status := .ready, stack := [.setup, .code] }
      readyList := k.readyList ++ [t]
      history := k.history.add (.readied t) }
      [.setLevel k.interrupt.level, .ret .start k.interrupt.level k.interrupt.status] := by
  unfold start stackAllocate readyToRun
  simp only [changeLevel, Function.update_self, Function.update_idem]

/-- `Thread::Yield`. -/
def yield (k : Kernel) : Kernel :=
  let oldLevel := k.interrupt.level
  let back := [.setLevel oldLevel, .ret .yield oldLevel k.interrupt.status]
  let k := k.changeLevel .off
  match k.findNextToRun with
  | none => k.push back
  | some (n, rest) =>
    ((({ k with readyList := rest }).push (.afterRun :: back)).readyToRun k.currentThread).run n

theorem yield_none {k : Kernel} (h : k.findNextToRun = none) :
    k.yield = (k.changeLevel .off).push
      [.setLevel k.interrupt.level, .ret .yield k.interrupt.level k.interrupt.status] := by
  have h' : (k.changeLevel .off).findNextToRun = none := h
  simp only [yield, h']

theorem yield_some {k : Kernel} {next : ThreadId × List ThreadId}
    (h : k.findNextToRun = some next) :
    k.yield = ((({ k.changeLevel .off with readyList := next.2 }).push
      [.afterRun, .setLevel k.interrupt.level,
        .ret .yield k.interrupt.level k.interrupt.status]).readyToRun k.currentThread).run
          next.1 := by
  have h' : (k.changeLevel .off).findNextToRun = some next := h
  simp only [yield, h']
  rfl

/-- The call of `Thread::Sleep` up to its loop. -/
def callSleep (k : Kernel) : Kernel :=
  { k with
    threads := Function.update k.threads k.currentThread
      { k.threads k.currentThread with
        status := .blocked
        stack := .sleep :: .ret .sleep k.interrupt.level k.interrupt.status :: k.stack }
    failed := k.failed ++ check (k.interrupt.level = .off) .sleepLevel }

@[simp] theorem callSleep_stack (k : Kernel) :
    k.callSleep.stack =
      .sleep :: .ret .sleep k.interrupt.level k.interrupt.status :: k.stack := by
  show (Function.update k.threads k.currentThread _ k.currentThread).stack = _
  rw [Function.update_self]

theorem setStack_callSleep (k : Kernel) (fs : List Frame) :
    (k.setStack fs).callSleep = { k with
      threads := Function.update k.threads k.currentThread
        { k.threads k.currentThread with
          status := .blocked
          stack := .sleep :: .ret .sleep k.interrupt.level k.interrupt.status :: fs }
      failed := k.failed ++ check (k.interrupt.level = .off) .sleepLevel } := by
  have hstack := k.setStack_stack fs
  unfold callSleep
  rw [hstack]
  unfold setStack
  simp only [Function.update_self, Function.update_idem]

/-- `Thread::Finish`. -/
def finish (k : Kernel) : Kernel :=
  callSleep { (k.changeLevel .off).setStack [.finished] with
    threadToBeDestroyed := some k.currentThread
    failed := k.failed ++ check (k.threadToBeDestroyed = none) .finishDestroyed
    history := k.history.add (.finished k.currentThread) }

/-! ## Semaphores -/

/-- The test of the `while` in `Semaphore::P`, and the decrement behind it. -/
def pTest (k : Kernel) (s : SemId) : Kernel :=
  let sem := k.sems s
  if sem.value = 0 then
    callSleep ({ k with
      sems := Function.update k.sems s { sem with queue := sem.queue ++ [k.currentThread] } }.push
        [.pLoop s])
  else
    { k with
      sems := Function.update k.sems s { sem with value := sem.value - 1 }
      history := k.history.add (.down s) }

theorem pTest_zero {k : Kernel} {s : SemId} (hv : (k.sems s).value = 0) :
    k.pTest s = callSleep ({ k with
      sems := Function.update k.sems s
        { k.sems s with queue := (k.sems s).queue ++ [k.currentThread] } }.push [.pLoop s]) :=
  if_pos hv

theorem setStack_pTest_zero {k : Kernel} {s : SemId} (hv : (k.sems s).value = 0)
    (rest : List Frame) :
    (k.setStack rest).pTest s = callSleep ({ k with
      sems := Function.update k.sems s
        { k.sems s with queue := (k.sems s).queue ++ [k.currentThread] } }.setStack
          (.pLoop s :: rest)) := by
  rw [pTest_zero (k := k.setStack rest) hv]
  exact congrArg callSleep (setStack_push { k with
    sems := Function.update k.sems s
      { k.sems s with queue := (k.sems s).queue ++ [k.currentThread] } } rest [.pLoop s])

theorem pTest_nonzero {k : Kernel} {s : SemId} (hv : (k.sems s).value ≠ 0) :
    k.pTest s = { k with
      sems := Function.update k.sems s { k.sems s with value := (k.sems s).value - 1 }
      history := k.history.add (.down s) } :=
  if_neg hv

/-- `Semaphore::P`. -/
def p (k : Kernel) (s : SemId) : Kernel :=
  let oldLevel := k.interrupt.level
  let k := { k.changeLevel .off with
    failed := k.failed ++ check (0 ≤ (k.sems s).value) .pValue }
  (k.push [.setLevel oldLevel, .ret .p oldLevel k.interrupt.status]).pTest s

/-- `Semaphore::V` between its two calls of `SetLevel`. -/
def up (k : Kernel) (s : SemId) : Kernel :=
  let sem := k.sems s
  let k := { k with failed := k.failed ++ check (0 ≤ sem.value) .vValue }
  match sem.queue with
  | [] => { k with
      sems := Function.update k.sems s { sem with value := sem.value + 1 }
      history := k.history.add (.up s) }
  | t :: queue =>
    let k := k.readyToRun t
    { k with
      sems := Function.update k.sems s { value := sem.value + 1, queue }
      history := k.history.add (.up s) }

variable {k : Kernel} {s : SemId}

theorem up_nil (hq : (k.sems s).queue = []) :
    k.up s = { k with
      failed := k.failed ++ check (0 ≤ (k.sems s).value) .vValue
      sems := Function.update k.sems s { k.sems s with value := (k.sems s).value + 1 }
      history := k.history.add (.up s) } := by
  simp only [up, hq]

theorem up_cons {t : ThreadId} {queue : List ThreadId} (hq : (k.sems s).queue = t :: queue) :
    k.up s = { k.readyToRun t with
      failed := k.failed ++ check (0 ≤ (k.sems s).value) .vValue
      sems := Function.update k.sems s { value := (k.sems s).value + 1, queue }
      history := (k.readyToRun t).history.add (.up s) } := by
  simp only [up, hq]
  rfl

/-- `Semaphore::V`. -/
def v (k : Kernel) (s : SemId) : Kernel :=
  let oldLevel := k.interrupt.level
  ((k.changeLevel .off).up s).push [.setLevel oldLevel, .ret .v oldLevel k.interrupt.status]

/-! ## Interrupt handlers -/

/-- One step of a handler.  A `V` there is called with interrupts off and returns
at once. -/
def applyEffect (k : Kernel) : Effect → Kernel
  | .schedule handler fromNow => k.schedule handler fromNow
  | .timeSlice => k.timeSlice
  | .signal s =>
    let level := k.interrupt.level
    let status := k.interrupt.status
    let k := (k.changeLevel .off).up s
    ({ k.changeLevel level with
      failed := k.failed ++ check (level = IntStatus.off ∨ k.interrupt.inHandler = false)
        .setLevelInHandler }).returned .v level status

/-- `Interrupt::CheckIfDue` from the call of the handler on.  `machine` is the
processor with the delayed load done. -/
def fire (k : Kernel) (machine : Machine) (effects : List Effect) : Kernel :=
  let old := k.interrupt.status
  let k := { k with
    machine := machine
    interrupt := { k.interrupt with inHandler := true, status := .system } }
  let k := effects.foldl applyEffect k
  { k with interrupt := { k.interrupt with inHandler := false, status := old } }

/-- `OneTick` after its loop. -/
def tickDone (k : Kernel) (old : MachineStatus) (rest : List Frame) : Kernel :=
  let k := k.changeLevel .on
  if k.interrupt.yieldOnReturn then
    yield ({ k with interrupt := { k.interrupt with
      yieldOnReturn := false, status := .system } }.setStack (.tickStatus old :: rest))
  else k.setStack rest

theorem tickDone_yield {k : Kernel} {old : MachineStatus} {rest : List Frame}
    (h : k.interrupt.yieldOnReturn = true) :
    k.tickDone old rest = yield ({ k.changeLevel .on with
      interrupt := { (k.changeLevel .on).interrupt with
        yieldOnReturn := false, status := .system } }.setStack (.tickStatus old :: rest)) :=
  if_pos h

theorem tickDone_return {k : Kernel} {old : MachineStatus} {rest : List Frame}
    (h : ¬ k.interrupt.yieldOnReturn = true) :
    k.tickDone old rest = (k.changeLevel .on).setStack rest :=
  if_neg h

/-- `Idle` after its loop. -/
def idleDone (k : Kernel) (rest : List Frame) : Kernel :=
  { k with interrupt := { k.interrupt with
    yieldOnReturn := false, status := .system } }.setStack rest

/-- `Interrupt::Powerdown`: the scheduler is stopped, and `Cleanup` enables
interrupts. -/
def powerdown (k : Kernel) : Kernel :=
  ({ k with halted := true }.push [.exit]).setLevel .on

/-! ## User programs -/

/-- `InitRegisters`, `RestoreState` and `Machine::Run`, as `StartProcess` calls
them. -/
def enterUser (k : Kernel) (space : AddrSpace) : Kernel :=
  { k with
    machine :=
      { registers := space.initRegisters
        memory := { k.machine.memory with
          currentPageTable := some space.pageTable
          currentPageTableSize := space.numPages } }
    interrupt := { k.interrupt with status := .user }
    threads := Function.update k.threads k.currentThread
      { k.threads k.currentThread with stack := [.userCode] }
    history := { k.history with
      lastUser := Function.update k.history.lastUser k.currentThread (some space.initRegisters) } }

/-- A round of `Machine::Run` after an instruction that left `machine`. -/
def executed (k : Kernel) (machine : Machine) : Kernel :=
  oneTick { k with
    machine := machine
    history := { k.history with
      lastUser := Function.update k.history.lastUser k.currentThread (some machine.registers) } }

end Kernel
end Threads
end Nachos
