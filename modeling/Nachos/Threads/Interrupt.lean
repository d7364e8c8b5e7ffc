import Mathlib.Data.List.Nodup

/-!
# Simulated interrupts

The interrupt level and machine status, the clock, and the queue of pending
device interrupts of class `Interrupt`.  An interrupt in the queue names the
device routine it calls and the semaphore that the kernel's handler for that
device signals.
-/

namespace Nachos
namespace Threads

inductive IntStatus
  | off | on
  deriving DecidableEq

inductive MachineStatus
  | idle | system | user
  deriving DecidableEq

inductive IntType
  | timer | disk | consoleWrite | consoleRead | networkSend | networkRecv
  deriving DecidableEq

abbrev SemId := Nat

/-- The device routines that interrupts call.  Their kernel handlers signal a
semaphore, except for the timer's. -/
inductive Handler
  | timerExpired
  | diskDone (s : SemId)
  | consoleWriteDone (writeDone : SemId)
  | consoleReadPoll (readAvail : SemId)
  | networkSendDone (messageSent : SemId)
  | networkReadPoll (messageAvailable : SemId)
  deriving DecidableEq

def Handler.type : Handler → IntType
  | .timerExpired => .timer
  | .diskDone _ => .disk
  | .consoleWriteDone _ => .consoleWrite
  | .consoleReadPoll _ => .consoleRead
  | .networkSendDone _ => .networkSend
  | .networkReadPoll _ => .networkRecv

structure PendingInterrupt where
  handler : Handler
  when : Nat
  deriving DecidableEq

/-- `SystemTick` and `UserTick`. -/
abbrev systemTick : Nat := 10

abbrev userTick : Nat := 1

structure Statistics where
  totalTicks : Nat
  idleTicks : Nat
  systemTicks : Nat
  userTicks : Nat

structure Interrupt where
  level : IntStatus
  pending : List PendingInterrupt
  inHandler : Bool
  yieldOnReturn : Bool
  status : MachineStatus

/-- `List::SortedInsert` with the time as the key: behind everything that is due
no later. -/
def sortedInsert (toOccur : PendingInterrupt) : List PendingInterrupt → List PendingInterrupt
  | [] => [toOccur]
  | p :: rest =>
    if toOccur.when < p.when then toOccur :: p :: rest else p :: sortedInsert toOccur rest

/-- The clock part of `Interrupt::OneTick`. -/
def Statistics.tick (stats : Statistics) (status : MachineStatus) : Statistics :=
  if status = .system then
    { stats with
      totalTicks := stats.totalTicks + systemTick
      systemTicks := stats.systemTicks + systemTick }
  else
    { stats with
      totalTicks := stats.totalTicks + userTick
      userTicks := stats.userTicks + userTick }

/-- What `CheckIfDue` does before it calls a handler: the interrupt to run, if
any, what is left in the queue, and the clock. -/
structure Due where
  toOccur : Option PendingInterrupt
  pending : List PendingInterrupt
  stats : Statistics

/-- `Interrupt::CheckIfDue` up to the call of the handler. -/
def Interrupt.checkIfDue (i : Interrupt) (stats : Statistics) (advanceClock : Bool) : Due :=
  match i.pending with
  | [] => ⟨none, [], stats⟩
  | toOccur :: rest =>
    if stats.totalTicks < toOccur.when ∧ !advanceClock then
      -- not time yet, put it back
      ⟨none, sortedInsert toOccur rest, stats⟩
    else
      let stats := if stats.totalTicks < toOccur.when then
          { stats with
            idleTicks := stats.idleTicks + (toOccur.when - stats.totalTicks)
            totalTicks := toOccur.when }
        else stats
      if i.status = .idle ∧ toOccur.handler.type = .timer ∧ rest = [] then
        -- only the time slice is left, so there is nothing more to do
        ⟨none, sortedInsert toOccur rest, stats⟩
      else ⟨some toOccur, rest, stats⟩

/-! ## What the handlers do -/

/-- A step of a handler. -/
inductive Effect
  | schedule (handler : Handler) (fromNow : Nat)
  /-- the kernel's handler signals the semaphore -/
  | signal (s : SemId)
  /-- `TimerInterruptHandler` -/
  | timeSlice

/-- The steps of a device routine and of the kernel handler it calls.  Whether a
poll finds a character or a packet is up to the outside world, and a poll of the
console may fail to schedule the next one. -/
inductive Handler.Does : Handler → List Effect → Prop
  | timerExpired (fromNow : Nat) :
      Does .timerExpired [.schedule .timerExpired (fromNow + 1), .timeSlice]
  | diskDone (s : SemId) : Does (.diskDone s) [.signal s]
  | consoleWriteDone (s : SemId) : Does (.consoleWriteDone s) [.signal s]
  | consoleReadPoll (s : SemId) (again arrived : Bool) (fromNow : Nat) :
      Does (.consoleReadPoll s)
        ((if again then [.schedule (.consoleReadPoll s) (fromNow + 1)] else [])
          ++ if arrived then [.signal s] else [])
  /-- at the end of the input the reader is told before the next poll is scheduled -/
  | consoleReadEnd (s : SemId) (fromNow : Nat) :
      Does (.consoleReadPoll s) [.signal s, .schedule (.consoleReadPoll s) (fromNow + 1)]
  | networkSendDone (s : SemId) : Does (.networkSendDone s) [.signal s]
  | networkReadPoll (s : SemId) (arrived : Bool) (fromNow : Nat) :
      Does (.networkReadPoll s)
        (.schedule (.networkReadPoll s) (fromNow + 1) :: if arrived then [.signal s] else [])

end Threads
end Nachos
