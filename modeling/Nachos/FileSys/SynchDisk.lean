import Nachos.FileSys.Disk
import Nachos.Threads.Synch
import Nachos.Lib.System

/-!
# The synchronous disk over the asynchronous one

`Disk::ReadRequest` and `Disk::WriteRequest` do the transfer at once and
schedule an interrupt for later.  `SynchDisk` makes one call out of the request
and the wait for its interrupt.  The sectors are a UNIX file behind a magic
number.

`Lock` has no code here: `Acquire` waits until no thread holds the lock.  The
latency of a request only says when its interrupt comes, and the interrupt may
come at any step.
-/

namespace Nachos
namespace FileSys
namespace Requests

open Lib Threads

/-! ## The UNIX file -/

/-- Bytes of the magic number at the front of the file. -/
@[simp] abbrev magicSize : Nat := 4

/-- Where `Lseek` goes for a sector. -/
def offset (sectorNumber : Int) : Nat := (sectorSize * sectorNumber + magicSize).toNat

/-- `Lseek` and `Read` of one sector. -/
def readFile (file : Block) (sectorNumber : Int) : Sector :=
  Sector.ofBlock (file.from (offset sectorNumber))

/-- `Lseek` and `WriteFile` of one sector. -/
def writeFile (file : Block) (sectorNumber : Int) (data : Sector) : Block :=
  file.copy (offset sectorNumber) sectorSize data.get

/-- The sectors that a file holds. -/
def contents (file : Block) : Disk := fun n => readFile file n

theorem sector_contents {file : Block} {n : Int} (h : OnDisk n) :
    (contents file).sector n = readFile file n := by
  have hn : ((n.toNat : Nat) : Int) = n := Int.toNat_of_nonneg h.1
  simp only [Disk.sector, dif_pos h, contents, hn]

theorem readFile_writeFile_self (file : Block) (n : Int) (data : Sector) :
    readFile (writeFile file n data) n = data := by
  funext o
  have ho : offset n ≤ offset n + o ∧ offset n + o < offset n + sectorSize := by
    have := o.isLt
    omega
  simp only [readFile, Sector.ofBlock, Block.from, writeFile, Block.copy, if_pos ho]
  rw [Nat.add_sub_cancel_left, Sector.get, dif_pos o.isLt]

/-- Sectors lie side by side in the file: a write to one leaves the others. -/
theorem readFile_writeFile_of_ne {m n : Int} (hm : OnDisk m) (hn : OnDisk n) (h : m ≠ n)
    (file : Block) (data : Sector) : readFile (writeFile file n data) m = readFile file m := by
  funext o
  have ho : ¬ (offset n ≤ offset m + o ∧ offset m + o < offset n + sectorSize) := by
    have : (o : Nat) < 128 := o.isLt
    have := hm.1
    have := hn.1
    simp only [offset, sectorSize, magicSize]
    omega
  simp only [readFile, Sector.ofBlock, Block.from, writeFile, Block.copy, if_neg ho]

/-- No write reaches the magic number. -/
theorem writeFile_magic {n : Int} (hn : OnDisk n) (file : Block) (data : Sector) {k : Nat}
    (hk : k < magicSize) : writeFile file n data k = file k := by
  refine if_neg (fun h => ?_)
  have := hn.1
  simp only [offset, sectorSize, magicSize] at h hk
  omega

theorem contents_writeFile {n : Int} (hn : OnDisk n) (file : Block) (data : Sector) :
    contents (writeFile file n data) = (contents file).store n data := by
  refine Disk.ext fun m hm => ?_
  rw [sector_contents hm]
  by_cases h : m = n
  · subst h
    rw [readFile_writeFile_self, Disk.sector_store_self hm]
  · rw [readFile_writeFile_of_ne hm hn h, Disk.sector_store_of_ne h, sector_contents hm]

/-! ## Calls one after the other -/

/-- A call of `ReadSector` or of `WriteSector`. -/
inductive Op
  | read (sectorNumber : Int)
  | write (sectorNumber : Int) (data : Sector)

namespace Op

def sectorNumber : Op → Int
  | read n => n
  | write n _ => n

/-- The data that a call puts into sector `n`, if it does. -/
def written (n : Int) : Op → Option Sector
  | read _ => none
  | write m data => if m = n then some data else none

/-- The sectors after a call by itself. -/
def apply (d : Disk) : Op → Disk
  | read _ => d
  | write n data => d.store n data

/-- What a call by itself hands back. -/
def result (d : Disk) : Op → Option Sector
  | read n => some (d.sector n)
  | write _ _ => none

/-- The call as the file system makes it. -/
def perform : Op → SynchDisk (Option Sector)
  | read n => some <$> readSector n
  | write n data => do
      writeSector n data
      pure none

theorem perform_run {op : Op} (h : OnDisk op.sectorNumber) (d : Disk) :
    op.perform.run d = .ok (op.result d, op.apply d) := by
  cases op with
  | read n =>
    have hn : OnDisk n := h
    show (some <$> readSector n).run d = _
    rw [StateT.run_map, readSector_run hn]
    rfl
  | write n data => exact run_bind (writeSector_run h data d)

theorem sector_apply {n : Int} (h : OnDisk n) (d : Disk) (op : Op) :
    (op.apply d).sector n = (op.written n).getD (d.sector n) := by
  cases op with
  | read m => rfl
  | write m data =>
    by_cases hm : m = n
    · subst hm
      rw [apply, Disk.sector_store_self h, written, if_pos rfl, Option.getD_some]
    · rw [apply, Disk.sector_store_of_ne (Ne.symm hm), written, if_neg hm, Option.getD_none]

end Op

/-- The sectors after the calls `ops`, made one after the other. -/
def performed (d : Disk) (ops : List Op) : Disk := ops.foldl Op.apply d

/-- What the last write to sector `n` among `ops` put there, and what `d` has there if
there is none. -/
def lastWritten (d : Disk) (ops : List Op) (n : Int) : Sector :=
  (ops.filterMap (Op.written n)).getLast?.getD (d.sector n)

theorem performed_concat (d : Disk) (ops : List Op) (op : Op) :
    performed d (ops ++ [op]) = op.apply (performed d ops) := List.foldl_concat ..

theorem sector_performed {n : Int} (h : OnDisk n) (d : Disk) (ops : List Op) :
    (performed d ops).sector n = lastWritten d ops n := by
  induction ops using List.reverseRecOn with
  | nil => rfl
  | append_singleton ops op ih =>
    rw [performed_concat, Op.sector_apply h, ih, lastWritten, lastWritten,
      List.filterMap_append]
    cases hw : op.written n with
    | none => simp [hw]
    | some data => simp [hw]

/-! ## Threads, the disk and its interrupts -/

namespace Op

/-- The transfer of a request, done at once: what the file becomes. -/
def transfer (file : Block) : Op → Block
  | read _ => file
  | write n data => writeFile file n data

/-- The bytes that the request puts into the buffer of its caller. -/
def data (file : Block) : Op → Option Sector
  | read n => some (readFile file n)
  | write _ _ => none

theorem contents_transfer {op : Op} (h : OnDisk op.sectorNumber) (file : Block) :
    contents (op.transfer file) = op.apply (contents file) := by
  cases op with
  | read n => rfl
  | write n data => exact contents_writeFile h file data

theorem data_eq_result {op : Op} (h : OnDisk op.sectorNumber) (file : Block) :
    op.data file = op.result (contents file) := by
  cases op with
  | read n =>
    have hn : OnDisk n := h
    simp only [data, result, sector_contents hn]
  | write n data => rfl

end Op

/-- Where a thread is in `ReadSector` or `WriteSector`.  A call that holds the lock has the
number `i` of its request, and after the request the bytes it read.  A call waits for the
semaphore at the entry of `P`, in the queue, or back from the queue. -/
inductive Pc
  | outside
  | acquire (op : Op)
  | request (i : Nat) (op : Op)
  | p (i : Nat) (op : Op) (data : Option Sector)
  | asleep (i : Nat) (op : Op) (data : Option Sector)
  | woken (i : Nat) (op : Op) (data : Option Sector)
  | release (i : Nat) (op : Op) (data : Option Sector)

/-- The `ASSERT`s on the way of a request. -/
inductive DiskAssertion
  | active
  | sector
  | pValue
  | vValue
  deriving DecidableEq

/-- A call that returned: the number of its request and what it handed back. -/
structure Returned where
  number : Nat
  op : Op
  data : Option Sector

/-- What has happened so far; nothing in the code reads it.  A request has its number in the
order in which the lock was acquired.  `posted` are the completions that wait in the
semaphore, and `consumed` pairs a request with the completion that let it go on. -/
structure History where
  acquired : List Op
  completed : List Nat
  posted : List Nat
  consumed : List (Nat × Nat)
  returned : List Returned

/-- A `SynchDisk` with the threads that use it.  `pending` are the requests whose interrupt
has been scheduled and is still to come. -/
structure State where
  lock : Option ThreadId
  semaphore : Semaphore
  file : Block
  active : Bool
  pending : List Nat
  threads : ThreadId → Pc
  failed : List DiskAssertion
  history : History

namespace State

/-- After the constructor. -/
def initial (file : Block) : State where
  lock := none
  semaphore := { value := 0, queue := [] }
  file := file
  active := false
  pending := []
  threads := fun _ => .outside
  failed := []
  history := { acquired := [], completed := [], posted := [], consumed := [], returned := [] }

variable (s : State) (t : ThreadId)

def moveTo (pc : Pc) : State := { s with threads := Function.update s.threads t pc }

def fail (a : DiskAssertion) : State := { s with failed := s.failed ++ [a] }

/-- `lock->Acquire`, by a thread that finds the lock free. -/
def acquire (op : Op) : State :=
  { s.moveTo t (.request s.history.acquired.length op) with
    lock := some t
    history := { s.history with acquired := s.history.acquired ++ [op] } }

/-- `Disk::ReadRequest` and `Disk::WriteRequest`. -/
def request (i : Nat) (op : Op) : State :=
  if s.active then s.fail .active
  else if ¬ OnDisk op.sectorNumber then s.fail .sector
  else
    { s.moveTo t (.p i op (op.data s.file)) with
      file := op.transfer s.file
      active := true
      pending := s.pending ++ [i] }

/-- The test in the loop of `P`. -/
def test (i : Nat) (op : Op) (data : Option Sector) : State :=
  match s.semaphore.test t with
  | (semaphore, false) => { s.moveTo t (.asleep i op data) with semaphore := semaphore }
  | (semaphore, true) =>
    { s.moveTo t (.release i op data) with
      semaphore := semaphore
      history :=
        { s.history with
          posted := s.history.posted.tail
          consumed := s.history.consumed ++ s.history.posted.head?.toList.map (i, ·) } }

/-- `semaphore->P`. -/
def p (i : Nat) (op : Op) (data : Option Sector) : State :=
  if 0 ≤ s.semaphore.value then s.test t i op data else s.fail .pValue

/-- `ReadyToRun` of a thread that `V` takes from the queue. -/
def ready : Option ThreadId → State
  | none => s
  | some t =>
    match s.threads t with
    | .asleep i op data => s.moveTo t (.woken i op data)
    | _ => s

/-- `semaphore->V`, for the completion of request `i`. -/
def v (i : Nat) : State :=
  if 0 ≤ s.semaphore.value then
    { s.ready s.semaphore.post.2 with
      semaphore := s.semaphore.post.1
      history := { s.history with
        completed := s.history.completed ++ [i]
        posted := s.history.posted ++ [i] } }
  else s.fail .vValue

/-- `Disk::HandleInterrupt` for request `i`. -/
def handleInterrupt (i : Nat) : State :=
  { s with pending := s.pending.erase i, active := false }.v i

/-- `lock->Release`, and the return of the call. -/
def release (i : Nat) (op : Op) (data : Option Sector) : State :=
  { s.moveTo t .outside with
    lock := none
    history := { s.history with returned := s.history.returned ++ [⟨i, op, data⟩] } }

end State

/-- One step of one thread, or one interrupt. -/
inductive Step (s : State) : State → Prop
  | call {t : ThreadId} {op : Op} (h : s.threads t = .outside) (hn : OnDisk op.sectorNumber) :
      Step s (s.moveTo t (.acquire op))
  | acquire {t : ThreadId} {op : Op} (h : s.threads t = .acquire op) (hl : s.lock = none) :
      Step s (s.acquire t op)
  | request {t : ThreadId} {i : Nat} {op : Op} (h : s.threads t = .request i op) :
      Step s (s.request t i op)
  | p {t : ThreadId} {i : Nat} {op : Op} {data : Option Sector}
      (h : s.threads t = .p i op data) : Step s (s.p t i op data)
  | test {t : ThreadId} {i : Nat} {op : Op} {data : Option Sector}
      (h : s.threads t = .woken i op data) : Step s (s.test t i op data)
  | release {t : ThreadId} {i : Nat} {op : Op} {data : Option Sector}
      (h : s.threads t = .release i op data) : Step s (s.release t i op data)
  | interrupt {i : Nat} (h : i ∈ s.pending) : Step s (s.handleInterrupt i)

/-- Every interleaving of calls and interrupts over a file that holds `file` at first.  A
failed `ASSERT` ends the program. -/
def system (file : Block) : System State where
  init s := s = State.initial file
  step s s' := s.failed = [] ∧ Step s s'

end Requests
end FileSys
end Nachos
