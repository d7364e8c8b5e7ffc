import Nachos.Threads.Control

/-!
# The dispatcher behind the thread system

The state of the abstract dispatcher that a kernel stands for.  The phase of a
thread is read off its status and off the frame of `Semaphore::P` on its stack,
and a thread whose control block was deleted is gone.
-/

namespace Nachos
namespace Threads

open Lib Machine

/-- The semaphores whose `P` has gone to sleep and not yet returned. -/
def waits : List Frame → List SemId
  | [] => []
  | .pLoop s :: rest => s :: waits rest
  | _ :: rest => waits rest

def Thread.phase (th : Thread) : Phase SemId :=
  match th.status with
  | .justCreated => .created
  | .ready => .ready (waits th.stack).head?
  | .running => .running (waits th.stack).head?
  | .blocked =>
    match (waits th.stack).head? with
    | some s => .blocked s
    | none => .done

/-- The phase of every thread, given the list of those that are not deleted and
the bound on those that exist. -/
def phases (alive : List ThreadId) (next : ThreadId) (threads : ThreadId → Thread)
    (t : ThreadId) : Phase SemId :=
  if t ∈ alive then (threads t).phase else if t < next then .gone else .absent

def Kernel.abs (k : Kernel) : Dispatcher ThreadId SemId where
  alive := k.threadList
  ready := k.readyList
  cpu := k.currentThread
  queue := fun s => (k.sems s).queue
  value := fun s => (k.sems s).value
  phase := phases k.threadList k.nextThread k.threads
  zombie := k.threadToBeDestroyed
  log := k.history.sched

@[simp] theorem waits_append (fs gs : List Frame) : waits (fs ++ gs) = waits fs ++ waits gs := by
  induction fs with
  | nil => rfl
  | cons f fs ih => cases f <;> simp [waits, ih]

theorem Thread.phase_congr {th th' : Thread} (hstatus : th'.status = th.status)
    (hwaits : waits th'.stack = waits th.stack) : th'.phase = th.phase := by
  unfold Thread.phase
  rw [hstatus, hwaits]

namespace Thread

variable {th : Thread}

theorem phase_of_ready (h : th.status = .ready) : th.phase = .ready (waits th.stack).head? := by
  unfold phase
  rw [h]

theorem phase_of_running (h : th.status = .running) :
    th.phase = .running (waits th.stack).head? := by
  unfold phase
  rw [h]

theorem phase_of_created (h : th.status = .justCreated) : th.phase = .created := by
  unfold phase
  rw [h]

theorem phase_ready_iff : th.phase.Ready ↔ th.status = .ready := by
  unfold phase
  cases th.status with
  | blocked => cases (waits th.stack).head? <;> simp
  | _ => simp

theorem phase_running_iff : th.phase.Running ↔ th.status = .running := by
  unfold phase
  cases th.status with
  | blocked => cases (waits th.stack).head? <;> simp
  | _ => simp

theorem phase_blockedOn_iff {s : SemId} :
    th.phase.BlockedOn s ↔ th.status = .blocked ∧ (waits th.stack).head? = some s := by
  unfold phase
  cases th.status with
  | blocked => cases (waits th.stack).head? <;> simp
  | _ => simp

theorem phase_done_iff :
    th.phase.Done ↔ th.status = .blocked ∧ (waits th.stack).head? = none := by
  unfold phase
  cases th.status with
  | blocked => cases (waits th.stack).head? <;> simp
  | _ => simp

end Thread

section Phases

variable {alive : List ThreadId} {next t : ThreadId} {threads threads' : ThreadId → Thread}

theorem phases_mem (ht : t ∈ alive) : phases alive next threads t = (threads t).phase :=
  if_pos ht

theorem phases_congr (h : ∀ t, (threads' t).phase = (threads t).phase) :
    phases alive next threads' = phases alive next threads := by
  funext t
  unfold phases
  rw [h t]

theorem phases_update {p : Phase SemId} (ht : t ∈ alive) (hp : (threads' t).phase = p)
    (hother : ∀ u, u ≠ t → (threads' u).phase = (threads u).phase) :
    phases alive next threads' = Function.update (phases alive next threads) t p := by
  funext u
  by_cases hu : u = t
  · rw [hu, Function.update_self, phases_mem ht, hp]
  · rw [Function.update_of_ne hu]
    unfold phases
    rw [hother u hu]

theorem phases_erase (halive : alive.Nodup) (ht : t < next) :
    phases (alive.erase t) next threads = Function.update (phases alive next threads) t .gone := by
  funext u
  by_cases hu : u = t
  · rw [hu, Function.update_self]
    unfold phases
    rw [if_neg halive.not_mem_erase, if_pos ht]
  · rw [Function.update_of_ne hu]
    unfold phases
    simp only [List.mem_erase_of_ne hu]

theorem phases_append {th : Thread} (hth : th.phase = .created) :
    phases (alive ++ [next]) (next + 1) (Function.update threads next th)
      = Function.update (phases alive next threads) next .created := by
  funext u
  by_cases hu : u = next
  · rw [hu, Function.update_self, phases_mem (by simp), Function.update_self, hth]
  · have hmem : u ∈ alive ++ [next] ↔ u ∈ alive := by simp [hu]
    have hlt : u < next + 1 ↔ u < next := Nat.lt_succ_iff_lt_or_eq.trans (or_iff_left hu)
    rw [Function.update_of_ne hu]
    unfold phases
    simp only [hmem, hlt, Function.update_of_ne hu]

end Phases

/-! ## The routines, seen by the dispatcher -/

section Routines

variable {k : Kernel} {t : ThreadId} {s : SemId}

/-- Giving a thread another control block. -/
theorem abs_update (ht : t ∈ k.threadList) (th : Thread) :
    Kernel.abs { k with threads := Function.update k.threads t th }
      = { k.abs with phase := Function.update k.abs.phase t th.phase } := by
  have hphase : phases k.threadList k.nextThread (Function.update k.threads t th)
      = Function.update (phases k.threadList k.nextThread k.threads) t th.phase :=
    phases_update ht (by rw [Function.update_self]) fun u hu => by rw [Function.update_of_ne hu]
  simp only [Kernel.abs, hphase]

theorem abs_setStack (hc : k.currentThread ∈ k.threadList) (fs : List Frame) :
    (k.setStack fs).abs
      = { k.abs with
          phase := Function.update k.abs.phase k.currentThread
            { k.threads k.currentThread with stack := fs }.phase } :=
  abs_update hc _

theorem abs_callSleep (hc : k.currentThread ∈ k.threadList) (fs : List Frame) :
    (k.setStack fs).callSleep.abs
      = { k.abs with
          phase := Function.update k.abs.phase k.currentThread
            (match (waits fs).head? with
              | some s => .blocked s
              | none => .done) } := by
  rw [Kernel.setStack_callSleep]
  exact abs_update hc _

theorem abs_setSem (sem : Semaphore) :
    Kernel.abs { k with sems := Function.update k.sems s sem }
      = { k.abs with
          queue := Function.update k.abs.queue s sem.queue
          value := Function.update k.abs.value s sem.value } := by
  have hqueue : (fun u => (Function.update k.sems s sem u).queue)
      = Function.update (fun u => (k.sems u).queue) s sem.queue :=
    funext fun u => Function.apply_update (fun _ => Semaphore.queue) k.sems s sem u
  have hvalue : (fun u => (Function.update k.sems s sem u).value)
      = Function.update (fun u => (k.sems u).value) s sem.value :=
    funext fun u => Function.apply_update (fun _ => Semaphore.value) k.sems s sem u
  simp only [Kernel.abs, hqueue, hvalue]

theorem abs_readyToRun (ht : t ∈ k.threadList) :
    (k.readyToRun t).abs
      = { k.abs with
          ready := k.readyList ++ [t]
          phase := Function.update k.abs.phase t (.ready (waits (k.threads t).stack).head?)
          log := k.history.sched ++ [.readied t] } := by
  have hupdate := abs_update ht { k.threads t with status := .ready }
  rw [Thread.phase_of_ready rfl] at hupdate
  exact congrArg (fun a : Dispatcher ThreadId SemId =>
    { a with
      ready := k.readyList ++ [t]
      log := k.history.sched ++ [Dispatcher.Event.readied t] }) hupdate

theorem abs_run (ht : t ∈ k.threadList) :
    (k.run t).abs
      = { k.abs with
          cpu := t
          phase := Function.update k.abs.phase t (.running (waits (k.threads t).stack).head?)
          log := k.history.sched ++ [.switched k.currentThread t] } := by
  have hphase : phases k.threadList k.nextThread (k.runThreads t)
      = Function.update (phases k.threadList k.nextThread k.threads) t
        (.running (waits (k.threads t).stack).head?) := by
    refine phases_update ht ?_ fun u hu => ?_
    · rw [Thread.phase_of_running, Kernel.runThreads_stack]
      rw [Kernel.runThreads_status, if_pos rfl]
    · refine Thread.phase_congr ?_ ?_
      · rw [Kernel.runThreads_status, if_neg hu]
      · rw [Kernel.runThreads_stack]
  simp only [Kernel.abs, Kernel.run, History.add, History.returned, hphase]

theorem abs_up_nil (hq : (k.sems s).queue = []) :
    (k.up s).abs
      = { k.abs with
          value := Function.update k.abs.value s (k.abs.value s + 1)
          log := k.history.sched ++ [.up s] } := by
  have hsem := abs_setSem (k := k) (s := s) { k.sems s with value := (k.sems s).value + 1 }
  have hqueue : Function.update k.abs.queue s (k.sems s).queue = k.abs.queue :=
    Function.update_eq_self s _
  rw [hqueue] at hsem
  rw [Kernel.up_nil hq]
  exact congrArg (fun a : Dispatcher ThreadId SemId =>
    { a with log := k.history.sched ++ [Dispatcher.Event.up s] }) hsem

theorem abs_up_cons {queue : List ThreadId} (hq : (k.sems s).queue = t :: queue)
    (ht : t ∈ k.threadList) :
    (k.up s).abs
      = { k.abs with
          queue := Function.update k.abs.queue s queue
          ready := k.readyList ++ [t]
          phase := Function.update k.abs.phase t (.ready (waits (k.threads t).stack).head?)
          value := Function.update k.abs.value s (k.abs.value s + 1)
          log := k.history.sched ++ [.readied t, .up s] } := by
  have hsem := abs_setSem (k := k.readyToRun t) (s := s) ⟨(k.sems s).value + 1, queue⟩
  rw [abs_readyToRun ht] at hsem
  have hlog : k.history.sched ++ [Dispatcher.Event.readied t, .up s]
      = k.history.sched ++ [Dispatcher.Event.readied t] ++ [Dispatcher.Event.up s] :=
    List.append_cons ..
  rw [Kernel.up_cons hq, hlog]
  exact congrArg (fun a : Dispatcher ThreadId SemId =>
    { a with
      log := k.history.sched ++ [Dispatcher.Event.readied t] ++ [Dispatcher.Event.up s] }) hsem

end Routines

/-! ## Steps that only move the frames of the current thread -/

/-- The assertions on threads and semaphores. -/
def Assertion.Checked : Assertion → Prop
  | .pValue | .vValue | .finishDestroyed | .deleteCurrent | .threadListRemove => True
  | _ => False

/-- The scheduler sees no difference, and no other thread is touched. -/
structure Local (k k' : Kernel) : Prop where
  threadList : k'.threadList = k.threadList
  nextThread : k'.nextThread = k.nextThread
  readyList : k'.readyList = k.readyList
  currentThread : k'.currentThread = k.currentThread
  threadToBeDestroyed : k'.threadToBeDestroyed = k.threadToBeDestroyed
  sems : k'.sems = k.sems
  sched : k'.history.sched = k.history.sched
  status : ∀ t, (k'.threads t).status = (k.threads t).status
  waits : ∀ t, waits (k'.threads t).stack = waits (k.threads t).stack
  others : ∀ t, t ≠ k.currentThread → (k'.threads t).stack = (k.threads t).stack
  failed : ∀ a ∈ k'.failed, a ∈ k.failed ∨ ¬ a.Checked

namespace Local

variable {k k₁ k₂ k₃ : Kernel}

theorem refl (k : Kernel) : Local k k :=
  ⟨rfl, rfl, rfl, rfl, rfl, rfl, rfl, fun _ => rfl, fun _ => rfl, fun _ _ => rfl, fun _ => .inl⟩

theorem trans (h : Local k₁ k₂) (h' : Local k₂ k₃) : Local k₁ k₃ := by
  refine ⟨h'.threadList.trans h.threadList, h'.nextThread.trans h.nextThread,
    h'.readyList.trans h.readyList, h'.currentThread.trans h.currentThread,
    h'.threadToBeDestroyed.trans h.threadToBeDestroyed, h'.sems.trans h.sems,
    h'.sched.trans h.sched, fun t => (h'.status t).trans (h.status t),
    fun t => (h'.waits t).trans (h.waits t), fun t ht => ?_, fun a ha => ?_⟩
  · exact (h'.others t (h.currentThread.symm ▸ ht)).trans (h.others t ht)
  · rcases h'.failed a ha with ha | ha
    · exact h.failed a ha
    · exact .inr ha

theorem abs_eq (h : Local k k₁) : k₁.abs = k.abs := by
  have hphase : phases k.threadList k.nextThread k₁.threads
      = phases k.threadList k.nextThread k.threads :=
    phases_congr fun t => Thread.phase_congr (h.status t) (h.waits t)
  unfold Kernel.abs
  rw [h.threadList, h.nextThread, h.readyList, h.currentThread, h.threadToBeDestroyed, h.sems,
    h.sched, hphase]

/-- An assertion that holds, or that is not about threads and semaphores. -/
theorem check {c : Prop} [Decidable c] {a : Assertion} (h : c ∨ ¬ a.Checked) :
    Local k { k with failed := k.failed ++ Threads.check c a } := by
  refine { refl k with failed := fun b hb => ?_ }
  rcases List.mem_append.mp hb with hb | hb
  · exact .inl hb
  · obtain ⟨hc, rfl⟩ := mem_check.mp hb
    exact .inr (h.resolve_left hc)

theorem setStack {fs : List Frame} (hw : Threads.waits fs = Threads.waits k.stack) :
    Local k (k.setStack fs) := by
  refine { refl k with status := fun t => ?_, waits := fun t => ?_, others := fun t ht => ?_ }
  · exact update_same (g := Thread.status) (by rfl) t
  · exact update_same (g := fun th => Threads.waits th.stack) (by exact hw) t
  · show (Function.update k.threads k.currentThread _ t).stack = _
    rw [Function.update_of_ne ht]

theorem push {fs : List Frame} (hw : Threads.waits fs = []) : Local k (k.push fs) := by
  refine setStack ?_
  rw [waits_append, hw, List.nil_append]

theorem changeLevel (k : Kernel) (now : IntStatus) : Local k (k.changeLevel now) :=
  { refl k with }

theorem oneTick (k : Kernel) : Local k k.oneTick :=
  { (push rfl : Local k (k.push [.tickLoop _, .ret .oneTick _ _])) with }

theorem setLevel (k : Kernel) (now : IntStatus) : Local k (k.setLevel now) := by
  have hcheck : Local k { k with
      failed := k.failed ++ Threads.check
        (now = IntStatus.off ∨ k.interrupt.inHandler = false) .setLevelInHandler } :=
    check (.inr not_false)
  unfold Kernel.setLevel
  by_cases hon : now = .on ∧ k.interrupt.level = .off
  · rw [if_pos hon]
    exact (hcheck.trans (changeLevel _ now)).trans (oneTick _)
  · rw [if_neg hon]
    exact hcheck.trans (changeLevel _ now)

theorem checkIfDue (k : Kernel) (advanceClock : Bool) : Local k (k.checkIfDue advanceClock).2 :=
  { check (k := k) (c := k.interrupt.level = .off) (a := .checkIfDueLevel) (.inr not_false) with }

theorem setSpace (t : ThreadId) (space : AddrSpace) : Local k (k.setSpace t space) :=
  { refl k with
    status := fun u => update_same (g := Thread.status) (by rfl) u
    waits := fun u => update_same (g := fun th => Threads.waits th.stack) (by rfl) u
    others := fun u _ => update_same (g := Thread.stack) (by rfl) u }

theorem powerdown (k : Kernel) : Local k k.powerdown := by
  have hpush : Local { k with halted := true } (Kernel.push { k with halted := true } [.exit]) :=
    push rfl
  exact { hpush.trans (setLevel _ .on) with }

end Local

section Waiting

variable {k : Kernel} {s : SemId} {rest : List Frame}

/-- A thread finds the semaphore at zero. -/
theorem abs_pTest_zero (hc : k.currentThread ∈ k.threadList) (hv : (k.sems s).value = 0) :
    ((k.setStack rest).pTest s).abs
      = { k.abs with
          queue := Function.update k.abs.queue s (k.abs.queue s ++ [k.currentThread])
          phase := Function.update k.abs.phase k.currentThread (.blocked s) } := by
  have hvalue : Function.update k.abs.value s (k.sems s).value = k.abs.value :=
    Function.update_eq_self s _
  have hsem := abs_setSem (k := k) (s := s)
    { k.sems s with queue := (k.sems s).queue ++ [k.currentThread] }
  rw [hvalue] at hsem
  rw [Kernel.setStack_pTest_zero hv, abs_callSleep (by exact hc), hsem]
  rfl

/-- A thread finds a unit. -/
theorem abs_pTest_nonzero (hc : k.currentThread ∈ k.threadList)
    (hrun : (k.threads k.currentThread).status = .running) (hrest : waits rest = [])
    (hv : (k.sems s).value ≠ 0) :
    ((k.setStack rest).pTest s).abs
      = { k.abs with
          value := Function.update k.abs.value s (k.abs.value s - 1)
          phase := Function.update k.abs.phase k.currentThread (.running none)
          log := k.history.sched ++ [.down s] } := by
  have hqueue : Function.update k.abs.queue s (k.sems s).queue = k.abs.queue :=
    Function.update_eq_self s _
  have hstack := abs_setStack hc rest
  rw [Thread.phase_of_running (by exact hrun), hrest] at hstack
  have hsem := abs_setSem (k := k.setStack rest) (s := s)
    { k.sems s with value := (k.sems s).value - 1 }
  rw [hstack] at hsem
  rw [Kernel.pTest_nonzero (k := k.setStack rest) hv]
  refine (congrArg (fun a : Dispatcher ThreadId SemId =>
    { a with log := k.history.sched ++ [Dispatcher.Event.down s] }) hsem).trans ?_
  show Dispatcher.mk _ _ _ (Function.update k.abs.queue s (k.sems s).queue) _ _ _ _ = _
  rw [hqueue]
  rfl

end Waiting

/-- The current thread goes to the end of the ready list and another one gets the
processor. -/
theorem abs_switch {k : Kernel} {n : ThreadId} (fs : List Frame)
    (hc : k.currentThread ∈ k.threadList) (hn : n ∈ k.threadList) (hne : n ≠ k.currentThread)
    (hw : waits fs = []) :
    (((k.push fs).readyToRun k.currentThread).run n).abs
      = { k.abs with
          ready := k.readyList ++ [k.currentThread]
          cpu := n
          phase := Function.update
            (Function.update k.abs.phase k.currentThread (.ready (waits k.stack).head?)) n
            (.running (waits (k.threads n).stack).head?)
          log := k.history.sched ++ [.readied k.currentThread, .switched k.currentThread n] } := by
  have hpush : Local k (k.push fs) := .push hw
  have hstack : (((k.push fs).readyToRun k.currentThread).threads n).stack
      = (k.threads n).stack :=
    (update_same (g := Thread.stack) (by rfl) n).trans (hpush.others n hne)
  have hlog : k.history.sched
        ++ [Dispatcher.Event.readied k.currentThread, .switched k.currentThread n]
      = k.history.sched ++ [Dispatcher.Event.readied k.currentThread]
        ++ [Dispatcher.Event.switched k.currentThread n] :=
    List.append_cons ..
  have hwaits : waits ((k.push fs).threads k.currentThread).stack = waits k.stack := hpush.waits _
  have hready := abs_readyToRun (k := k.push fs) (t := k.currentThread) hc
  rw [hpush.abs_eq, hwaits] at hready
  rw [abs_run (k := (k.push fs).readyToRun k.currentThread) hn, hready, hstack, hlog]
  rfl

end Threads
end Nachos
