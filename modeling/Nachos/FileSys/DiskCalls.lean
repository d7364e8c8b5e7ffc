import Nachos.FileSys.Atomicity
import Nachos.Lib.Desk

/-!
# The calls of the synchronous disk

Calls of `ReadSector` and `WriteSector`, written down when they are made.  Each gets the
lock once and returns once, with what was asked for, or is still under way.
-/

namespace Nachos
namespace FileSys
namespace Requests

open Lib Threads

/-- The call that a thread is in. -/
def Pc.call : Pc → Option Op
  | .outside => none
  | .acquire op | .request _ op | .p _ op _ | .asleep _ op _ | .woken _ op _ | .release _ op _ =>
    some op

/-- The call with which a thread waits for the lock. -/
def Pc.atLock : Pc → Option Op
  | .acquire op => some op
  | _ => none

/-- The lock, where a call waits until it has acquired it. -/
def lockDesk (s : State) : Desk ThreadId Op :=
  ⟨fun t => (s.threads t).atLock, s.history.acquired⟩

/-- The disk as its callers see it: a call waits until it returns. -/
def diskDesk (s : State) : Desk ThreadId Op :=
  ⟨fun t => (s.threads t).call, s.history.returned.map Returned.op⟩

/-- No call is made, gets the lock or returns. -/
structure SameCalls (s s' : State) : Prop where
  call : ∀ u, (s'.threads u).call = (s.threads u).call
  atLock : ∀ u, (s'.threads u).atLock = (s.threads u).atLock
  acquired : s'.history.acquired = s.history.acquired
  returned : s'.history.returned = s.history.returned

variable {s s' : State} {t : ThreadId} {i : Nat} {op : Op} {data : Option Sector} {pc : Pc}

namespace SameCalls

theorem of_threads (hthreads : s'.threads = s.threads)
    (hacquired : s'.history.acquired = s.history.acquired)
    (hreturned : s'.history.returned = s.history.returned) : SameCalls s s' :=
  ⟨fun u => by rw [hthreads], fun u => by rw [hthreads], hacquired, hreturned⟩

/-- A thread goes on in its call. -/
theorem moveTo (hcall : pc.call = (s.threads t).call) (hlock : pc.atLock = (s.threads t).atLock) :
    SameCalls s (s.moveTo t pc) :=
  ⟨(Function.forall_update_iff _ fun u (p : Pc) => p.call = (s.threads u).call).mpr
      ⟨hcall, fun _ _ => rfl⟩,
    (Function.forall_update_iff _ fun u (p : Pc) => p.atLock = (s.threads u).atLock).mpr
      ⟨hlock, fun _ _ => rfl⟩, rfl, rfl⟩

theorem request (ht : s.threads t = .request i op) : SameCalls s (s.request t i op) := by
  unfold State.request
  split
  · exact .of_threads rfl rfl rfl
  · split
    · exact .of_threads rfl rfl rfl
    · have hmove : SameCalls s (s.moveTo t (.p i op (op.data s.file))) :=
        .moveTo (by rw [ht]; rfl) (by rw [ht]; rfl)
      exact { hmove with }

theorem test (hcall : (s.threads t).call = some op) (hlock : (s.threads t).atLock = none) :
    SameCalls s (s.test t i op data) := by
  unfold State.test
  split
  · have hmove : SameCalls s (s.moveTo t (.asleep i op data)) := .moveTo hcall.symm hlock.symm
    exact { hmove with }
  · have hmove : SameCalls s (s.moveTo t (.release i op data)) := .moveTo hcall.symm hlock.symm
    exact { hmove with }

theorem p (ht : s.threads t = .p i op data) : SameCalls s (s.p t i op data) := by
  unfold State.p
  split
  · exact .test (by rw [ht]; rfl) (by rw [ht]; rfl)
  · exact .of_threads rfl rfl rfl

theorem ready (woken : Option ThreadId) : SameCalls s (s.ready woken) := by
  unfold State.ready
  split
  · exact .of_threads rfl rfl rfl
  · split
    · rename_i ht
      exact .moveTo (by rw [ht]; rfl) (by rw [ht]; rfl)
    · exact .of_threads rfl rfl rfl

theorem handleInterrupt (i : Nat) : SameCalls s (s.handleInterrupt i) := by
  unfold State.handleInterrupt State.v
  split
  · have hready := SameCalls.ready (s := { s with pending := s.pending.erase i, active := false })
      s.semaphore.post.2
    exact ⟨hready.call, hready.atLock, rfl, rfl⟩
  · exact .of_threads rfl rfl rfl

theorem lockDesk_eq (h : SameCalls s s') : lockDesk s' = lockDesk s := by
  rw [lockDesk, lockDesk, h.acquired, funext h.atLock]

theorem diskDesk_eq (h : SameCalls s s') : diskDesk s' = diskDesk s := by
  rw [diskDesk, diskDesk, h.returned, funext h.call]

end SameCalls

theorem atLock_update (threads : ThreadId → Pc) (t : ThreadId) (pc : Pc) :
    (fun u => (Function.update threads t pc u).atLock) =
      Function.update (fun u => (threads u).atLock) t pc.atLock :=
  Function.comp_update Pc.atLock threads t pc

theorem call_update (threads : ThreadId → Pc) (t : ThreadId) (pc : Pc) :
    (fun u => (Function.update threads t pc u).call) =
      Function.update (fun u => (threads u).call) t pc.call :=
  Function.comp_update Pc.call threads t pc

/-- A call is made, gets the lock or returns at one desk each. -/
theorem Step.lockDesk (h : Step s s') : ∃ made, (lockDesk s).Step made (lockDesk s') := by
  have hsame : SameCalls s s' → ∃ made, (Requests.lockDesk s).Step made (Requests.lockDesk s') :=
    fun h => ⟨[], h.lockDesk_eq ▸ .quiet⟩
  cases h with
  | @call t op ht hn =>
    have hcall := Desk.Step.call (d := Requests.lockDesk s) op (congrArg Pc.atLock ht)
    exact ⟨_, (atLock_update s.threads t (.acquire op)) ▸ hcall⟩
  | @acquire t op ht hl =>
    have hserve := Desk.Step.serve (d := Requests.lockDesk s) (congrArg Pc.atLock ht)
    exact ⟨_, (atLock_update s.threads t (.request s.history.acquired.length op)) ▸ hserve⟩
  | @release t i op data ht =>
    have hquiet : Requests.lockDesk (s.release t i op data) = Requests.lockDesk s := by
      refine congrArg (Desk.mk · _) ((atLock_update s.threads t .outside).trans ?_)
      exact Function.update_eq_self_iff.mpr (congrArg Pc.atLock ht).symm
    exact ⟨[], hquiet ▸ .quiet⟩
  | request ht => exact hsame (.request ht)
  | p ht => exact hsame (.p ht)
  | test ht => exact hsame (.test (by rw [ht]; rfl) (by rw [ht]; rfl))
  | interrupt hi => exact hsame (.handleInterrupt _)

theorem Step.diskDesk (h : Step s s') : ∃ made, (diskDesk s).Step made (diskDesk s') := by
  have hsame : SameCalls s s' → ∃ made, (Requests.diskDesk s).Step made (Requests.diskDesk s') :=
    fun h => ⟨[], h.diskDesk_eq ▸ .quiet⟩
  cases h with
  | @call t op ht hn =>
    have hcall := Desk.Step.call (d := Requests.diskDesk s) op (congrArg Pc.call ht)
    exact ⟨_, (call_update s.threads t (.acquire op)) ▸ hcall⟩
  | @acquire t op ht hl =>
    have hquiet : Requests.diskDesk (s.acquire t op) = Requests.diskDesk s := by
      refine congrArg (Desk.mk · _) ((call_update s.threads t (.request _ op)).trans ?_)
      exact Function.update_eq_self_iff.mpr (congrArg Pc.call ht).symm
    exact ⟨[], hquiet ▸ .quiet⟩
  | @release t i op data ht =>
    have hserve := Desk.Step.serve (d := Requests.diskDesk s) (congrArg Pc.call ht)
    have hdesk : Requests.diskDesk (s.release t i op data) =
        ⟨Function.update (Requests.diskDesk s).waiting t none,
          (Requests.diskDesk s).served ++ [op]⟩ := by
      refine (congrArg (Desk.mk · _) (call_update s.threads t .outside)).trans ?_
      exact congrArg (Desk.mk _) List.map_append
    exact ⟨[], hdesk ▸ hserve⟩
  | request ht => exact hsame (.request ht)
  | p ht => exact hsame (.p ht)
  | test ht => exact hsame (.test (by rw [ht]; rfl) (by rw [ht]; rfl))
  | interrupt hi => exact hsame (.handleInterrupt _)

/-- Every run can be written down, call by call, and then each call has acquired the lock once
or waits for it, in the order in which the requests are numbered. -/
theorem acquired_of_calls {file : Block} (hs : (system file).Reachable s) :
    (∃ calls, (Desk.recorded (system file) lockDesk).Reachable (s, calls)) ∧
    ∀ calls, (Desk.recorded (system file) lockDesk).Reachable (s, calls) →
      Desk.Accounts calls (lockDesk s) :=
  ⟨Desk.exists_recorded (fun _ _ h => h.2.lockDesk) hs,
    fun _ h => Desk.accounts_of_recorded (fun _ hinit => by rw [hinit]; rfl) h⟩

/-- And each call has returned once, or is under way. -/
theorem returned_of_calls {file : Block} (hs : (system file).Reachable s) :
    (∃ calls, (Desk.recorded (system file) diskDesk).Reachable (s, calls)) ∧
    ∀ calls, (Desk.recorded (system file) diskDesk).Reachable (s, calls) →
      Desk.Accounts calls (diskDesk s) :=
  ⟨Desk.exists_recorded (fun _ _ h => h.2.diskDesk) hs,
    fun _ h => Desk.accounts_of_recorded (fun _ hinit => by rw [hinit]; rfl) h⟩

end Requests
end FileSys
end Nachos
