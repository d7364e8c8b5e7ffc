import Nachos.Threads.Kernel

/-!
# A semaphore by itself

What `P` and `V` do to the value and the queue of a semaphore, for devices that
wait for their interrupts with one.
-/

namespace Nachos
namespace Threads

namespace Semaphore

/-- The test of the `while` in `Semaphore::P` by thread `t`, and the decrement behind it:
whether `t` goes on. -/
def test (s : Semaphore) (t : ThreadId) : Semaphore × Bool :=
  if s.value = 0 then ({ s with queue := s.queue ++ [t] }, false)
  else ({ s with value := s.value - 1 }, true)

/-- `Semaphore::V`: the thread that it makes ready, if there is one. -/
def post (s : Semaphore) : Semaphore × Option ThreadId :=
  ({ value := s.value + 1, queue := s.queue.tail }, s.queue.head?)

theorem test_zero {s : Semaphore} {t : ThreadId} (h : s.value = 0) :
    s.test t = ({ s with queue := s.queue ++ [t] }, false) := if_pos h

theorem test_nonzero {s : Semaphore} {t : ThreadId} (h : s.value ≠ 0) :
    s.test t = ({ s with value := s.value - 1 }, true) := if_neg h

end Semaphore

variable (k : Kernel) (s : SemId)

/-- `V` in the kernel. -/
theorem up_sems : (k.up s).sems = Function.update k.sems s (k.sems s).post.1 := by
  unfold Semaphore.post
  cases hq : (k.sems s).queue with
  | nil =>
    rw [Kernel.up_nil hq]
    show Function.update k.sems s ⟨_, (k.sems s).queue⟩ = _
    rw [hq]
    rfl
  | cons t queue =>
    rw [Kernel.up_cons hq]
    rfl

theorem up_readyList : (k.up s).readyList = k.readyList ++ (k.sems s).post.2.toList := by
  unfold Semaphore.post
  cases hq : (k.sems s).queue with
  | nil =>
    rw [Kernel.up_nil hq]
    exact (List.append_nil _).symm
  | cons t queue =>
    rw [Kernel.up_cons hq]
    rfl

/-- The test of `P` in the kernel. -/
theorem pTest_sems :
    (k.pTest s).sems = Function.update k.sems s ((k.sems s).test k.currentThread).1 := by
  by_cases hv : (k.sems s).value = 0
  · rw [Kernel.pTest_zero hv, Semaphore.test_zero hv]
    rfl
  · rw [Kernel.pTest_nonzero hv, Semaphore.test_nonzero hv]

end Threads
end Nachos
