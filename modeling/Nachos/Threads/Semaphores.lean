import Nachos.Threads.Simulation

/-!
# Semaphores

What the invariant of the dispatcher says of `Semaphore::P` and `Semaphore::V`:
the value counts, the queue holds sleeping threads, and no wake-up is lost.  `V`
takes a thread out of the queue without handing it the unit, so that another
thread may be faster; such a thread is on its way until it has tested the value
again.
-/

namespace Nachos
namespace Threads

open Lib

variable {start : SemId → Int} {k : Kernel} {s : SemId} {t : ThreadId}

theorem mem_waits {fs : List Frame} : s ∈ waits fs ↔ .pLoop s ∈ fs := by
  induction fs with
  | nil => simp [waits]
  | cons f fs ih => cases f <;> simp [waits, ih]

/-- A thread is inside the loop of at most one `P`. -/
theorem head_waits_iff (h : Inv start k) :
    (waits (k.threads t).stack).head? = some s ↔ .pLoop s ∈ (k.threads t).stack := by
  have hlength := h.linked.waits t
  rw [← mem_waits]
  cases hw : waits (k.threads t).stack with
  | nil => simp
  | cons s' rest =>
    rw [hw] at hlength
    have hnil : rest = [] :=
      List.length_eq_zero_iff.mp (Nat.le_zero.mp (Nat.le_of_succ_le_succ hlength))
    rw [hnil, List.head?_cons, List.mem_singleton, Option.some_inj]
    exact eq_comm

/-- The threads that `V` took out of the queue and that have not tested the value
again. -/
def Kernel.onTheirWay (k : Kernel) (s : SemId) : List ThreadId :=
  k.threadList.filter fun t => .pLoop s ∈ (k.threads t).stack ∧ t ∉ (k.sems s).queue

theorem mem_queue_iff (h : Inv start k) :
    t ∈ (k.sems s).queue ↔ t ∈ k.threadList ∧ (k.threads t).status = .blocked ∧
      .pLoop s ∈ (k.threads t).stack := by
  constructor
  · intro ht
    obtain ⟨halive, hblocked, hwaits⟩ := h.blocked ht
    exact ⟨halive, hblocked, (head_waits_iff h).mp hwaits⟩
  · rintro ⟨halive, hblocked, hmem⟩
    refine ((h.sound.placed.queue s).mem t).mpr ?_
    rw [Inv.phase k halive]
    exact Thread.phase_blockedOn_iff.mpr ⟨hblocked, (head_waits_iff h).mpr hmem⟩

theorem inFlight_eq (h : Inv start k) (hcreated : ∀ t, (k.threads t).status = .justCreated →
    (k.threads t).stack = []) : k.abs.inFlight s = (k.onTheirWay s).length := by
  unfold Dispatcher.inFlight count Kernel.onTheirWay
  rw [← List.countP_eq_length_filter]
  refine List.countP_congr fun t ht => ?_
  have halive : t ∈ k.threadList := ht
  rw [decide_eq_true_iff, decide_eq_true_iff, Inv.phase k halive, mem_queue_iff h,
    ← head_waits_iff h]
  unfold Phase.InFlight Thread.phase
  cases hs : (k.threads t).status with
  | justCreated => simp [hcreated t hs, waits]
  | ready => simp [halive]
  | running => simp [halive]
  | blocked => cases (waits (k.threads t).stack).head? <;> simp [halive]

/-- **Semaphores.**  In every state of every run. -/
theorem semaphore_safe (h : (system start).Reachable k) (s : SemId) :
    0 ≤ (k.sems s).value ∧
    (k.sems s).value = start s + Dispatcher.ups k.history.sched s
      - Dispatcher.downs k.history.sched s ∧
    (k.sems s).queue.Nodup ∧
    (∀ t ∈ (k.sems s).queue, t ∈ k.threadList ∧ (k.threads t).status = .blocked ∧
      .pLoop s ∈ (k.threads t).stack) ∧
    ((k.sems s).queue ≠ [] → (k.sems s).value ≤ (k.onTheirWay s).length) ∧
    ((∀ t ∈ k.threadList, (k.threads t).status = .blocked) →
      (k.sems s).value = 0 ∨ (k.sems s).queue = []) ∧
    .pValue ∉ k.failed ∧ .vValue ∉ k.failed := by
  have hk := inv_of_reachable h
  have hinFlight := inFlight_eq (s := s) hk (controlled_of_reachable h).created
  have hbound : (k.sems s).queue ≠ [] → (k.sems s).value ≤ (k.onTheirWay s).length := by
    intro hqueue
    rw [← hinFlight]
    exact hk.sound.counted.bound s hqueue
  have hnonneg : 0 ≤ (k.sems s).value := hk.sound.counted.nonneg s
  refine ⟨hnonneg, hk.sound.counted.value s, (hk.sound.placed.queue s).nodup,
    fun t ht => (mem_queue_iff hk).mp ht, hbound, fun hall => ?_, ?_, ?_⟩
  · -- A blocked thread is not on its way: it would be in the queue.
    by_cases hqueue : (k.sems s).queue = []
    · exact .inr hqueue
    · have hnone : k.onTheirWay s = [] := by
        refine List.filter_eq_nil_iff.mpr fun t ht => ?_
        rw [decide_eq_true_iff]
        rintro ⟨hmem, hnot⟩
        exact hnot ((mem_queue_iff hk).mpr ⟨ht, hall t ht, hmem⟩)
      have hzero := hbound hqueue
      rw [hnone] at hzero
      exact .inl (Int.le_antisymm hzero hnonneg)
  · exact fun ha => hk.linked.failed _ ha trivial
  · exact fun ha => hk.linked.failed _ ha trivial

/-- `main` waits for a semaphore that starts at 0. -/
theorem semaphore_safe_waiting :
    let k := (boot fun _ => 0).p 0
    (k.sems 0).queue = [0] ∧
    0 ≤ (k.sems 0).value ∧
    (k.sems 0).value = 0 + Dispatcher.ups k.history.sched 0 - Dispatcher.downs k.history.sched 0 ∧
    (k.sems 0).queue.Nodup ∧
    (∀ t ∈ (k.sems 0).queue, t ∈ k.threadList ∧ (k.threads t).status = .blocked ∧
      .pLoop 0 ∈ (k.threads t).stack) ∧
    ((k.sems 0).queue ≠ [] → (k.sems 0).value ≤ (k.onTheirWay 0).length) ∧
    ((∀ t ∈ k.threadList, (k.threads t).status = .blocked) →
      (k.sems 0).value = 0 ∨ (k.sems 0).queue = []) ∧
    .pValue ∉ k.failed ∧ .vValue ∉ k.failed :=
  ⟨rfl, semaphore_safe (System.Reachable.step (.of_init (boot_initial fun _ => le_rfl))
    ⟨rfl, .code rfl (.p 0)⟩) 0⟩

end Threads
end Nachos
