import Nachos.Threads.Simulation

/-!
# The life of a thread

What the invariant of the dispatcher says of statuses, the ready list, the order
in which threads run, and the deletion of finished threads.
-/

namespace Nachos
namespace Threads

open Lib Dispatcher

variable {start : SemId → Int} {k k' : Kernel} {t : ThreadId}

theorem mem_readyList_iff (h : Inv start k) :
    t ∈ k.readyList ↔ t ∈ k.threadList ∧ (k.threads t).status = .ready := by
  constructor
  · exact h.ready
  · rintro ⟨halive, hready⟩
    refine (h.sound.placed.ready.mem t).mpr ?_
    rw [Inv.phase k halive]
    exact Thread.phase_ready_iff.mpr hready

theorem running_current (h : Inv start k) (ht : t ∈ k.threadList)
    (hrun : (k.threads t).status = .running) : t = k.currentThread := by
  refine h.sound.placed.running t ?_
  rw [Inv.phase k ht]
  exact Thread.phase_running_iff.mpr hrun

/-- A finished thread is the one to be destroyed, or it has been deleted. -/
theorem mem_finished_iff (h : Inv start k) :
    t ∈ finished k.history.sched ↔
      k.threadToBeDestroyed = some t ∨ t ∈ deleted k.history.sched := by
  have hfinished := h.sound.recorded.finished.mem t
  have hdeleted := h.sound.recorded.deleted.mem t
  have hzombie := h.sound.placed.zombie.mem t
  have hoption : t ∈ k.abs.zombie.toList ↔ k.threadToBeDestroyed = some t := by
    show t ∈ k.threadToBeDestroyed.toList ↔ _
    rw [Option.mem_toList]
  rw [hoption] at hzombie
  refine hfinished.trans ?_
  rw [hzombie, show t ∈ deleted k.history.sched ↔ _ from hdeleted]
  cases k.abs.phase t <;> simp

/-- A step in which nothing happens to the scheduler but perhaps one `Yield`. -/
def YieldStep (k k' : Kernel) : Prop :=
  Step k k' ∧ (k'.history.sched = k.history.sched ∨
    ∃ n, k'.history.sched
      = k.history.sched ++ [.readied k.currentThread, .switched k.currentThread n])

/-- The threads that only yield take turns. -/
theorem round_robin (h : (system start).Reachable k)
    (hrun : Relation.ReflTransGen YieldStep k k') :
    ∃ m, (switches k'.history.sched).length = (switches k.history.sched).length + m ∧
      k'.currentThread :: k'.readyList = (k.currentThread :: k.readyList).rotate m := by
  have hreach : ∀ {k'}, Relation.ReflTransGen YieldStep k k' → (system start).Reachable k' :=
    fun hrun => h.run (Relation.ReflTransGen.mono (fun _ _ (hstep : YieldStep _ _) => hstep.1) _ _
      hrun)
  induction hrun with
  | refl => exact ⟨0, rfl, (List.rotate_zero _).symm⟩
  | @tail k₁ k₂ hrun hstep ih =>
    obtain ⟨m, hm, hrotate⟩ := ih
    have h₁ := hreach hrun
    have h₂ := hreach (hrun.tail hstep)
    have hmoves := step_refines h₁ hstep.1
    have hrec₁ := (inv_of_reachable h₁).sound.recorded
    have hrec₂ := (inv_of_reachable h₂).sound.recorded
    rcases hstep.2 with hlog | ⟨n, hlog⟩
    · obtain ⟨hcpu, hready⟩ := hmoves.still hrec₁ hrec₂ hlog
      refine ⟨m, by rw [hlog, hm], ?_⟩
      rw [← hrotate]
      exact congrArg₂ List.cons hcpu hready
    · refine ⟨m + 1, ?_, ?_⟩
      · rw [hlog, switches_append, List.length_append, hm]
        rfl
      · rw [← List.rotate_rotate, ← hrotate]
        exact hmoves.rotate hrec₁ hrec₂ hlog

/-- **The life of a thread.**  In every state of every run. -/
theorem lifecycle (h : (system start).Reachable k) :
    (k.readyList.Nodup ∧
      ∀ t, t ∈ k.readyList ↔ t ∈ k.threadList ∧ (k.threads t).status = .ready) ∧
    (∀ t ∈ k.threadList, (k.threads t).status = .running → t = k.currentThread) ∧
    (.sleep ∉ k.stack → (k.threads k.currentThread).status = .running) ∧
    readied k.history.sched = dispatched k.history.sched ++ k.readyList ∧
    (∀ k', Relation.ReflTransGen YieldStep k k' →
      ∃ m, (switches k'.history.sched).length = (switches k.history.sched).length + m ∧
        k'.currentThread :: k'.readyList = (k.currentThread :: k.readyList).rotate m) ∧
    (∀ z, k.threadToBeDestroyed = some z → z ∈ finished k.history.sched ∧ z ∉ k.readyList ∧
      ∀ s, z ∉ (k.sems s).queue) ∧
    ((finished k.history.sched).Nodup ∧ (deleted k.history.sched).Nodup ∧
      ∀ t, t ∈ finished k.history.sched ↔
        k.threadToBeDestroyed = some t ∨ t ∈ deleted k.history.sched) ∧
    (∀ t ∈ deleted k.history.sched, k.threadToBeDestroyed ≠ some t ∧ t ∉ k.threadList) ∧
    Prompt k.history.sched ∧
    .finishDestroyed ∉ k.failed ∧ .deleteCurrent ∉ k.failed ∧ .threadListRemove ∉ k.failed := by
  have hk := inv_of_reachable h
  refine ⟨⟨hk.sound.placed.ready.nodup, fun t => mem_readyList_iff hk⟩,
    fun t ht hrun => running_current hk ht hrun, hk.linked.standing.running,
    hk.sound.recorded.order, fun k' hrun => round_robin h hrun, fun z hz => ?_,
    ⟨hk.sound.recorded.finished.nodup, hk.sound.recorded.deleted.nodup,
      fun t => mem_finished_iff hk⟩, fun t ht => ?_, hk.sound.recorded.prompt, ?_, ?_, ?_⟩
  · have hblocked := (hk.zombie hz).2
    refine ⟨(mem_finished_iff hk).mpr (.inl hz), fun hready => ?_, fun s hqueue => ?_⟩
    · exact nomatch hblocked.1.symm.trans (hk.ready hready).2
    · exact nomatch hblocked.2.symm.trans (hk.blocked hqueue).2.2
  · have hgone := (hk.sound.recorded.deleted.mem t).mp ht
    have hnot : t ∉ k.threadList := by
      intro halive
      have hphase := (hk.sound.placed.alive.mem t).mp halive
      revert hphase hgone
      cases k.abs.phase t <;> simp
    exact ⟨fun hz => hnot (hk.zombie hz).1, hnot⟩
  · exact fun ha => hk.linked.failed _ ha trivial
  · exact fun ha => hk.linked.failed _ ha trivial
  · exact fun ha => hk.linked.failed _ ha trivial

/-- Thread 1 finishes and switches to `main`, which deletes it. -/
theorem lifecycle_deleted :
    ∃ k, (system fun _ => 0).Reachable k ∧ k.currentThread = 0 ∧
      finished k.history.sched = [1] ∧ deleted k.history.sched = [1] ∧
      (∀ t ∈ deleted k.history.sched, k.threadToBeDestroyed ≠ some t ∧ t ∉ k.threadList) ∧
      Prompt k.history.sched ∧
      .finishDestroyed ∉ k.failed ∧ .deleteCurrent ∉ k.failed ∧ .threadListRemove ∉ k.failed := by
  have hs := yielded_reachable.step ⟨rfl, .setup rfl⟩
  have hs := hs.step ⟨rfl, .tickDone rfl rfl⟩
  have hs := hs.step ⟨rfl, .ret rfl⟩
  have hs := hs.step ⟨rfl, .code rfl .finish⟩
  have hs := hs.step ⟨rfl, .sleepRun rfl rfl⟩
  have hs := hs.step ⟨rfl, .afterRun rfl⟩
  exact ⟨_, hs, rfl, rfl, rfl, (lifecycle hs).2.2.2.2.2.2.2⟩

end Threads
end Nachos
