import Mathlib.Data.Prod.Lex
import Nachos.Lib.SortedQueue
import Nachos.Threads.Clock
import Nachos.Threads.Simulation

/-!
# The timer

With random time slices the timer is always running: when its interrupt occurs it
requests the next one, and the handler of the kernel has `OneTick` call `Yield`.
-/

namespace Nachos
namespace Threads

open Lib Machine

/-- `TimerTicks`. -/
abbrev timerTicks : Nat := 100

/-- `Timer::TimeOfNextInterrupt`, where `random` is what `Random` returns. -/
def timeOfNextInterrupt (randomize : Bool) (random : Nat) : Nat :=
  if randomize then 1 + random % (timerTicks * 2) else timerTicks

/-- The request of the timer at the time `now`. -/
def timerRequest (randomize : Bool) (now random : Nat) : PendingInterrupt :=
  ⟨.timerExpired, now + timeOfNextInterrupt randomize random⟩

/-- A step in which only the timer requests interrupts of the timer. -/
def TimedStep (randomize : Bool) (k k' : Kernel) : Prop :=
  Step k k' ∧ ∀ p ∈ k'.interrupt.pending, p.handler = .timerExpired →
    p ∈ k.interrupt.pending ∨ ∃ random, p = timerRequest randomize k'.stats.totalTicks random

/-- The thread system when `Initialize` has started the timer. -/
def timedSystem (start : SemId → Int) (randomize : Bool) : System Kernel where
  init k := Initial start k ∧
    ∃ random, k.interrupt.pending = [timerRequest randomize k.stats.totalTicks random]
  step := TimedStep randomize

theorem timed_reachable {start : SemId → Int} {randomize : Bool} {k : Kernel}
    (h : (timedSystem start randomize).Reachable k) : (system start).Reachable k := by
  refine h.induct (I := (system start).Reachable) ?_ ?_
  · intro k hinit
    exact .of_init hinit.1
  · intro k k' hk hstep
    exact hk.step hstep.1

/-- The longest time slice. -/
def longestSlice (randomize : Bool) : Nat := if randomize then timerTicks * 2 else timerTicks

/-- The longest time from one switch to the next: the timer is noticed at the end of a tick,
which may be one in system mode. -/
def longestTurn (randomize : Bool) : Nat := longestSlice randomize + systemTick

theorem timeOfNextInterrupt_le (randomize : Bool) (random : Nat) :
    timeOfNextInterrupt randomize random ≤ longestSlice randomize := by
  unfold timeOfNextInterrupt longestSlice
  cases randomize with
  | true =>
    have hmod := Nat.mod_lt random (show 0 < timerTicks * 2 by decide)
    simp only [if_true]
    omega
  | false => exact le_rfl

theorem Statistics.tick_le (s : Statistics) (status : MachineStatus) :
    (s.tick status).totalTicks ≤ s.totalTicks + systemTick := by
  unfold Statistics.tick
  by_cases h : status = .system
  · rw [if_pos h]
  · rw [if_neg h]
    exact Nat.add_le_add_left (by decide) _

theorem Statistics.lt_tick (s : Statistics) (status : MachineStatus) :
    s.totalTicks < (s.tick status).totalTicks := by
  unfold Statistics.tick
  by_cases h : status = .system
  · rw [if_pos h]
    exact Nat.lt_add_of_pos_right (by decide)
  · rw [if_neg h]
    exact Nat.lt_add_of_pos_right (by decide)

/-! ## The queue of pending interrupts -/

theorem sortedInsert_eq (p : PendingInterrupt) (l : List PendingInterrupt) :
    sortedInsert p l = SortedQueue.insert PendingInterrupt.when p l := by
  induction l with
  | nil => rfl
  | cons q rest ih =>
    unfold sortedInsert
    by_cases hlt : p.when < q.when
    · rw [if_pos hlt, SortedQueue.insert_front hlt]
    · rw [if_neg hlt, SortedQueue.insert_behind hlt, ih]

theorem mem_sortedInsert {p q : PendingInterrupt} {l : List PendingInterrupt} :
    q ∈ sortedInsert p l ↔ q = p ∨ q ∈ l := by
  rw [sortedInsert_eq, (SortedQueue.insert_perm p l).mem_iff, List.mem_cons]

/-- `OneTick` and `Idle` are in their loops: a handler may have asked them to yield. -/
def InLoop : List Frame → Prop
  | .tickLoop _ :: _ => True
  | .idleLoop :: _ => True
  | _ => False

namespace Kernel

/-- The queue of pending interrupts is in order. -/
def InOrder (k : Kernel) : Prop :=
  SortedQueue.Sorted PendingInterrupt.when k.interrupt.pending

/-- An interrupt of the timer is pending, and a tick that lets it be noticed is over at
`limit`. -/
def TimerBy (k : Kernel) (limit : Nat) : Prop :=
  ∃ p ∈ k.interrupt.pending, p.handler = .timerExpired ∧ p.when + systemTick ≤ limit

/-- An interrupt of the timer is pending. -/
def TimerRuns (k : Kernel) : Prop := ∃ p ∈ k.interrupt.pending, p.handler = .timerExpired

/-- The number of interrupts that are due. -/
def due (k : Kernel) : Nat :=
  (SortedQueue.due PendingInterrupt.when k.stats.totalTicks k.interrupt.pending).length

/-- What the clock has to do with the rest of the kernel: the interrupts it is waited for,
and the wish to yield. -/
def slice (k : Kernel) : List PendingInterrupt × Bool :=
  (k.interrupt.pending, k.interrupt.yieldOnReturn)

variable {k k' : Kernel}

@[simp] theorem readyToRun_slice (t : ThreadId) : (k.readyToRun t).slice = k.slice := rfl

@[simp] theorem setStack_slice (fs : List Frame) : (k.setStack fs).slice = k.slice := rfl

@[simp] theorem up_slice (s : SemId) : (k.up s).slice = k.slice := by
  cases hq : (k.sems s).queue with
  | nil => rw [up_nil hq]; rfl
  | cons t queue => rw [up_cons hq]; rfl

@[simp] theorem setLevel_slice (now : IntStatus) : (k.setLevel now).slice = k.slice := by
  unfold setLevel
  by_cases hon : now = .on ∧ k.interrupt.level = .off
  · rw [if_pos hon]
    rfl
  · rw [if_neg hon]
    rfl

@[simp] theorem pTest_slice (s : SemId) : (k.pTest s).slice = k.slice := by
  by_cases hv : (k.sems s).value = 0
  · rw [pTest_zero hv]
    rfl
  · rw [pTest_nonzero hv]
    rfl

@[simp] theorem yield_slice : k.yield.slice = k.slice := by
  cases hnext : k.findNextToRun with
  | none => rw [yield_none hnext]; rfl
  | some next => rw [yield_some hnext]; rfl

@[simp] theorem powerdown_slice : k.powerdown.slice = k.slice := by
  unfold powerdown
  rw [setLevel_slice]
  rfl

@[simp] theorem destroy_slice : k.destroy.slice = k.slice := by
  unfold destroy
  cases k.threadToBeDestroyed with
  | none => rfl
  | some t => rfl

theorem destroy_keeps (k : Kernel) : k.destroy.readyList = k.readyList ∧
    k.destroy.halted = k.halted ∧ k.destroy.stats = k.stats := by
  unfold destroy
  cases k.threadToBeDestroyed with
  | none => exact ⟨rfl, rfl, rfl⟩
  | some t => exact ⟨rfl, rfl, rfl⟩

end Kernel

/-! ## Looks at the queue -/

/-- A look at the queue that finds no interrupt to run. -/
theorem Interrupt.checkIfDue_none {i : Interrupt} {s : Statistics} {advanceClock : Bool}
    (h : (i.checkIfDue s advanceClock).toOccur = none) :
    i.pending = [] ∧ (i.checkIfDue s advanceClock).pending = [] ∧
        (i.checkIfDue s advanceClock).stats = s ∨
      ∃ p rest, i.pending = p :: rest ∧
        (i.checkIfDue s advanceClock).pending = sortedInsert p rest ∧
        (s.totalTicks < p.when ∧ (i.checkIfDue s advanceClock).stats = s ∨ i.status = .idle) := by
  unfold Interrupt.checkIfDue at h ⊢
  cases hp : i.pending with
  | nil => exact .inl ⟨rfl, rfl, rfl⟩
  | cons p rest =>
    rw [hp] at h
    dsimp only at h ⊢
    refine .inr ⟨p, rest, rfl, ?_⟩
    by_cases hlater : s.totalTicks < p.when ∧ !advanceClock
    · rw [if_pos hlater]
      exact ⟨rfl, .inl ⟨hlater.1, rfl⟩⟩
    · rw [if_neg hlater] at h ⊢
      by_cases hidle : i.status = .idle ∧ p.handler.type = .timer ∧ rest = []
      · rw [if_pos hidle]
        exact ⟨rfl, .inr hidle.1⟩
      · rw [if_neg hidle] at h
        cases h

/-- A look at the queue that finds an interrupt to run. -/
theorem Interrupt.checkIfDue_some {i : Interrupt} {s : Statistics} {advanceClock : Bool}
    {p : PendingInterrupt} (h : (i.checkIfDue s advanceClock).toOccur = some p) :
    i.pending = p :: (i.checkIfDue s advanceClock).pending ∧ (advanceClock = false →
      p.when ≤ s.totalTicks ∧ (i.checkIfDue s advanceClock).stats = s) := by
  unfold Interrupt.checkIfDue at h ⊢
  cases hp : i.pending with
  | nil =>
    rw [hp] at h
    cases h
  | cons q rest =>
    rw [hp] at h
    dsimp only at h ⊢
    by_cases hlater : s.totalTicks < q.when ∧ !advanceClock
    · rw [if_pos hlater] at h
      cases h
    · rw [if_neg hlater] at h ⊢
      by_cases hidle : i.status = .idle ∧ q.handler.type = .timer ∧ rest = []
      · rw [if_pos hidle] at h
        cases h
      · rw [if_neg hidle] at h ⊢
        cases h
        refine ⟨rfl, fun hadvance => ?_⟩
        have hnot : ¬ s.totalTicks < p.when := fun hlt => hlater ⟨hlt, by rw [hadvance]; rfl⟩
        exact ⟨not_lt.mp hnot, if_neg hnot⟩

/-- What a look at the queue keeps. -/
structure Looked (k k' : Kernel) : Prop where
  inOrder : k.InOrder → k'.InOrder
  pending : k'.interrupt.pending.Perm k.interrupt.pending
  yieldOnReturn : k'.interrupt.yieldOnReturn = k.interrupt.yieldOnReturn

theorem Looked.of_none {k k' : Kernel} {advanceClock : Bool}
    (h : k.checkIfDue advanceClock = (none, k')) : Looked k k' := by
  obtain ⟨hnone, rfl⟩ := Prod.mk.inj h
  rcases Interrupt.checkIfDue_none hnone with ⟨hnil, hnil', -⟩ | ⟨p, rest, hp, hback, -⟩
  · refine ⟨fun _ => ?_, ?_, rfl⟩
    · unfold Kernel.InOrder
      dsimp only
      rw [hnil']
      exact .nil
    · dsimp only
      rw [hnil, hnil']
  · refine ⟨fun ho => ?_, ?_, rfl⟩
    · unfold Kernel.InOrder at ho ⊢
      dsimp only
      rw [hp] at ho
      rw [hback, sortedInsert_eq]
      exact ho.tail.insert p
    · dsimp only
      rw [hp, hback, sortedInsert_eq]
      exact SortedQueue.insert_perm p rest

/-- When the loop of `OneTick` is left, nothing is due. -/
theorem nothing_due {k k' : Kernel} (h : k.checkIfDue false = (none, k')) (ho : k.InOrder)
    (hidle : k.interrupt.status ≠ .idle) :
    k'.stats = k.stats ∧ ∀ p ∈ k.interrupt.pending, k.stats.totalTicks < p.when := by
  obtain ⟨hnone, rfl⟩ := Prod.mk.inj h
  rcases Interrupt.checkIfDue_none hnone with ⟨hnil, -, hstats⟩ | ⟨p, rest, hp, -, hlater⟩
  · refine ⟨hstats, fun p hmem => ?_⟩
    rw [hnil] at hmem
    cases hmem
  · obtain ⟨hlt, hstats⟩ := hlater.resolve_right hidle
    refine ⟨hstats, fun q hmem => ?_⟩
    unfold Kernel.InOrder at ho
    rw [hp] at hmem ho
    rcases List.mem_cons.mp hmem with rfl | hrest
    · exact hlt
    · exact hlt.trans_le ((List.pairwise_cons.mp ho).1 q hrest)

/-! ## Handlers -/

/-- What a step of a handler keeps. -/
structure Handled (k k' : Kernel) : Prop where
  stats : k'.stats = k.stats
  stack : ∀ t, (k'.threads t).stack = (k.threads t).stack
  currentThread : k'.currentThread = k.currentThread
  halted : k'.halted = k.halted
  readyList : k.readyList <+: k'.readyList
  inOrder : k.InOrder → k'.InOrder
  pending : ∀ p ∈ k.interrupt.pending, p ∈ k'.interrupt.pending
  yieldOnReturn : k.interrupt.yieldOnReturn = true → k'.interrupt.yieldOnReturn = true

namespace Handled

variable {k k₁ k₂ k₃ : Kernel}

theorem refl (k : Kernel) : Handled k k :=
  ⟨rfl, fun _ => rfl, rfl, rfl, List.prefix_rfl, id, fun _ h => h, id⟩

theorem trans (h : Handled k₁ k₂) (h' : Handled k₂ k₃) : Handled k₁ k₃ where
  stats := h'.stats.trans h.stats
  stack t := (h'.stack t).trans (h.stack t)
  currentThread := h'.currentThread.trans h.currentThread
  halted := h'.halted.trans h.halted
  readyList := h.readyList.trans h'.readyList
  inOrder ho := h'.inOrder (h.inOrder ho)
  pending p hp := h'.pending p (h.pending p hp)
  yieldOnReturn hy := h'.yieldOnReturn (h.yieldOnReturn hy)

theorem schedule (handler : Handler) (fromNow : Nat) : Handled k (k.schedule handler fromNow) := by
  refine ⟨rfl, fun _ => rfl, rfl, rfl, List.prefix_rfl, fun ho => ?_,
    fun p hp => mem_sortedInsert.mpr (.inr hp), id⟩
  unfold Kernel.InOrder Kernel.schedule
  dsimp only
  rw [sortedInsert_eq]
  exact SortedQueue.Sorted.insert ho _

theorem timeSlice : Handled k k.timeSlice := by
  unfold Kernel.timeSlice
  by_cases hidle : k.interrupt.status = .idle
  · rw [if_pos hidle]
    exact refl k
  · rw [if_neg hidle]
    exact { refl k with yieldOnReturn := fun _ => rfl }

theorem up (s : SemId) : Handled k (k.up s) := by
  have hslice := k.up_slice s
  have hpending : (k.up s).interrupt.pending = k.interrupt.pending := congrArg Prod.fst hslice
  have hflag : (k.up s).interrupt.yieldOnReturn = k.interrupt.yieldOnReturn :=
    congrArg Prod.snd hslice
  have hrest : (k.up s).stats = k.stats ∧ (k.up s).halted = k.halted ∧
      k.readyList <+: (k.up s).readyList := by
    cases hq : (k.sems s).queue with
    | nil =>
      rw [Kernel.up_nil hq]
      exact ⟨rfl, rfl, List.prefix_rfl⟩
    | cons t queue =>
      rw [Kernel.up_cons hq]
      exact ⟨rfl, rfl, List.prefix_append _ _⟩
  refine ⟨hrest.1, (SameControl.up s).stack, (SameControl.up s).currentThread, hrest.2.1,
    hrest.2.2, fun ho => ?_, fun p hp => hpending ▸ hp, fun hy => hflag.trans hy⟩
  unfold Kernel.InOrder
  rwa [hpending]

theorem applyEffect (e : Effect) : Handled k (k.applyEffect e) := by
  cases e with
  | schedule handler fromNow => exact schedule handler fromNow
  | timeSlice => exact timeSlice
  | signal s =>
    have hup := up (k := k.changeLevel .off) s
    exact ⟨hup.stats, hup.stack, hup.currentThread, hup.halted, hup.readyList, hup.inOrder,
      hup.pending, hup.yieldOnReturn⟩

theorem applyEffects (effects : List Effect) :
    Handled k (effects.foldl Kernel.applyEffect k) := by
  induction effects generalizing k with
  | nil => exact refl k
  | cons e effects ih => exact (applyEffect e).trans ih

end Handled

/-- What the handler of an interrupt does to the clock, the queue and the scheduler. -/
structure Fired (k k' : Kernel) : Prop where
  stack : ∀ t, (k'.threads t).stack = (k.threads t).stack
  currentThread : k'.currentThread = k.currentThread
  halted : k'.halted = k.halted
  readyList : k.readyList <+: k'.readyList
  inOrder : k.InOrder → k'.InOrder
  yieldOnReturn : k.interrupt.yieldOnReturn = true → k'.interrupt.yieldOnReturn = true
  timer : k.TimerRuns → k'.TimerRuns
  slice : ∀ p ∈ k.interrupt.pending, p.handler = .timerExpired →
    p ∈ k'.interrupt.pending ∨ k'.interrupt.yieldOnReturn = true

/-- Devices request interrupts in the future. -/
theorem Handler.Does.later {handler : Handler} {effects : List Effect}
    (h : handler.Does effects) {handler' : Handler} {fromNow : Nat}
    (hmem : .schedule handler' fromNow ∈ effects) : 0 < fromNow := by
  cases h <;> simp at hmem <;> omega

theorem Handled.due {k : Kernel} {effects : List Effect}
    (hlater : ∀ handler fromNow, .schedule handler fromNow ∈ effects → 0 < fromNow) :
    (effects.foldl Kernel.applyEffect k).due = k.due := by
  induction effects generalizing k with
  | nil => rfl
  | cons e effects ih =>
    have hrest := ih (k := k.applyEffect e) fun handler fromNow hmem =>
      hlater handler fromNow (List.mem_cons_of_mem e hmem)
    refine hrest.trans ?_
    cases e with
    | schedule handler fromNow =>
      have hpos := hlater handler fromNow List.mem_cons_self
      have hinsert := SortedQueue.due_insert (f := PendingInterrupt.when)
        (a := ⟨handler, k.stats.totalTicks + fromNow⟩) (Nat.lt_add_of_pos_right hpos)
        k.interrupt.pending
      rw [← sortedInsert_eq] at hinsert
      exact congrArg List.length hinsert
    | timeSlice =>
      show k.timeSlice.due = k.due
      unfold Kernel.timeSlice
      by_cases hidle : k.interrupt.status = .idle
      · rw [if_pos hidle]
      · rw [if_neg hidle]
        rfl
    | signal s =>
      have hstats : ((k.changeLevel .off).up s).stats = k.stats :=
        (Handled.up (k := k.changeLevel .off) s).stats
      have hpending : ((k.changeLevel .off).up s).interrupt.pending = k.interrupt.pending :=
        congrArg Prod.fst (Kernel.up_slice s)
      show (SortedQueue.due _ ((k.changeLevel .off).up s).stats.totalTicks
        ((k.changeLevel .off).up s).interrupt.pending).length = _
      rw [hstats, hpending]
      rfl

theorem Kernel.timeSlice_interrupt {k : Kernel} (hs : k.interrupt.status ≠ .idle) :
    k.timeSlice.interrupt = { k.interrupt with yieldOnReturn := true } := by
  unfold Kernel.timeSlice
  rw [if_neg hs]

theorem Fired.frames {k k' : Kernel} (h : Fired k k') : k'.stack = k.stack := by
  unfold Kernel.stack
  rw [h.currentThread, h.stack]

/-- The timer requests its next interrupt, and the thread is to yield. -/
theorem timerExpired_handled {k : Kernel} {effects : List Effect}
    (hs : k.interrupt.status ≠ .idle) (hdo : Handler.timerExpired.Does effects) :
    (effects.foldl Kernel.applyEffect k).TimerRuns ∧
      (effects.foldl Kernel.applyEffect k).interrupt.yieldOnReturn = true := by
  cases hdo with
  | timerExpired fromNow =>
    have hslice := Kernel.timeSlice_interrupt (k := k.schedule .timerExpired (fromNow + 1)) hs
    show Kernel.TimerRuns (Kernel.timeSlice (k.schedule .timerExpired (fromNow + 1))) ∧
      (Kernel.timeSlice (k.schedule .timerExpired (fromNow + 1))).interrupt.yieldOnReturn = true
    unfold Kernel.TimerRuns
    rw [hslice]
    exact ⟨⟨_, mem_sortedInsert.mpr (.inl rfl), rfl⟩, rfl⟩

theorem Fires.fired {k k' : Kernel} {advanceClock : Bool} (h : Fires k advanceClock k') :
    Fired k k' ∧ (advanceClock = false → k'.stats = k.stats ∧ k'.due < k.due) := by
  obtain ⟨hdue, hm, hdo⟩ := h
  rename_i p k₁ machine effects
  obtain ⟨hsome, rfl⟩ := Prod.mk.inj hdue
  obtain ⟨hpending, hstats⟩ := Interrupt.checkIfDue_some hsome
  have hdone := Handled.applyEffects (k := { (k.checkIfDue advanceClock).2 with
    machine := machine
    interrupt := { (k.checkIfDue advanceClock).2.interrupt with
      inHandler := true, status := .system } }) effects
  have htimer : p.handler = .timerExpired →
      Kernel.TimerRuns ((k.checkIfDue advanceClock).2.fire machine effects) ∧
        ((k.checkIfDue advanceClock).2.fire machine effects).interrupt.yieldOnReturn = true :=
    fun hp => timerExpired_handled nofun (hp ▸ hdo)
  have hkept : ∀ q ∈ k.interrupt.pending, q = p ∨
      q ∈ ((k.checkIfDue advanceClock).2.fire machine effects).interrupt.pending := by
    intro q hq
    rw [hpending] at hq
    exact (List.mem_cons.mp hq).imp id (hdone.pending q)
  refine ⟨⟨hdone.stack, hdone.currentThread, hdone.halted, hdone.readyList, fun ho => ?_,
    hdone.yieldOnReturn, ?_, ?_⟩, fun hadvance => ?_⟩
  · unfold Kernel.InOrder at ho
    rw [hpending] at ho
    exact hdone.inOrder ho.tail
  · rintro ⟨q, hq, htq⟩
    rcases hkept q hq with rfl | hq
    · exact (htimer htq).1
    · exact ⟨q, hq, htq⟩
  · intro q hq htq
    rcases hkept q hq with rfl | hq
    · exact .inr (htimer htq).2
    · exact .inl hq
  · obtain ⟨hnow, hsame⟩ := hstats hadvance
    have hrest := Handled.due (k := { (k.checkIfDue advanceClock).2 with
      machine := machine
      interrupt := { (k.checkIfDue advanceClock).2.interrupt with
        inHandler := true, status := .system } }) fun _ _ => hdo.later
    refine ⟨hdone.stats.trans hsame, ?_⟩
    refine hrest.trans_lt ?_
    show (SortedQueue.due _ (k.interrupt.checkIfDue k.stats advanceClock).stats.totalTicks
      (k.interrupt.checkIfDue k.stats advanceClock).pending).length < (SortedQueue.due _ _ _).length
    rw [hsame, hpending, SortedQueue.due_cons hnow]
    exact Nat.lt_succ_self _

/-! ## Every step -/

/-- What a step does to the queue. -/
structure Queued (k k' : Kernel) : Prop where
  inOrder : k.InOrder → k'.InOrder
  timer : k.TimerRuns → k'.TimerRuns
  flag : k'.interrupt.yieldOnReturn = true →
    InLoop k'.stack ∨ k.interrupt.yieldOnReturn = true ∧ ¬ InLoop k.stack

namespace Queued

variable {k k₁ k' : Kernel} {f : Frame} {rest : List Frame}

theorem ofSlice (hs : k.stack = f :: rest) (hf : ¬ InLoop (f :: rest)) (h : k'.slice = k.slice) :
    Queued k k' := by
  have hpending : k'.interrupt.pending = k.interrupt.pending := congrArg Prod.fst h
  have hflag : k'.interrupt.yieldOnReturn = k.interrupt.yieldOnReturn := congrArg Prod.snd h
  refine ⟨fun ho => ?_, fun ht => ?_, fun hy => .inr ⟨hflag ▸ hy, hs ▸ hf⟩⟩
  · unfold Kernel.InOrder
    rwa [hpending]
  · unfold Kernel.TimerRuns
    rwa [hpending]

theorem looked (h : Looked k k₁) (hpending : k'.interrupt.pending = k₁.interrupt.pending)
    (hflag : k'.interrupt.yieldOnReturn = true →
      InLoop k'.stack ∨ k.interrupt.yieldOnReturn = true ∧ ¬ InLoop k.stack) : Queued k k' := by
  refine ⟨fun ho => ?_, fun ht => ?_, hflag⟩
  · unfold Kernel.InOrder
    rw [hpending]
    exact h.inOrder ho
  · obtain ⟨p, hp, htp⟩ := ht
    exact ⟨p, hpending ▸ h.pending.mem_iff.mpr hp, htp⟩

theorem fired (h : Fired k k₁) (hpending : k'.interrupt.pending = k₁.interrupt.pending)
    (hloop : InLoop k'.stack) : Queued k k' := by
  refine ⟨fun ho => ?_, fun ht => ?_, fun _ => .inl hloop⟩
  · unfold Kernel.InOrder
    rw [hpending]
    exact h.inOrder ho
  · unfold Kernel.TimerRuns
    rw [hpending]
    exact h.timer ht

end Queued

theorem Kernel.tickDone_slice (k : Kernel) (old : MachineStatus) (rest : List Frame) :
    (k.tickDone old rest).slice = (k.interrupt.pending, false) := by
  by_cases hy : k.interrupt.yieldOnReturn = true
  · rw [tickDone_yield hy, yield_slice]
    rfl
  · rw [tickDone_return hy]
    exact Prod.ext rfl (Bool.not_eq_true _ ▸ hy)

theorem CodeStep.queued {k k' : Kernel} (h : CodeStep k k') (hs : k.stack = [.code]) :
    Queued k k' := by
  have hcode : ¬ InLoop [.code] := id
  cases h with
  | newThread junk => exact .ofSlice hs hcode rfl
  | newAddrSpace table program => exact .ofSlice hs hcode rfl
  | setSpace t space ht => exact .ofSlice hs hcode rfl
  | start t halive hstatus => exact .ofSlice hs hcode rfl
  | yield => exact .ofSlice hs hcode k.yield_slice
  | p s => exact .ofSlice hs hcode (Kernel.pTest_slice s)
  | v s => exact .ofSlice hs hcode (Kernel.up_slice s)
  | setLevel level => exact .ofSlice hs hcode (Kernel.setLevel_slice level)
  | schedule handler fromNow =>
    have hdone := Handled.schedule (k := k) handler (fromNow + 1)
    refine ⟨hdone.inOrder, fun ⟨q, hq, htq⟩ => ⟨q, hdone.pending q hq, htq⟩, fun hy => ?_⟩
    exact .inr ⟨hy, hs ▸ hcode⟩
  | finish => exact .ofSlice hs hcode rfl
  | powerdown => exact .ofSlice hs hcode Kernel.powerdown_slice
  | enterUser space hspace hlevel => exact .ofSlice hs hcode rfl

theorem UserStep.queued {k k' : Kernel} (h : UserStep k k') (hs : k.stack = [.userCode]) :
    Queued k k' := by
  have huser : ¬ InLoop [.userCode] := id
  cases h with
  | executed hrun => exact .ofSlice hs huser rfl
  | halt hrun hcall => exact .ofSlice hs huser Kernel.powerdown_slice
  | trap hrun hno => exact .ofSlice hs huser rfl

theorem FrameStep.queued {k k' : Kernel} (h : FrameStep k k') : Queued k k' := by
  cases h with
  | code hs hcode => exact hcode.queued hs
  | userCode hs huser => exact huser.queued hs
  | ret hs => exact .ofSlice hs id rfl
  | setLevel hs => exact .ofSlice hs id (Kernel.setLevel_slice _)
  | tickFire hs hfire =>
    have hfired := hfire.fired.1
    refine .fired hfired rfl ?_
    rw [hfired.frames, hs]
    trivial
  | @tickDone old rest k₁ hs hdue =>
    have hslice := Kernel.tickDone_slice k₁ old rest
    refine .looked (.of_none hdue) (congrArg Prod.fst hslice) fun hy => ?_
    rw [show (k₁.tickDone old rest).interrupt.yieldOnReturn = false from congrArg Prod.snd hslice]
      at hy
    cases hy
  | tickStatus hs => exact .ofSlice hs id rfl
  | afterRun hs => exact .ofSlice hs id Kernel.destroy_slice
  | setup hs => exact .ofSlice hs id ((Kernel.setLevel_slice _).trans Kernel.destroy_slice)
  | pLoop hs => exact .ofSlice hs id (Kernel.pTest_slice _)
  | sleepRun hs hnext => exact .ofSlice hs id rfl
  | @sleepFire rest k₁ hs hnext hfire =>
    have hfired := hfire.fired.1
    have hfired' : Fired k k₁ := ⟨hfired.stack, hfired.currentThread, hfired.halted,
      hfired.readyList, hfired.inOrder, hfired.yieldOnReturn, hfired.timer, hfired.slice⟩
    refine .fired hfired' rfl ?_
    rw [Kernel.push_stack]
    trivial
  | @sleepDone rest k₁ hs hnext hdue =>
    have hlooked := Looked.of_none hdue
    have hlooked' : Looked k k₁ :=
      ⟨hlooked.inOrder, hlooked.pending, hlooked.yieldOnReturn⟩
    have hslice : k₁.powerdown.slice = k₁.slice := Kernel.powerdown_slice
    refine .looked hlooked' (congrArg Prod.fst hslice) fun hy => .inr ⟨?_, hs ▸ id⟩
    rw [← hlooked'.yieldOnReturn]
    exact (congrArg Prod.snd hslice).symm.trans hy
  | idleFire hs hfire =>
    have hfired := hfire.fired.1
    refine .fired hfired rfl ?_
    rw [hfired.frames, hs]
    trivial
  | @idleDone rest k₁ hs hdue =>
    exact .looked (.of_none hdue) rfl fun hy => nomatch hy

/-! ## Every run -/

/-- The timer runs, and no wish to yield outlasts the loop in which it came up. -/
structure Timed (randomize : Bool) (k : Kernel) : Prop where
  inOrder : k.InOrder
  runs : k.TimerRuns
  soon : ∀ p ∈ k.interrupt.pending, p.handler = .timerExpired →
    p.when ≤ k.stats.totalTicks + longestSlice randomize
  flag : k.interrupt.yieldOnReturn = true → InLoop k.stack
  levels : ∀ t, SystemLevels (k.threads t).stack

namespace Timed

variable {start : SemId → Int} {randomize : Bool} {k k' : Kernel}

theorem initial (h : (timedSystem start randomize).init k) : Timed randomize k := by
  obtain ⟨hinit, random, hpending⟩ := h
  refine ⟨?_, ?_, ?_, fun hy => ?_, fun t => ?_⟩
  · unfold Kernel.InOrder
    rw [hpending]
    exact List.pairwise_singleton _ _
  · unfold Kernel.TimerRuns
    rw [hpending]
    exact ⟨_, List.mem_singleton_self _, rfl⟩
  · intro p hp _
    rw [hpending, List.mem_singleton] at hp
    rw [hp]
    exact Nat.add_le_add_left (timeOfNextInterrupt_le _ _) _
  · rw [hinit.yieldOnReturn] at hy
    cases hy
  · by_cases ht : t = k.currentThread
    · rw [ht, show (k.threads k.currentThread).stack = [.code] from hinit.mainStack]
      exact SystemLevels.nil.cons (by nofun)
    · rw [hinit.others t ht]
      exact .nil

theorem step (h : Timed randomize k) (hk : Controlled k) (hstep : TimedStep randomize k k') :
    Timed randomize k' := by
  obtain ⟨⟨hnone, hframe⟩, hnew⟩ := hstep
  have hqueued := hframe.queued
  obtain ⟨user, hcharges⟩ := hframe.charges hk hnone (h.levels k.currentThread)
  refine ⟨hqueued.inOrder h.inOrder, hqueued.timer h.runs, fun p hp htp => ?_, fun hy => ?_,
    fun t => hcharges.levels t (h.levels t)⟩
  · rcases hnew p hp htp with hold | ⟨random, rfl⟩
    · exact (h.soon p hold htp).trans (Nat.add_le_add_right hcharges.stats.forward _)
    · exact Nat.add_le_add_left (timeOfNextInterrupt_le _ _) _
  · exact (hqueued.flag hy).resolve_right fun ⟨hy, hno⟩ => hno (h.flag hy)

theorem reachable (h : (timedSystem start randomize).Reachable k) : Timed randomize k := by
  refine (h.induct (I := fun k => Timed randomize k ∧ (system start).Reachable k) ?_ ?_).1
  · exact fun k hinit => ⟨.initial hinit, .of_init hinit.1⟩
  · intro k k' hk hstep
    exact ⟨hk.1.step (controlled_of_reachable hk.2) hstep, hk.2.step hstep.1⟩

/-- The next interrupt of the timer is never far. -/
theorem timerBy (h : Timed randomize k) :
    k.TimerBy (k.stats.totalTicks + longestTurn randomize) := by
  obtain ⟨p, hp, htp⟩ := h.runs
  have hsoon := h.soon p hp htp
  refine ⟨p, hp, htp, ?_⟩
  unfold longestTurn
  omega

end Timed

/-! ## User programs that take turns -/

/-- The frames of a thread that is executing a user program: it is in `Machine::Run`, in the
tick after an instruction, or in the `Yield` at the end of one. -/
inductive InUser : List Frame → Prop
  | userCode : InUser [.userCode]
  | ret {call : Call} {level : IntStatus} {status : MachineStatus} {fs : List Frame}
      (h : InUser fs) : InUser (.ret call level status :: fs)
  | setLevel {level : IntStatus} {fs : List Frame} (h : InUser fs) : InUser (.setLevel level :: fs)
  | tickLoop {old : MachineStatus} {fs : List Frame} (hold : old ≠ .idle) (h : InUser fs) :
      InUser (.tickLoop old :: fs)
  | tickStatus {old : MachineStatus} {fs : List Frame} (h : InUser fs) :
      InUser (.tickStatus old :: fs)
  | afterRun {fs : List Frame} (h : InUser fs) : InUser (.afterRun :: fs)

theorem InUser.awake {fs : List Frame} (h : InUser fs) : ∀ f ∈ fs, f.Awake := by
  induction h with
  | userCode =>
    intro f hf
    rw [List.mem_singleton.mp hf]
    exact trivial
  | ret h ih | setLevel h ih | tickLoop hold h ih | tickStatus h ih | afterRun h ih =>
    intro f hf
    rcases List.mem_cons.mp hf with rfl | hf
    · exact trivial
    · exact ih f hf

/-- The thread that runs will have given up the processor at `limit`. -/
inductive Kernel.SliceEnds (k : Kernel) (limit : Nat) : Prop
  /-- in `OneTick`, where the timer may just have called its handler -/
  | loop (hloop : InLoop k.stack) (hnow : k.stats.totalTicks ≤ limit)
      (htimer : k.interrupt.yieldOnReturn = true ∨ k.TimerBy limit)
  | other (hloop : ¬ InLoop k.stack) (hnow : k.stats.totalTicks + systemTick ≤ limit)
      (htimer : k.TimerBy limit)

/-- User programs run and `t` is ready behind `n` other user programs, and it is its turn
before `deadline`. -/
structure Waits (randomize : Bool) (t : ThreadId) (deadline n : Nat) (k : Kernel) : Prop where
  halted : k.halted = false
  stack : InUser k.stack
  turn : ∃ ahead behind limit, k.readyList = ahead ++ t :: behind ∧ ahead.length = n ∧
    (∀ u ∈ ahead, InUser (k.threads u).stack) ∧ k.SliceEnds limit ∧
    limit + n * longestTurn randomize ≤ deadline

/-- What is left to do before the turn comes: time until the deadline, threads, interrupts that
are due, and frames. -/
def leftToDo (deadline n : Nat) (k : Kernel) : Nat ×ₗ Nat ×ₗ Nat ×ₗ Nat :=
  toLex (deadline - k.stats.totalTicks, toLex (n, toLex (k.due, k.stack.length)))

namespace leftToDo

variable {deadline n n' : Nat} {k k' : Kernel}

theorem of_clock (h : k.stats.totalTicks < k'.stats.totalTicks)
    (hle : k'.stats.totalTicks ≤ deadline) : leftToDo deadline n' k' < leftToDo deadline n k :=
  Prod.Lex.toLex_lt_toLex.mpr (.inl (by dsimp only; omega))

theorem of_turn (h : k'.stats = k.stats) (hn : n' < n) :
    leftToDo deadline n' k' < leftToDo deadline n k :=
  Prod.Lex.toLex_lt_toLex.mpr (.inr ⟨by rw [h], Prod.Lex.toLex_lt_toLex.mpr (.inl hn)⟩)

theorem of_due (h : k'.stats = k.stats) (hdue : k'.due < k.due) :
    leftToDo deadline n k' < leftToDo deadline n k :=
  Prod.Lex.toLex_lt_toLex.mpr (.inr ⟨by rw [h],
    Prod.Lex.toLex_lt_toLex.mpr (.inr ⟨rfl, Prod.Lex.toLex_lt_toLex.mpr (.inl hdue)⟩)⟩)

theorem of_stack (h : k'.stats = k.stats) (hdue : k'.due = k.due)
    (hstack : k'.stack.length < k.stack.length) :
    leftToDo deadline n k' < leftToDo deadline n k :=
  Prod.Lex.toLex_lt_toLex.mpr (.inr ⟨by rw [h],
    Prod.Lex.toLex_lt_toLex.mpr
      (.inr ⟨rfl, Prod.Lex.toLex_lt_toLex.mpr (.inr ⟨hdue, hstack⟩)⟩)⟩)

end leftToDo

namespace Kernel

variable {k k' : Kernel}

theorem TimerBy.mono {limit limit' : Nat} (h : k.TimerBy limit) (hle : limit ≤ limit') :
    k.TimerBy limit' := by
  obtain ⟨p, hp, htp, hlimit⟩ := h
  exact ⟨p, hp, htp, hlimit.trans hle⟩

theorem TimerBy.congr {limit : Nat} (h : k.TimerBy limit)
    (hpending : k'.interrupt.pending = k.interrupt.pending) : k'.TimerBy limit := by
  unfold TimerBy
  rwa [hpending]

/-- A thread that is not in its loop may enter it. -/
theorem SliceEnds.ofOther {limit : Nat} (h : k.SliceEnds limit) (hloop : ¬ InLoop k.stack)
    (hslice : k'.slice = k.slice) (hstats : k'.stats = k.stats) : k'.SliceEnds limit := by
  have hpending : k'.interrupt.pending = k.interrupt.pending := congrArg Prod.fst hslice
  cases h with
  | loop hloop' => exact absurd hloop' hloop
  | other _ hnow htimer =>
    rw [← hstats] at hnow
    by_cases hloop' : InLoop k'.stack
    · exact .loop hloop' (by omega) (.inr (htimer.congr hpending))
    · exact .other hloop' hnow (htimer.congr hpending)

theorem SliceEnds.tick {limit : Nat} (h : k.SliceEnds limit) (hloop : ¬ InLoop k.stack)
    (hloop' : InLoop k'.stack) (hslice : k'.slice = k.slice) {status : MachineStatus}
    (hstats : k'.stats = k.stats.tick status) : k'.SliceEnds limit := by
  have hpending : k'.interrupt.pending = k.interrupt.pending := congrArg Prod.fst hslice
  cases h with
  | loop hloop' => exact absurd hloop' hloop
  | other _ hnow htimer =>
    refine .loop hloop' ?_ (.inr (htimer.congr hpending))
    rw [hstats]
    exact (Statistics.tick_le _ _).trans hnow

end Kernel

/-- Frames change, but not of a thread that is not in a user program. -/
def KeepsPrograms (k k' : Kernel) : Prop :=
  ∀ u, InUser (k.threads u).stack → InUser (k'.threads u).stack

theorem Waits.keep {randomize : Bool} {t : ThreadId} {deadline n : Nat} {k k' : Kernel}
    (h : Waits randomize t deadline n k) (hhalted : k'.halted = k.halted) (hstack : InUser k'.stack)
    (hready : k.readyList <+: k'.readyList) (hothers : KeepsPrograms k k')
    (hslice : ∀ limit, k.SliceEnds limit → k'.SliceEnds limit) :
    Waits randomize t deadline n k' := by
  obtain ⟨ahead, behind, limit, heq, hlen, hahead, hends, hle⟩ := h.turn
  obtain ⟨woken, hwoken⟩ := hready
  refine ⟨hhalted.trans h.halted, hstack, ahead, behind ++ woken, limit, ?_, hlen,
    fun u hu => hothers u (hahead u hu), hslice limit hends, hle⟩
  rw [← hwoken, heq, List.append_assoc, List.cons_append]

/-- The program has ended. -/
def Over (k : Kernel) : Prop := ∀ k', ¬ Step k k'

theorem over_of_exit {k : Kernel} {rest : List Frame} (hs : k.stack = .exit :: rest) : Over k := by
  rintro k' ⟨-, hframe⟩
  cases hframe <;> simp_all

theorem over_of_powerdown {k : Kernel} (hl : k.interrupt.level = .on) :
    Over k.powerdown ∧ k.powerdown.stats = k.stats := by
  have hoff : ¬ (IntStatus.on = .on ∧
      (Kernel.push { k with halted := true } [.exit]).interrupt.level = .off) :=
    fun h => nomatch hl.symm.trans h.2
  unfold Kernel.powerdown Kernel.setLevel
  rw [if_neg hoff]
  exact ⟨over_of_exit (Kernel.push_stack _ _), rfl⟩

theorem over_of_failed {k : Kernel} (hfailed : k.failed ≠ []) : Over k :=
  fun _ hstep => hfailed hstep.1

namespace KeepsPrograms

variable {k k' : Kernel}

theorem ofStacks (h : ∀ u, (k'.threads u).stack = (k.threads u).stack) : KeepsPrograms k k' :=
  fun u hu => (h u).symm ▸ hu

theorem trans {k₁ k₂ k₃ : Kernel} (h : KeepsPrograms k₁ k₂) (h' : KeepsPrograms k₂ k₃) :
    KeepsPrograms k₁ k₃ :=
  fun u hu => h' u (h u hu)

theorem setStack {fs : List Frame} (hfs : InUser fs) : KeepsPrograms k (k.setStack fs) := by
  intro u hu
  show InUser (Function.update k.threads k.currentThread _ u).stack
  by_cases hc : u = k.currentThread
  · subst hc
    rw [Function.update_self]
    exact hfs
  · rw [Function.update_of_ne hc]
    exact hu

end KeepsPrograms

namespace Waits

variable {randomize : Bool} {t : ThreadId} {deadline n : Nat} {k k' : Kernel} {f : Frame}
  {fs : List Frame}

theorem now_le (h : Waits randomize t deadline n k) : k.stats.totalTicks ≤ deadline := by
  obtain ⟨ahead, behind, limit, -, -, -, hends, hle⟩ := h.turn
  cases hends with
  | loop _ hnow _ => omega
  | other _ hnow _ => omega

/-- A frame is done, and the clock has not moved. -/
theorem pop (h : Waits randomize t deadline n k) (hs : k.stack = f :: fs)
    (hloop : ¬ InLoop (f :: fs)) (hfs : InUser fs) (hthreads : KeepsPrograms k k')
    (hstack : k'.stack = fs) (hready : k'.readyList = k.readyList) (hhalted : k'.halted = k.halted)
    (hslice : k'.slice = k.slice) (hstats : k'.stats = k.stats) :
    Waits randomize t deadline n k' ∧ leftToDo deadline n k' < leftToDo deadline n k := by
  refine ⟨h.keep hhalted (hstack ▸ hfs) (hready ▸ List.prefix_rfl) hthreads
    fun _ hends => hends.ofOther (hs ▸ hloop) hslice hstats, leftToDo.of_stack hstats ?_ ?_⟩
  · have hpending : k'.interrupt.pending = k.interrupt.pending := congrArg Prod.fst hslice
    unfold Kernel.due
    rw [hstats, hpending]
  · rw [hs, hstack]
    exact Nat.lt_succ_self _

/-- `OneTick` is called. -/
theorem tick (h : Waits randomize t deadline n k) (hs : k.stack = f :: fs)
    (hloop : ¬ InLoop (f :: fs)) (k₁ : Kernel) (hk₁ : InUser k₁.stack)
    (hthreads : KeepsPrograms k k₁) (hstatus : k₁.interrupt.status ≠ .idle)
    (hready : k₁.readyList = k.readyList) (hhalted : k₁.halted = k.halted)
    (hslice : k₁.slice = k.slice) (hstats : k₁.stats = k.stats) :
    Waits randomize t deadline n k₁.oneTick ∧
      leftToDo deadline n k₁.oneTick < leftToDo deadline n k := by
  have hin : InUser (.tickLoop k₁.interrupt.status ::
      .ret .oneTick k₁.interrupt.level k₁.interrupt.status :: k₁.stack) :=
    .tickLoop hstatus (.ret hk₁)
  have hstack : k₁.oneTick.stack = .tickLoop k₁.interrupt.status ::
      .ret .oneTick k₁.interrupt.level k₁.interrupt.status :: k₁.stack := Kernel.push_stack _ _
  have htick : k₁.oneTick.stats = k.stats.tick k₁.interrupt.status := by
    rw [← hstats]
    rfl
  have hwaits : Waits randomize t deadline n k₁.oneTick :=
    h.keep hhalted (hstack ▸ hin) (hready ▸ List.prefix_rfl)
      (hthreads.trans (KeepsPrograms.setStack hin))
      fun _ hends => hends.tick (hs ▸ hloop) (hstack ▸ trivial) hslice htick
  refine ⟨hwaits, leftToDo.of_clock ?_ hwaits.now_le⟩
  rw [htick]
  exact Statistics.lt_tick _ _

end Waits

/-- What `Yield` leaves when a thread is ready. -/
theorem Kernel.yield_switch {k : Kernel} {n : ThreadId} {ready : List ThreadId}
    (h : k.findNextToRun = some (n, ready)) (u : ThreadId) :
    (k.yield.threads u).stack =
      if u = k.currentThread then .afterRun :: .setLevel k.interrupt.level ::
        .ret .yield k.interrupt.level k.interrupt.status :: k.stack
      else (k.threads u).stack := by
  rw [yield_some h]
  refine (runThreads_stack _ n u).trans ?_
  refine ((SameControl.readyToRun k.currentThread).stack u).trans ?_
  show (Function.update k.threads k.currentThread _ u).stack = _
  by_cases hu : u = k.currentThread
  · rw [if_pos hu, hu, Function.update_self]
    rfl
  · rw [if_neg hu, Function.update_of_ne hu]

namespace Waits

variable {randomize : Bool} {t : ThreadId} {deadline n : Nat} {k k₁ k' : Kernel}
  {fs : List Frame}

/-- The thread that runs yields to the first of those that are ready. -/
theorem switch (hhalted : k.halted = false) (hstack : InUser k.stack)
    {ahead behind : List ThreadId} {limit : Nat} (hready : k.readyList = ahead ++ t :: behind)
    (hahead : ∀ u ∈ ahead, InUser (k.threads u).stack) (hnow : k.stats.totalTicks ≤ limit)
    (hle : limit + ahead.length * longestTurn randomize ≤ deadline)
    (htimed : k.TimerBy (k.stats.totalTicks + longestTurn randomize))
    (hne : k.yield.currentThread ≠ t) :
    ∃ n, Waits randomize t deadline n k.yield ∧ n < ahead.length ∧ k.yield.stats = k.stats := by
  cases ahead with
  | nil =>
    have hnext : k.findNextToRun = some (t, behind) := by
      unfold Kernel.findNextToRun
      rw [hhalted, hready]
      rfl
    rw [Kernel.yield_some hnext] at hne
    exact absurd rfl hne
  | cons next ahead =>
    have hnext : k.findNextToRun = some (next, ahead ++ t :: behind) := by
      unfold Kernel.findNextToRun
      rw [hhalted, hready]
      rfl
    have hstacks := Kernel.yield_switch hnext
    have hprograms : KeepsPrograms k k.yield := by
      intro u hu
      rw [hstacks]
      by_cases hc : u = k.currentThread
      · rw [if_pos hc]
        exact .afterRun (.setLevel (.ret hstack))
      · rwa [if_neg hc]
    have hcurrent : k.yield.currentThread = next := by
      rw [Kernel.yield_some hnext]
      rfl
    have hrest : k.yield.halted = k.halted ∧ k.yield.stats = k.stats ∧
        k.yield.readyList = ahead ++ t :: behind ++ [k.currentThread] := by
      rw [Kernel.yield_some hnext]
      exact ⟨rfl, rfl, rfl⟩
    have hpending : k.yield.interrupt.pending = k.interrupt.pending :=
      congrArg Prod.fst k.yield_slice
    have htimer : k.yield.TimerBy (limit + longestTurn randomize) :=
      (htimed.mono (by omega)).congr hpending
    have hends : k.yield.SliceEnds (limit + longestTurn randomize) := by
      have hturn : systemTick ≤ longestTurn randomize := Nat.le_add_left _ _
      rw [← hrest.2.1] at hnow
      by_cases hloop : InLoop k.yield.stack
      · exact .loop hloop (by omega) (.inr htimer)
      · exact .other hloop (by omega) htimer
    have hlen :
        limit + longestTurn randomize + ahead.length * longestTurn randomize ≤ deadline := by
      rw [List.length_cons, Nat.succ_mul] at hle
      omega
    refine ⟨ahead.length, ⟨hrest.1.trans hhalted, ?_, ahead, behind ++ [k.currentThread], _, ?_,
      rfl, ?_, hends, hlen⟩, Nat.lt_succ_self _, hrest.2.1⟩
    · unfold Kernel.stack
      rw [hcurrent]
      exact hprograms next (hahead next List.mem_cons_self)
    · rw [hrest.2.2, List.append_assoc, List.cons_append]
    · exact fun u hu => hprograms u (hahead u (List.mem_cons_of_mem next hu))

/-- The loop of `OneTick` is left. -/
theorem tickDone (h : Waits randomize t deadline n k) (ht : Timed randomize k)
    {old : MachineStatus} (hs : k.stack = .tickLoop old :: fs) (hold : k.interrupt.status ≠ .idle)
    (hfs : InUser fs) (hdue : k.checkIfDue false = (none, k₁))
    (hne : (k₁.tickDone old fs).currentThread ≠ t) :
    ∃ n', Waits randomize t deadline n' (k₁.tickDone old fs) ∧
      leftToDo deadline n' (k₁.tickDone old fs) < leftToDo deadline n k := by
  obtain ⟨hstats, hlater⟩ := nothing_due hdue ht.inOrder hold
  have hlooked := Looked.of_none hdue
  have hk₁ : k₁.threads = k.threads ∧ k₁.currentThread = k.currentThread ∧
      k₁.readyList = k.readyList ∧ k₁.halted = k.halted := by
    obtain ⟨-, rfl⟩ := Prod.mk.inj hdue
    exact ⟨rfl, rfl, rfl, rfl⟩
  have hprograms : ∀ gs, InUser gs → KeepsPrograms k (k₁.setStack gs) := fun gs hgs =>
    (KeepsPrograms.ofStacks fun u => by rw [hk₁.1]).trans (.setStack hgs)
  have hloop : InLoop k.stack := hs ▸ trivial
  by_cases hy : k₁.interrupt.yieldOnReturn = true
  · rw [Kernel.tickDone_yield hy] at hne ⊢
    have hgs : InUser (.tickStatus old :: fs) := .tickStatus hfs
    obtain ⟨ahead, behind, limit, hready, rfl, hahead, hends, hle⟩ := h.turn
    have htimer : k₁.TimerBy (k₁.stats.totalTicks + longestTurn randomize) := by
      obtain ⟨p, hp, htp⟩ := ht.timerBy
      exact ⟨p, hlooked.pending.mem_iff.mpr hp, hstats ▸ htp⟩
    have hnow : k₁.stats.totalTicks ≤ limit := by
      cases hends with
      | loop _ hnow _ => exact hstats ▸ hnow
      | other hno _ _ => exact absurd hloop hno
    obtain ⟨n', hwaits, hlt, hsame⟩ := switch (k := Kernel.setStack { k₁.changeLevel .on with
      interrupt := { (k₁.changeLevel .on).interrupt with
        yieldOnReturn := false, status := .system } }
        (.tickStatus old :: fs)) (hk₁.2.2.2.trans h.halted)
      (by rw [Kernel.setStack_stack]; exact hgs) (hk₁.2.2.1.trans hready)
      (fun u hu => hprograms _ hgs u (hahead u hu)) hnow hle htimer hne
    exact ⟨n', hwaits, leftToDo.of_turn (hsame.trans hstats) hlt⟩
  · rw [Kernel.tickDone_return hy]
    have hstack : ((k₁.changeLevel .on).setStack fs).stack = fs := Kernel.setStack_stack _ _
    refine ⟨n, h.keep hk₁.2.2.2 (hstack.symm ▸ hfs) (hk₁.2.2.1 ▸ List.prefix_rfl)
      (hprograms fs hfs) fun limit hends => ?_, leftToDo.of_stack hstats ?_ ?_⟩
    rotate_left
    · show (SortedQueue.due _ k₁.stats.totalTicks k₁.interrupt.pending).length = _
      rw [hstats, (SortedQueue.due_perm hlooked.pending).length_eq]
      rfl
    · rw [hstack, hs]
      exact Nat.lt_succ_self _
    cases hends with
    | other hno _ _ => exact absurd hloop hno
    | loop _ hnow htimer =>
      rw [hlooked.yieldOnReturn] at hy
      obtain ⟨p, hp, htp, hlimit⟩ := htimer.resolve_left hy
      have hlt := hlater p hp
      have htimer' : ((k₁.changeLevel .on).setStack fs).TimerBy limit :=
        ⟨p, hlooked.pending.mem_iff.mpr hp, htp, hlimit⟩
      rw [← hstats] at hnow hlt
      by_cases hloop' : InLoop fs
      · exact .loop (hstack.symm ▸ hloop') hnow (.inr htimer')
      · refine .other (hstack.symm ▸ hloop') ?_ htimer'
        show k₁.stats.totalTicks + systemTick ≤ limit
        omega

theorem step (h : Waits randomize t deadline n k) (hk : Controlled k) (ht : Timed randomize k)
    (hstep : TimedStep randomize k k') (hne : k'.currentThread ≠ t) :
    (∃ n', Waits randomize t deadline n' k' ∧ leftToDo deadline n' k' < leftToDo deadline n k) ∨
      Over k' ∧ k'.stats.totalTicks ≤ deadline := by
  obtain ⟨⟨hnone, hframe⟩, -⟩ := hstep
  have hin := h.stack
  have hc := hk.current hnone
  cases hframe with
  | userCode hs huser =>
    rw [hs] at hc
    cases huser with
    | @executed machine hrun =>
      refine .inl ⟨n, h.tick hs id { k with
        machine := machine
        history := { k.history with
          lastUser := Function.update k.history.lastUser k.currentThread
            (some machine.registers) } } hin (fun _ hu => hu) ?_ rfl rfl rfl rfl⟩
      show k.interrupt.status ≠ .idle
      rw [hc.2.1]
      nofun
    | @halt machine hrun hcall =>
      obtain ⟨hover, hstats⟩ := over_of_powerdown (k := { k.setStatus .system with
        machine := machine }) hc.1
      exact .inr ⟨hover, hstats ▸ h.now_le⟩
    | trap hrun hno =>
      exact .inr ⟨over_of_failed (List.append_ne_nil_of_right_ne_nil _ (List.cons_ne_nil _ _)),
        h.now_le⟩
  | ret hs =>
    rw [hs] at hin
    cases hin with
    | ret hfs =>
      exact .inl ⟨n, h.pop hs id hfs (.setStack hfs) (Kernel.setStack_stack _ _) rfl rfl rfl rfl⟩
  | @setLevel level rest hs =>
    have hl : SystemLevels k.stack := ht.levels k.currentThread
    rw [hs] at hin hc hl
    obtain ⟨call, level', rest, rfl⟩ := hl level rest List.suffix_rfl
    cases hin with
    | setLevel hfs =>
      have hstack : (k.setStack (.ret call level' .system :: rest)).stack =
          .ret call level' .system :: rest := Kernel.setStack_stack _ _
      unfold Kernel.setLevel
      by_cases hon : level = .on ∧
          (k.setStack (.ret call level' .system :: rest)).interrupt.level = .off
      · rw [if_pos hon]
        refine .inl ⟨n, h.tick hs id _ (hstack.symm ▸ hfs) (.setStack hfs) ?_ rfl rfl rfl rfl⟩
        show k.interrupt.status ≠ .idle
        rw [hc.2.1]
        nofun
      · rw [if_neg hon]
        exact .inl ⟨n, h.pop hs id hfs (.setStack hfs) hstack rfl rfl rfl rfl⟩
  | tickFire hs hfire =>
    obtain ⟨hfired, hstats⟩ := hfire.fired
    have hloop : InLoop k.stack := hs ▸ trivial
    obtain ⟨hnow', hdue⟩ := hstats rfl
    refine .inl ⟨n, h.keep hfired.halted (hfired.frames ▸ hin) hfired.readyList
      (.ofStacks hfired.stack) fun limit hends => ?_, leftToDo.of_due hnow' hdue⟩
    cases hends with
    | other hno _ _ => exact absurd hloop hno
    | loop _ hnow htimer =>
      refine .loop (hfired.frames ▸ hloop) (hnow' ▸ hnow) ?_
      rcases htimer with hy | ⟨p, hp, htp, hlimit⟩
      · exact .inl (hfired.yieldOnReturn hy)
      · rcases hfired.slice p hp htp with hp | hy
        · exact .inr ⟨p, hp, htp, hlimit⟩
        · exact .inl hy
  | tickDone hs hdue =>
    rw [hs] at hin hc
    cases hin with
    | tickLoop hold hfs =>
      exact .inl (h.tickDone ht hs (hc.2.1 ▸ hold) hfs hdue hne)
  | tickStatus hs =>
    rw [hs] at hin
    cases hin with
    | tickStatus hfs =>
      exact .inl ⟨n, h.pop hs id hfs (.setStack hfs) (Kernel.setStack_stack _ _) rfl rfl rfl rfl⟩
  | afterRun hs =>
    rw [hs] at hin
    cases hin with
    | afterRun hfs =>
      have hsame := (SameControl.destroy k).trans (.restore _)
      obtain ⟨hready, hhalted, hstats⟩ := k.destroy_keeps
      exact .inl ⟨n, h.pop hs id hfs ((KeepsPrograms.ofStacks hsame.stack).trans (.setStack hfs))
        (Kernel.setStack_stack _ _) hready hhalted k.destroy_slice hstats⟩
  | code hs _ | setup hs | pLoop hs | sleepRun hs _ | sleepFire hs _ _ | sleepDone hs _ _
    | idleFire hs _ | idleDone hs _ =>
    rw [hs] at hin
    cases hin

/-- Wherever the clock stands, the turn comes in time. -/
theorem initial {ahead behind : List ThreadId} (ht : Timed randomize k) (hhalted : k.halted = false)
    (hready : k.readyList = ahead ++ t :: behind) (hcurrent : InUser k.stack)
    (hahead : ∀ u ∈ ahead, InUser (k.threads u).stack) :
    Waits randomize t (k.stats.totalTicks + (ahead.length + 1) * longestTurn randomize)
      ahead.length k := by
  have hends : k.SliceEnds (k.stats.totalTicks + longestTurn randomize) := by
    have hturn : systemTick ≤ longestTurn randomize := Nat.le_add_left _ _
    by_cases hloop : InLoop k.stack
    · exact .loop hloop (Nat.le_add_right _ _) (.inr ht.timerBy)
    · exact .other hloop (Nat.add_le_add_left hturn _) ht.timerBy
  refine ⟨hhalted, hcurrent, ahead, behind, _, hready, rfl, hahead, hends, ?_⟩
  rw [Nat.succ_mul]
  omega

/-- There is no end to the steps of a program that has not ended, but `t` gets the processor. -/
theorem eventually (start : SemId → Int) {run : Nat → Kernel}
    (hreach : (timedSystem start randomize).Reachable (run 0))
    (hrun : ∀ i, TimedStep randomize (run i) (run (i + 1)))
    (h : Waits randomize t deadline n (run 0)) : ∃ i, (run i).currentThread = t := by
  by_contra hnever
  rw [not_exists] at hnever
  have hall : ∀ i, (timedSystem start randomize).Reachable (run i) := by
    intro i
    induction i with
    | zero => exact hreach
    | succ i ih => exact ih.step (hrun i)
  have hfalse : ∀ left : Nat ×ₗ Nat ×ₗ Nat ×ₗ Nat, ∀ i n,
      leftToDo deadline n (run i) = left → ¬ Waits randomize t deadline n (run i) := by
    intro left
    induction left using WellFoundedLT.induction with
    | ind left ih =>
      intro i n hleft hwaits
      have hreach := hall i
      rcases hwaits.step (controlled_of_reachable (timed_reachable hreach)) (.reachable hreach)
        (hrun i) (hnever (i + 1)) with ⟨n', hwaits', hlt⟩ | ⟨hover, -⟩
      · exact ih _ (hleft ▸ hlt) (i + 1) n' rfl hwaits'
      · exact hover _ (hrun (i + 1)).1
  exact hfalse _ 0 n rfl h

end Waits

/-- With the timer running no user program is kept from the processor: a thread that is ready
gets it when each of those before it has had a time slice, or earlier. -/
theorem time_sliced {start : SemId → Int} {randomize : Bool} {k : Kernel} {t : ThreadId}
    {ahead behind : List ThreadId} (h : (timedSystem start randomize).Reachable k)
    (hready : k.readyList = ahead ++ t :: behind) (hcurrent : InUser k.stack)
    (hahead : ∀ u ∈ ahead, InUser (k.threads u).stack) :
    (∀ k', Relation.ReflTransGen
      (fun k₁ k₂ => TimedStep randomize k₁ k₂ ∧ k₂.currentThread ≠ t) k k' →
      k'.stats.totalTicks ≤
        k.stats.totalTicks + (ahead.length + 1) * longestTurn randomize) ∧
    ∀ run : Nat → Kernel, run 0 = k → (∀ i, TimedStep randomize (run i) (run (i + 1))) →
      ∃ i, (run i).currentThread = t := by
  have hhalted : k.halted = false :=
    (inv_of_reachable (timed_reachable h)).linked.standing.goes hcurrent.awake
  have hwaits := Waits.initial (.reachable h) hhalted hready hcurrent hahead
  generalize k.stats.totalTicks + (ahead.length + 1) * longestTurn randomize = deadline at hwaits ⊢
  constructor
  · intro k' hrun
    have hall : (timedSystem start randomize).Reachable k' ∧
        ((∃ n, Waits randomize t deadline n k') ∨ Over k' ∧ k'.stats.totalTicks ≤ deadline) := by
      induction hrun with
      | refl => exact ⟨h, .inl ⟨_, hwaits⟩⟩
      | @tail k₁ k₂ hrun hstep ih =>
        obtain ⟨hreach, ⟨n, hwaits⟩ | ⟨hover, -⟩⟩ := ih
        · refine ⟨hreach.step hstep.1, ?_⟩
          refine (hwaits.step (controlled_of_reachable (timed_reachable hreach))
            (.reachable hreach) hstep.1 hstep.2).imp ?_ id
          exact fun ⟨n', hwaits', _⟩ => ⟨n', hwaits'⟩
        · exact absurd hstep.1.1 (hover k₂)
    rcases hall.2 with ⟨n, hwaits⟩ | ⟨-, hle⟩
    · exact hwaits.now_le
    · exact hle
  · rintro run rfl hrun
    exact Waits.eventually start h hrun hwaits

/-! ## A program that is preempted -/

theorem TimedStep.of_same {randomize : Bool} {k k' : Kernel} (h : Step k k')
    (hpending : k'.interrupt.pending = k.interrupt.pending) : TimedStep randomize k k' :=
  ⟨h, fun _ hp _ => .inl (hpending ▸ hp)⟩

/-- `main` in `Initialize`, with the timer running. -/
def timedBoot : Kernel :=
  { boot fun _ => 0 with interrupt := ⟨.off, [timerRequest false 0 0], false, false, .system⟩ }

/-- `main` has started thread 1 and executes a user program. -/
def timedProgram : Kernel :=
  let k := (timedBoot.newThread fun _ => 0).start 1
  let k := ((k.setStack [.ret .start .off .system, .code]).setLevel .off).setStack [.code]
  let k := ((k.returned .start .off .system).setSpace 0 ⟨0, 1⟩).setLevel .on
  let k := (k.checkIfDue false).2.tickDone .system [.ret .oneTick .on .system, .code]
  ((k.setStack [.code]).returned .oneTick .on .system).enterUser ⟨0, 1⟩

theorem timedProgram_reachable : (timedSystem (fun _ => 0) false).Reachable timedProgram := by
  have hboot : (timedSystem (fun _ => 0) false).Reachable timedBoot :=
    .of_init ⟨{ (boot_initial fun _ => le_rfl : Initial (fun _ => 0) _) with }, 0, rfl⟩
  have hnew := hboot.step (.of_same ⟨rfl, .code rfl (.newThread fun _ => 0)⟩ rfl)
  have hstart := hnew.step (.of_same ⟨rfl, .code rfl (.start 1 (by decide) rfl)⟩ rfl)
  have hlevel := hstart.step (.of_same ⟨rfl, .setLevel rfl⟩ rfl)
  have hret := hlevel.step (.of_same ⟨rfl, .ret rfl⟩ rfl)
  have hspace := hret.step (.of_same ⟨rfl, .code rfl (.setSpace 0 ⟨0, 1⟩ (.inl rfl))⟩ rfl)
  have hon := hspace.step (.of_same ⟨rfl, .code rfl (.setLevel .on)⟩ rfl)
  have htick := hon.step (.of_same ⟨rfl, .tickDone rfl rfl⟩ rfl)
  have hback := htick.step (.of_same ⟨rfl, .ret rfl⟩ rfl)
  exact hback.step (.of_same ⟨rfl, .code rfl (.enterUser ⟨0, 1⟩ rfl rfl)⟩ rfl)

theorem time_sliced_timedProgram :
    (∀ k', Relation.ReflTransGen (fun k₁ k₂ => TimedStep false k₁ k₂ ∧ k₂.currentThread ≠ 1)
      timedProgram k' → k'.stats.totalTicks ≤ 120) ∧
    ∀ run : Nat → Kernel, run 0 = timedProgram → (∀ i, TimedStep false (run i) (run (i + 1))) →
      ∃ i, (run i).currentThread = 1 :=
  time_sliced timedProgram_reachable rfl .userCode nofun

end Threads
end Nachos
