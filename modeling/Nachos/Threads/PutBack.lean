import Nachos.Lib.System
import Nachos.Threads.OneTick

/-!
# The interrupt that is put back

To see when the earliest interrupt is due, `CheckIfDue` takes it off the queue, and
if it is not due yet inserts it again, which is behind those of the same time.
-/

namespace Nachos
namespace Threads
namespace OneTick

open Lib

variable {σ α : Type}

/-- The interrupts called of those scheduled for `when`, in the order of the calls. -/
def History.calledFor (h : History α) (when : Nat) : List (PendingInterrupt α) :=
  SortedQueue.tied PendingInterrupt.when when (h.called.map Prod.fst)

/-- The interrupts scheduled for `when`, in the order in which they were scheduled. -/
def History.scheduledFor (h : History α) (when : Nat) : List (PendingInterrupt α) :=
  SortedQueue.tied PendingInterrupt.when when h.scheduled

/-- What becomes of the simulation in a run: a device schedules an interrupt, the queue is
looked at, in states where `P` holds if the clock is not to be advanced, or the rest
changes, the clock and the level among it, and the queue does not. -/
inductive Step (r : Routines σ α) (P : Simulation σ α → Prop) :
    Simulation σ α → Simulation σ α → Prop
  | schedule {s s'} (q : Request α) (h : s.schedule q = some s') : Step r P s s'
  | checkIfDue {s s'} (advanceClock again : Bool)
      (h : s.checkIfDue r advanceClock = some (again, s')) (hP : advanceClock = false → P s) :
      Step r P s s'
  | other {s s'} (hpending : s'.pending = s.pending) (hhistory : s'.history = s.history) :
      Step r P s s'

/-- The runs from an empty queue. -/
def runs (r : Routines σ α) (P : Simulation σ α → Prop) : System (Simulation σ α) where
  init s := InOrder s.pending [] ∧ s.history.called = [] ∧ s.history.scheduled = []
  step := Step r P

/-- When the earliest interrupt is not due, those pending for the same time are no other
interrupts. -/
def Alone (s : Simulation σ α) : Prop :=
  ∀ p items, InOrder s.pending (p :: items) → s.stats.totalTicks < p.when →
    ∀ q ∈ items, q.when = p.when → q = p

/-- `items` are pending, and for each time they are what is left of those scheduled, when
the first of these have been called. -/
structure Fair (s : Simulation σ α) (items : List (PendingInterrupt α)) : Prop where
  inOrder : InOrder s.pending items
  calls : ∀ when, s.history.calledFor when ++ SortedQueue.tied PendingInterrupt.when when items =
    s.history.scheduledFor when

/-- The interrupt simulation is the same up to the memory of the queue. -/
structure SameBut (s s' : Simulation σ α) : Prop where
  level : s'.level = s.level
  status : s'.status = s.status
  inHandler : s'.inHandler = s.inHandler
  stats : s'.stats = s.stats
  state : s'.state = s.state
  called : s'.history.called = s.history.called
  scheduled : s'.history.scheduled = s.history.scheduled

variable {r : Routines σ α} {P : Simulation σ α → Prop} {s s' : Simulation σ α}
  {p : PendingInterrupt α} {items items' : List (PendingInterrupt α)}

theorem InOrder.unique {l : LinkedList (PendingInterrupt α)} (h : InOrder l items)
    (h' : InOrder l items') : items = items' := by
  have hmap := h.holds.unique h'.holds
  refine List.map_injective_iff.mpr (fun p q heq => ?_) hmap
  exact congrArg Entry.item heq

/-! ## One look at the queue -/

/-- What `CheckIfDue` does with an interrupt that is not due. -/
theorem checkIfDue_puts_back (r : Routines σ α) (hl : s.level = .off)
    (h : InOrder s.pending (p :: items)) (hlater : s.stats.totalTicks < p.when) :
    ∃ s', s.checkIfDue r false = some (false, s') ∧ SameBut s s' ∧
      InOrder s'.pending (SortedQueue.insert PendingInterrupt.when p items) := by
  obtain ⟨removed, hremove, horder⟩ := h.sortedRemove_cons
  obtain ⟨pending, hinsert, horder'⟩ := horder.sortedInsert p
  refine ⟨(s.setPending removed).setPending pending, ?_, ⟨rfl, rfl, rfl, rfl, rfl, rfl, rfl⟩,
    horder'⟩
  have hinsert' : (s.setPending removed).pending.sortedInsert p p.when = some pending := hinsert
  have hlater' : (s.setPending removed).stats.totalTicks < p.when := hlater
  unfold Simulation.checkIfDue
  rw [if_pos hl, hremove]
  simp only [Option.bind_eq_bind, Option.bind_some, Bool.false_eq_true, false_and, if_false,
    if_pos hlater', hinsert', Option.pure_def]

/-! ## Runs -/

theorem checkAll_run {n : Nat} (h : s.checkAll r n = some s') :
    Relation.ReflTransGen (Step r fun _ => True) s s' := by
  induction n generalizing s with
  | zero => cases h
  | succ n ih =>
    obtain ⟨⟨again, s₁⟩, hcheck, hrest⟩ := Option.bind_eq_some_iff.mp h
    have hstep : Step r (fun _ => True) s s₁ := .checkIfDue false again hcheck fun _ => trivial
    cases again with
    | false =>
      cases hrest
      exact .single hstep
    | true => exact .head hstep (ih hrest)

/-- A tick is a part of such a run. -/
theorem oneTick_run {n : Nat} (h : s.oneTick r n = some s') :
    Relation.ReflTransGen (Step r fun _ => True) s s' := by
  obtain ⟨s₁, hall, heq⟩ := Option.bind_eq_some_iff.mp h
  cases heq
  have hrun := checkAll_run hall
  refine Relation.ReflTransGen.head (Step.other ?_ ?_) (hrun.tail (Step.other ?_ ?_)) <;> rfl

namespace Fair

theorem schedule (h : Fair s items) {q : Request α} (hs : s.schedule q = some s') :
    ∃ items', Fair s' items' := by
  unfold Simulation.schedule at hs
  by_cases hq : 0 < q.fromNow
  · rw [if_pos hq] at hs
    dsimp only at hs
    generalize hp : (⟨q.handler, s.stats.totalTicks + q.fromNow, q.type⟩ : PendingInterrupt α) = p
      at hs
    have hwhen : s.stats.totalTicks + q.fromNow = p.when := by rw [← hp]
    obtain ⟨pending, hinsert, horder⟩ := h.inOrder.sortedInsert p
    rw [hwhen, hinsert] at hs
    cases hs
    refine ⟨_, horder, fun when => ?_⟩
    have hcalls := h.calls when
    unfold History.scheduledFor History.calledFor at hcalls ⊢
    have hscheduled : SortedQueue.tied PendingInterrupt.when when (s.history.scheduled ++ [p]) =
        SortedQueue.tied PendingInterrupt.when when s.history.scheduled ++
          SortedQueue.tied PendingInterrupt.when when [p] := List.filter_append _ _
    rw [h.inOrder.sorted.tied_insert p, ← List.append_assoc]
    show _ = SortedQueue.tied PendingInterrupt.when when (s.history.scheduled ++ [p])
    rw [hscheduled, ← hcalls, SortedQueue.tied_cons]
    exact congrArg _ (List.append_nil _).symm
  · rw [if_neg hq] at hs
    cases hs

/-- `Fair` looks at the queue and the history alone. -/
theorem congr (h : Fair s items) (hpending : s'.pending = s.pending)
    (hcalled : s'.history.called = s.history.called)
    (hscheduled : s'.history.scheduled = s.history.scheduled) : Fair s' items := by
  refine ⟨hpending ▸ h.inOrder, fun when => ?_⟩
  have hcalls := h.calls when
  unfold History.scheduledFor History.calledFor at hcalls ⊢
  rwa [hcalled, hscheduled]

theorem schedules {requests : List (Request α)} (h : Fair s items)
    (hs : requests.foldlM Simulation.schedule s = some s') : ∃ items', Fair s' items' := by
  induction requests generalizing s items with
  | nil =>
    cases hs
    exact ⟨items, h⟩
  | cons q requests ih =>
    rw [List.foldlM_cons] at hs
    obtain ⟨s₁, hs₁, hrest⟩ := Option.bind_eq_some_iff.mp hs
    obtain ⟨items₁, h₁⟩ := h.schedule hs₁
    exact ih h₁ hrest

/-- The earliest interrupt goes from the queue to those called. -/
theorem take (h : Fair s (p :: items)) (horder : InOrder s'.pending items)
    (hcalled : s'.history.called.map Prod.fst = s.history.called.map Prod.fst ++ [p])
    (hscheduled : s'.history.scheduled = s.history.scheduled) : Fair s' items := by
  refine ⟨horder, fun when => ?_⟩
  have hcalls := h.calls when
  unfold History.scheduledFor History.calledFor at hcalls ⊢
  have happend : SortedQueue.tied PendingInterrupt.when when
      (s.history.called.map Prod.fst ++ [p]) =
        SortedQueue.tied PendingInterrupt.when when (s.history.called.map Prod.fst) ++
          SortedQueue.tied PendingInterrupt.when when [p] := List.filter_append _ _
  rw [hcalled, hscheduled, happend, ← hcalls, List.append_assoc, SortedQueue.tied_cons,
    SortedQueue.tied_cons]
  exact congrArg _ (congrArg (· ++ _) (List.append_nil _))

theorem callHandler (h : Fair s (p :: items)) {s₁ : Simulation σ α}
    (hs : s₁.callHandler r p = some s') (horder : InOrder s₁.pending items)
    (hcalled : s₁.history.called = s.history.called)
    (hscheduled : s₁.history.scheduled = s.history.scheduled) : ∃ items', Fair s' items' := by
  unfold Simulation.callHandler at hs
  generalize r.call p.handler s₁ = result at hs
  obtain ⟨state, requests⟩ := result
  have htake : Fair { s₁ with
      state
      history := { s₁.history with
        called := s₁.history.called ++ [(p, s₁.stats.totalTicks)] } } items := by
    refine h.take horder ?_ hscheduled
    rw [List.map_append, hcalled]
    rfl
  exact htake.schedules hs

theorem fire (h : Fair s (p :: items)) {s₁ : Simulation σ α} (hs : s₁.fire r p = some s')
    (horder : InOrder s₁.pending items) (hcalled : s₁.history.called = s.history.called)
    (hscheduled : s₁.history.scheduled = s.history.scheduled) : ∃ items', Fair s' items' := by
  obtain ⟨s₂, hs₂, heq⟩ := Option.bind_eq_some_iff.mp hs
  cases heq
  obtain ⟨items', h'⟩ := h.callHandler hs₂ horder hcalled hscheduled
  exact ⟨items', h'.congr rfl rfl rfl⟩

/-- An interrupt that is due is called, unless it is the timer and nothing else is pending. -/
theorem occur (h : Fair s (p :: items)) {s₁ : Simulation σ α} {again : Bool}
    (hs : s₁.occur r p p.when = some (again, s')) (horder : InOrder s₁.pending items)
    (hcalled : s₁.history.called = s.history.called)
    (hscheduled : s₁.history.scheduled = s.history.scheduled) : ∃ items', Fair s' items' := by
  unfold Simulation.occur at hs
  by_cases hidle : s₁.status = .idle ∧ p.type = .timer ∧ s₁.pending.first = none
  · rw [if_pos hidle] at hs
    obtain ⟨pending, hinsert, heq⟩ := Option.bind_eq_some_iff.mp hs
    cases heq
    have hnil : items = [] :=
      List.map_eq_nil_iff.mp (horder.holds.first_eq_none.mp hidle.2.2)
    subst hnil
    obtain ⟨pending', hinsert', horder'⟩ := horder.sortedInsert p
    rw [hinsert] at hinsert'
    cases hinsert'
    refine ⟨[p], horder', fun when => ?_⟩
    have hcalls := h.calls when
    unfold History.scheduledFor History.calledFor at hcalls ⊢
    rw [show (s₁.setPending pending).history.called = _ from hcalled,
      show (s₁.setPending pending).history.scheduled = _ from hscheduled, hcalls]
  · rw [if_neg hidle] at hs
    obtain ⟨s₂, hs₂, heq⟩ := Option.bind_eq_some_iff.mp hs
    cases heq
    exact h.fire hs₂ horder hcalled hscheduled

theorem checkIfDue (h : Fair s items) {advanceClock again : Bool}
    (hs : s.checkIfDue r advanceClock = some (again, s')) (halone : advanceClock = false → Alone s) :
    ∃ items', Fair s' items' := by
  by_cases hl : s.level = .off
  · cases items with
    | nil =>
      unfold Simulation.checkIfDue at hs
      rw [if_pos hl, h.inOrder.sortedRemove_nil] at hs
      cases hs
      exact ⟨[], h.congr rfl rfl rfl⟩
    | cons p items =>
      by_cases hback : advanceClock = false ∧ s.stats.totalTicks < p.when
      · obtain ⟨hadvance, hlater⟩ := hback
        subst hadvance
        obtain ⟨s₁, hcheck, hsame, horder⟩ := checkIfDue_puts_back r hl h.inOrder hlater
        rw [hcheck] at hs
        cases hs
        have halone' := halone rfl p items h.inOrder hlater
        rw [h.inOrder.sorted.insert_eq_cons.mpr halone'] at horder
        refine ⟨p :: items, horder, fun when => ?_⟩
        have hcalls := h.calls when
        unfold History.scheduledFor History.calledFor at hcalls ⊢
        rwa [hsame.called, hsame.scheduled]
      · obtain ⟨removed, hremove, horder⟩ := h.inOrder.sortedRemove_cons
        unfold Simulation.checkIfDue at hs
        rw [if_pos hl, hremove] at hs
        simp only [Option.bind_eq_bind, Option.bind_some] at hs
        by_cases hadvance : advanceClock = true ∧
            (s.setPending removed).stats.totalTicks < p.when
        · rw [if_pos hadvance] at hs
          exact h.occur hs horder rfl rfl
        · have hnot : ¬ (s.setPending removed).stats.totalTicks < p.when := by
            intro hlater
            cases advanceClock with
            | true => exact hadvance ⟨rfl, hlater⟩
            | false => exact hback ⟨rfl, hlater⟩
          rw [if_neg hadvance, if_neg hnot] at hs
          exact h.occur hs horder rfl rfl
  · unfold Simulation.checkIfDue at hs
    rw [if_neg hl] at hs
    cases hs

theorem step (h : Fair s items) (hs : Step r Alone s s') : ∃ items', Fair s' items' := by
  cases hs with
  | schedule q hq => exact h.schedule hq
  | checkIfDue advanceClock again hcheck halone => exact h.checkIfDue hcheck halone
  | other hpending hhistory =>
    exact ⟨items, h.congr hpending (by rw [hhistory]) (by rw [hhistory])⟩

/-- In every run the interrupts for one time are called as they were scheduled, when those that
are put back are alone. -/
theorem reachable (h : (runs r Alone).Reachable s) : ∃ items, Fair s items := by
  refine h.induct (I := fun s => ∃ items, Fair s items) ?_ ?_
  · rintro s ⟨hempty, hcalled, hscheduled⟩
    refine ⟨[], hempty, fun when => ?_⟩
    unfold History.scheduledFor History.calledFor
    rw [hcalled, hscheduled]
    rfl
  · rintro s s' ⟨items, hfair⟩ hstep
    exact hfair.step hstep

end Fair

/-- An interrupt that is not due is left in its place just when it is alone; and in the runs
where it is each time, the interrupts for one time are called in the order in which they were
scheduled. -/
theorem putBack_exact (r : Routines σ α) :
    (∀ (s : Simulation σ α) (p : PendingInterrupt α) (items : List (PendingInterrupt α)),
      s.level = .off → InOrder s.pending (p :: items) → s.stats.totalTicks < p.when →
        ∃ s', s.checkIfDue r false = some (false, s') ∧ SameBut s s' ∧
          (InOrder s'.pending (p :: items) ↔ ∀ q ∈ items, q.when = p.when → q = p)) ∧
    ∀ s, (runs r Alone).Reachable s →
      (∃ items, Fair s items) ∧
        ∀ when, s.history.calledFor when <+: s.history.scheduledFor when := by
  constructor
  · intro s p items hl h hlater
    obtain ⟨s', hcheck, hsame, horder⟩ := checkIfDue_puts_back r hl h hlater
    refine ⟨s', hcheck, hsame, ?_⟩
    rw [← h.sorted.insert_eq_cons]
    exact ⟨fun h' => horder.unique h', fun heq => heq ▸ horder⟩
  · intro s hs
    obtain ⟨items, hfair⟩ := Fair.reachable hs
    exact ⟨⟨items, hfair⟩, fun when => ⟨_, hfair.calls when⟩⟩

/-- Nothing has been scheduled yet. -/
def start : Simulation Unit Nat where
  level := .off
  status := .system
  inHandler := false
  pending := .empty
  stats := ⟨0, 0, 0, 0⟩
  state := ()
  history := ⟨[], [], []⟩

/-- The handlers schedule nothing. -/
def quiet : Routines Unit Nat where
  delayedLoad := id
  call := fun _ _ => ((), [])

/-- Two interrupts of the disk are scheduled for one time. -/
def twice : Option (Simulation Unit Nat) := do
  let s ← start.schedule ⟨0, 10, .disk⟩
  s.schedule ⟨1, 10, .disk⟩

theorem twice_inOrder : ∃ s, twice = some s ∧
    InOrder s.pending [⟨0, 10, .disk⟩, ⟨1, 10, .disk⟩] := by
  obtain ⟨l, hl, hone⟩ := InOrder.empty.sortedInsert (⟨0, 10, .disk⟩ : PendingInterrupt Nat)
  obtain ⟨l', hl', htwo⟩ := hone.sortedInsert ⟨1, 10, .disk⟩
  cases hl
  cases hl'
  exact ⟨_, rfl, htwo⟩

/-- After one look at the queue the second of them is called first. -/
theorem putBack_swaps : ∃ s s₁ s₂, twice = some s ∧
    InOrder s.pending [⟨0, 10, .disk⟩, ⟨1, 10, .disk⟩] ∧
    s.checkIfDue quiet false = some (false, s₁) ∧
    ¬ InOrder s₁.pending [⟨0, 10, .disk⟩, ⟨1, 10, .disk⟩] ∧
    s₁.checkIfDue quiet true = some (true, s₂) ∧ (runs quiet fun _ => True).Reachable s₂ ∧
    s₂.history.calledFor 10 = [⟨1, 10, .disk⟩] ∧
    s₂.history.scheduledFor 10 = [⟨0, 10, .disk⟩, ⟨1, 10, .disk⟩] := by
  obtain ⟨s, hs, horder⟩ := twice_inOrder
  obtain ⟨s₁, hcheck, _, horder₁⟩ := checkIfDue_puts_back quiet (s := s) (by cases hs; rfl) horder
    (by cases hs; decide)
  cases hs
  cases hcheck
  refine ⟨_, _, _, rfl, horder, rfl, fun h => ?_, rfl, ?_, rfl, rfl⟩
  · have heq := horder.sorted.insert_eq_cons.mp (horder₁.unique h) _ List.mem_cons_self rfl
    cases heq
  · have hstart : (runs quiet fun _ => True).Reachable start := .of_init ⟨.empty, rfl, rfl⟩
    have hfirst := hstart.step (Step.schedule ⟨0, 10, .disk⟩ rfl)
    have hsecond := hfirst.step (Step.schedule ⟨1, 10, .disk⟩ rfl)
    have hlook := hsecond.step (Step.checkIfDue false false rfl fun _ => trivial)
    exact hlook.step (Step.checkIfDue true true rfl fun h => nomatch h)

end OneTick
end Threads
end Nachos
