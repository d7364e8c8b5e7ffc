import Nachos.Threads.Interrupt
import Nachos.Threads.LinkedList

/-!
# The pending interrupts during a tick

`OneTick` with the queue in memory and with arbitrary handlers: what a handler
does to the rest of the system is any function, and it may call `Schedule` any
finite number of times.
-/

namespace Nachos
namespace Threads
namespace OneTick

open Lib

/-- `handler` stands for the procedure and its argument. -/
structure PendingInterrupt (α : Type) where
  handler : α
  when : Nat
  type : IntType

/-- The arguments of a call of `Schedule`. -/
structure Request (α : Type) where
  handler : α
  fromNow : Nat
  type : IntType

/-- What has happened so far: the interrupts that were called, with the time, and
those that were scheduled, and every state of the queue.  Nothing in the code
reads it. -/
structure History (α : Type) where
  called : List (PendingInterrupt α × Nat)
  scheduled : List (PendingInterrupt α)
  queues : List (LinkedList (PendingInterrupt α))

/-- The interrupt simulation.  `state` is all that handlers work on. -/
structure Simulation (σ α : Type) where
  level : IntStatus
  status : MachineStatus
  inHandler : Bool
  pending : LinkedList (PendingInterrupt α)
  stats : Statistics
  state : σ
  history : History α

/-- The routines outside of the simulation: `Machine::DelayedLoad(0, 0)`, and what a
handler makes of the state and the calls of `Schedule` it makes. -/
structure Routines (σ α : Type) where
  delayedLoad : σ → σ
  call : α → Simulation σ α → σ × List (Request α)

variable {σ α : Type}

namespace Simulation

def setPending (s : Simulation σ α) (pending : LinkedList (PendingInterrupt α)) :
    Simulation σ α :=
  { s with
    pending
    history := { s.history with queues := s.history.queues ++ [pending] } }

/-- `Interrupt::Schedule`. -/
def schedule (s : Simulation σ α) (q : Request α) : Option (Simulation σ α) :=
  let when := s.stats.totalTicks + q.fromNow
  let toOccur : PendingInterrupt α := ⟨q.handler, when, q.type⟩
  if 0 < q.fromNow then do
    let pending ← s.pending.sortedInsert toOccur when
    let s := s.setPending pending
    return { s with history := { s.history with scheduled := s.history.scheduled ++ [toOccur] } }
  else none

/-- `(*(toOccur->handler))(toOccur->arg)` -/
def callHandler (r : Routines σ α) (s : Simulation σ α) (toOccur : PendingInterrupt α) :
    Option (Simulation σ α) :=
  let (state, requests) := r.call toOccur.handler s
  requests.foldlM schedule { s with
    state
    history := { s.history with
      called := s.history.called ++ [(toOccur, s.stats.totalTicks)] } }

/-- `Interrupt::CheckIfDue` from the call of the handler on. -/
def fire (r : Routines σ α) (s : Simulation σ α) (toOccur : PendingInterrupt α) :
    Option (Simulation σ α) := do
  let old := s.status
  let state := if old = .user then r.delayedLoad s.state else s.state
  let s ← callHandler r { s with state, inHandler := true, status := .system } toOccur
  return { s with status := old, inHandler := false }

/-- `Interrupt::CheckIfDue` for an interrupt that is due. -/
def occur (r : Routines σ α) (s : Simulation σ α) (toOccur : PendingInterrupt α) (when : Nat) :
    Option (Bool × Simulation σ α) :=
  if s.status = .idle ∧ toOccur.type = .timer ∧ s.pending.first = none then do
    -- only the time slice is left, so there is nothing more to do
    let pending ← s.pending.sortedInsert toOccur when
    return (false, s.setPending pending)
  else do
    let s ← fire r s toOccur
    return (true, s)

/-- `Interrupt::CheckIfDue`. -/
def checkIfDue (r : Routines σ α) (advanceClock : Bool) (s : Simulation σ α) :
    Option (Bool × Simulation σ α) :=
  if s.level = .off then do
    let (toOccur, pending) ← s.pending.sortedRemove
    let s := s.setPending pending
    match toOccur with
    | none => return (false, s)
    | some (toOccur, when) =>
      if advanceClock ∧ s.stats.totalTicks < when then
        occur r { s with stats := { s.stats with
          idleTicks := s.stats.idleTicks + (when - s.stats.totalTicks)
          totalTicks := when } } toOccur when
      else if s.stats.totalTicks < when then do
        -- not time yet, put it back
        let pending ← s.pending.sortedInsert toOccur when
        return (false, s.setPending pending)
      else occur r s toOccur when
  else none

/-- `while (CheckIfDue(FALSE));`, for at most `n` rounds. -/
def checkAll (r : Routines σ α) : Nat → Simulation σ α → Option (Simulation σ α)
  | 0, _ => none
  | n + 1, s => do
    let (again, s) ← checkIfDue r false s
    if again then checkAll r n s else return s

/-- `Interrupt::OneTick` up to the yield at its end. -/
def oneTick (r : Routines σ α) (n : Nat) (s : Simulation σ α) : Option (Simulation σ α) := do
  let s ← checkAll r n { s with stats := s.stats.tick s.status, level := .off }
  return { s with level := .on }

end Simulation

/-! ## The queue -/

/-- The queues that calls of `Schedule`, at whatever times, and of `CheckIfDue`
build. -/
inductive Built : LinkedList (PendingInterrupt α) → Prop
  | empty : Built .empty
  | schedule {l l' : LinkedList (PendingInterrupt α)} (h : Built l) (toOccur : PendingInterrupt α)
      (hinsert : l.sortedInsert toOccur toOccur.when = some l') : Built l'
  | remove {l l' : LinkedList (PendingInterrupt α)} (h : Built l)
      {removed : Option (PendingInterrupt α × Nat)}
      (hremove : l.sortedRemove = some (removed, l')) : Built l'

/-- The queue is sorted, and the key of each interrupt is its time. -/
structure InOrder (l : LinkedList (PendingInterrupt α)) (items : List (PendingInterrupt α)) :
    Prop where
  holds : l.Holds (items.map fun p => ⟨p.when, p⟩)
  sorted : SortedQueue.Sorted PendingInterrupt.when items

namespace InOrder

variable {l : LinkedList (PendingInterrupt α)} {items : List (PendingInterrupt α)}
  {p : PendingInterrupt α}

theorem empty : InOrder (.empty : LinkedList (PendingInterrupt α)) [] :=
  ⟨LinkedList.holds_empty, List.Pairwise.nil⟩

theorem sortedInsert (h : InOrder l items) (p : PendingInterrupt α) :
    ∃ l', l.sortedInsert p p.when = some l' ∧
      InOrder l' (SortedQueue.insert PendingInterrupt.when p items) := by
  obtain ⟨l', hl', hholds⟩ := h.holds.sortedInsert p p.when
  refine ⟨l', hl', ?_, h.sorted.insert p⟩
  have hmap : (SortedQueue.insert PendingInterrupt.when p items).map
      (fun p => (⟨p.when, p⟩ : Entry (PendingInterrupt α))) =
        SortedQueue.insert Entry.key ⟨p.when, p⟩ (items.map fun p => ⟨p.when, p⟩) :=
    List.map_orderedInsert _ _ _ items p (fun _ _ => Iff.rfl) fun _ _ => Iff.rfl
  rwa [hmap]

theorem sortedRemove_nil (h : InOrder l []) : l.sortedRemove = some (none, l) :=
  h.holds.sortedRemove_nil

theorem sortedRemove_cons (h : InOrder l (p :: items)) :
    ∃ l', l.sortedRemove = some (some (p, p.when), l') ∧ InOrder l' items := by
  obtain ⟨l', hl', hholds⟩ := h.holds.sortedRemove_cons
  exact ⟨l', hl', hholds, h.sorted.tail⟩

theorem ofBuilt (h : Built l) : ∃ items, InOrder l items := by
  induction h with
  | empty => exact ⟨[], empty⟩
  | schedule h toOccur hinsert ih =>
    obtain ⟨items, horder⟩ := ih
    obtain ⟨l', hl', horder'⟩ := horder.sortedInsert toOccur
    rw [hinsert] at hl'
    cases hl'
    exact ⟨_, horder'⟩
  | remove h hremove ih =>
    obtain ⟨items, horder⟩ := ih
    cases items with
    | nil =>
      rw [horder.sortedRemove_nil] at hremove
      cases hremove
      exact ⟨[], horder⟩
    | cons p items =>
      obtain ⟨l', hl', horder'⟩ := horder.sortedRemove_cons
      rw [hremove] at hl'
      cases hl'
      exact ⟨items, horder'⟩

end InOrder

/-! ## What a part of the loop does -/

/-- From `s` to `s'` the interrupts `called` were called, in this order and when they
were due, and `scheduled` was scheduled; the queue went from `items` to `items'`. -/
structure Runs (s s' : Simulation σ α)
    (items items' called scheduled : List (PendingInterrupt α)) : Prop where
  stats : s'.stats = s.stats
  level : s'.level = s.level
  status : s'.status = s.status
  inOrder : InOrder s'.pending items'
  due : SortedQueue.due PendingInterrupt.when s.stats.totalTicks items =
    called ++ SortedQueue.due PendingInterrupt.when s.stats.totalTicks items'
  later : (SortedQueue.later PendingInterrupt.when s.stats.totalTicks items').Perm
    (SortedQueue.later PendingInterrupt.when s.stats.totalTicks items ++ scheduled)
  called : s'.history.called =
    s.history.called ++ called.map fun p => (p, s.stats.totalTicks)
  scheduled : s'.history.scheduled = s.history.scheduled ++ scheduled
  queues : ∃ queues, s'.history.queues = s.history.queues ++ queues ∧
    ∀ l ∈ queues, ∃ items, InOrder l items

namespace Runs

variable {s s₁ s₂ s₃ : Simulation σ α}
  {items items₁ items₂ items₃ called called' scheduled scheduled' : List (PendingInterrupt α)}
  {p : PendingInterrupt α}

theorem refl (h : InOrder s.pending items) : Runs s s items items [] [] where
  stats := rfl
  level := rfl
  status := rfl
  inOrder := h
  due := rfl
  later := by rw [List.append_nil]
  called := by simp
  scheduled := by simp
  queues := ⟨[], by simp, nofun⟩

theorem trans (h : Runs s₁ s₂ items₁ items₂ called scheduled)
    (h' : Runs s₂ s₃ items₂ items₃ called' scheduled') :
    Runs s₁ s₃ items₁ items₃ (called ++ called') (scheduled ++ scheduled') := by
  have hdue := h'.due
  have hlater := h'.later
  have hcalled := h'.called
  rw [h.stats] at hdue hlater hcalled
  obtain ⟨queues, hqueues, horder⟩ := h.queues
  obtain ⟨queues', hqueues', horder'⟩ := h'.queues
  refine ⟨h'.stats.trans h.stats, h'.level.trans h.level, h'.status.trans h.status, h'.inOrder,
    ?_, ?_, ?_, ?_, queues ++ queues', ?_, ?_⟩
  · rw [h.due, hdue, List.append_assoc]
  · rw [← List.append_assoc]
    exact hlater.trans (h.later.append_right scheduled')
  · rw [hcalled, h.called, List.map_append, List.append_assoc]
  · rw [h'.scheduled, h.scheduled, List.append_assoc]
  · rw [hqueues', hqueues, List.append_assoc]
  · intro l hl
    rcases List.mem_append.mp hl with hl | hl
    · exact horder l hl
    · exact horder' l hl

/-- `Schedule` never makes an interrupt due. -/
theorem schedule (h : InOrder s.pending items) {q : Request α} (hq : 0 < q.fromNow) :
    ∃ s' items' p, s.schedule q = some s' ∧ Runs s s' items items' [] [p] := by
  have hlater : s.stats.totalTicks < s.stats.totalTicks + q.fromNow := Nat.lt_add_of_pos_right hq
  generalize hp : (⟨q.handler, s.stats.totalTicks + q.fromNow, q.type⟩ : PendingInterrupt α) = p
  have hwhen : p.when = s.stats.totalTicks + q.fromNow := by rw [← hp]
  rw [← hwhen] at hlater
  obtain ⟨pending, hinsert, horder⟩ := h.sortedInsert p
  have heq : s.schedule q = some { s.setPending pending with
      history := { (s.setPending pending).history with
        scheduled := s.history.scheduled ++ [p] } } := by
    unfold Simulation.schedule
    rw [if_pos hq]
    dsimp only
    rw [hp, ← hwhen, hinsert]
    rfl
  refine ⟨_, SortedQueue.insert PendingInterrupt.when p items, p, heq, ?_⟩
  refine ⟨rfl, rfl, rfl, horder, ?_, ?_, ?_, rfl, [pending], rfl, ?_⟩
  · exact (SortedQueue.due_insert hlater items).symm
  · exact (SortedQueue.later_insert hlater items).trans (List.perm_append_singleton _ _).symm
  · simp [Simulation.setPending]
  · intro l hl
    rw [List.mem_singleton.mp hl]
    exact ⟨_, horder⟩

theorem schedules {requests : List (Request α)} (hpos : ∀ q ∈ requests, 0 < q.fromNow)
    (h : InOrder s.pending items) :
    ∃ s' items' scheduled, requests.foldlM Simulation.schedule s = some s' ∧
      Runs s s' items items' [] scheduled := by
  induction requests generalizing s items with
  | nil => exact ⟨s, items, [], rfl, refl h⟩
  | cons q requests ih =>
    obtain ⟨s₁, items₁, p, hs₁, hruns⟩ := schedule h (hpos q List.mem_cons_self)
    obtain ⟨s', items', scheduled, hs', hruns'⟩ :=
      ih (fun q hq => hpos q (List.mem_cons_of_mem _ hq)) hruns.inOrder
    refine ⟨s', items', [p] ++ scheduled, ?_, hruns.trans hruns'⟩
    rw [List.foldlM_cons, hs₁]
    exact hs'

variable (r : Routines σ α)

theorem checkIfDue_nil (hl : s.level = .off) (h : InOrder s.pending []) :
    ∃ s', s.checkIfDue r false = some (false, s') ∧ Runs s s' [] [] [] [] := by
  refine ⟨s.setPending s.pending, ?_, { refl h with queues := ⟨[s.pending], rfl, ?_⟩ }⟩
  · unfold Simulation.checkIfDue
    rw [if_pos hl, h.sortedRemove_nil]
    rfl
  · intro l hl
    rw [List.mem_singleton.mp hl]
    exact ⟨_, h⟩

/-- An interrupt that is not due is put back, behind those of the same time. -/
theorem checkIfDue_later (hl : s.level = .off) (h : InOrder s.pending (p :: items))
    (hlater : s.stats.totalTicks < p.when) :
    ∃ s' items', s.checkIfDue r false = some (false, s') ∧
      Runs s s' (p :: items) items' [] [] := by
  obtain ⟨removed, hremove, horder⟩ := h.sortedRemove_cons
  obtain ⟨pending, hinsert, horder'⟩ := horder.sortedInsert p
  have hperm := SortedQueue.insert_perm (f := PendingInterrupt.when) p items
  refine ⟨(s.setPending removed).setPending pending, _, ?_, rfl, rfl, rfl, horder', ?_, ?_, ?_, ?_,
    [removed, pending], ?_, ?_⟩
  · have hinsert' : (s.setPending removed).pending.sortedInsert p p.when = some pending := hinsert
    have hlater' : (s.setPending removed).stats.totalTicks < p.when := hlater
    unfold Simulation.checkIfDue
    rw [if_pos hl, hremove]
    simp only [Option.bind_eq_bind, Option.bind_some, Bool.false_eq_true, false_and, if_false,
      if_pos hlater', hinsert', Option.pure_def]
  · have hdue : (SortedQueue.due PendingInterrupt.when s.stats.totalTicks
        (SortedQueue.insert PendingInterrupt.when p items)).Perm _ := SortedQueue.due_perm hperm
    rw [h.sorted.due_nil hlater] at hdue ⊢
    exact hdue.eq_nil.symm
  · rw [List.append_nil]
    exact SortedQueue.later_perm hperm
  · simp [Simulation.setPending]
  · simp [Simulation.setPending]
  · simp [Simulation.setPending]
  · intro l hl
    rcases List.mem_pair.mp hl with rfl | rfl
    · exact ⟨_, horder⟩
    · exact ⟨_, horder'⟩

/-- An interrupt that is due is called, and what it schedules is not due.  A timer that is
left alone on an idle machine is not called. -/
theorem checkIfDue_due (hpos : ∀ h s, ∀ q ∈ (r.call h s).2, 0 < q.fromNow)
    (hl : s.level = .off) (h : InOrder s.pending (p :: items))
    (hbusy : ¬ (s.status = .idle ∧ p.type = .timer ∧ items = []))
    (hdue : p.when ≤ s.stats.totalTicks) :
    ∃ s' items' scheduled, s.checkIfDue r false = some (true, s') ∧
      Runs s s' (p :: items) items' [p] scheduled := by
  obtain ⟨removed, hremove, horder⟩ := h.sortedRemove_cons
  let s₁ : Simulation σ α := { s.setPending removed with
    state := if s.status = .user then r.delayedLoad s.state else s.state
    inHandler := true
    status := .system }
  obtain ⟨s₂, items', scheduled, hs₂, hruns⟩ := schedules (s := { s₁ with
    state := (r.call p.handler s₁).1
    history := { s₁.history with
      called := s₁.history.called ++ [(p, s₁.stats.totalTicks)] } })
    (hpos p.handler s₁) horder
  refine ⟨{ s₂ with status := s.status, inHandler := false }, items', scheduled, ?_,
    hruns.stats, hruns.level, rfl, hruns.inOrder, ?_, ?_, ?_, ?_, ?_⟩
  · have hnot : ¬ (s.setPending removed).stats.totalTicks < p.when := not_lt.mpr hdue
    have hbusy' : ¬ ((s.setPending removed).status = .idle ∧ p.type = .timer ∧
        (s.setPending removed).pending.first = none) := by
      rintro ⟨hidle, htimer, hfirst⟩
      exact hbusy ⟨hidle, htimer, List.map_eq_nil_iff.mp (horder.holds.first_eq_none.mp hfirst)⟩
    have hcall : s₁.callHandler r p = some s₂ := hs₂
    unfold Simulation.checkIfDue
    rw [if_pos hl, hremove]
    simp only [Option.bind_eq_bind, Option.bind_some, Bool.false_eq_true, false_and, if_false,
      if_neg hnot]
    unfold Simulation.occur
    rw [if_neg hbusy']
    show ((s₁.callHandler r p).bind _).bind _ = _
    rw [hcall]
    rfl
  · rw [SortedQueue.due_cons hdue]
    exact congrArg (List.cons p) hruns.due
  · rw [SortedQueue.later_cons hdue]
    exact hruns.later
  · rw [show s₂.history.called = _ from hruns.called]
    simp [s₁, Simulation.setPending]
  · exact hruns.scheduled
  · obtain ⟨queues, hqueues, horders⟩ := hruns.queues
    refine ⟨removed :: queues, ?_, fun l hl => ?_⟩
    · rw [show s₂.history.queues = _ from hqueues]
      simp [s₁, Simulation.setPending]
    · rcases List.mem_cons.mp hl with rfl | hl
      · exact ⟨_, horder⟩
      · exact horders l hl

/-- A timer that is due and alone on an idle machine is put back. -/
theorem checkIfDue_timer (hl : s.level = .off) (h : InOrder s.pending [p])
    (hidle : s.status = .idle) (htimer : p.type = .timer)
    (hdue : p.when ≤ s.stats.totalTicks) :
    ∃ s', s.checkIfDue r false = some (false, s') ∧ Runs s s' [p] [p] [] [] := by
  obtain ⟨removed, hremove, horder⟩ := h.sortedRemove_cons
  obtain ⟨pending, hinsert, horder'⟩ := horder.sortedInsert p
  refine ⟨(s.setPending removed).setPending pending, ?_, rfl, rfl, rfl, horder', rfl, ?_, ?_, ?_,
    [removed, pending], ?_, ?_⟩
  · have hinsert' : (s.setPending removed).pending.sortedInsert p p.when = some pending := hinsert
    have hnot : ¬ (s.setPending removed).stats.totalTicks < p.when := not_lt.mpr hdue
    have halone : (s.setPending removed).status = .idle ∧ p.type = .timer ∧
        (s.setPending removed).pending.first = none :=
      ⟨hidle, htimer, horder.holds.first_eq_none.mpr rfl⟩
    unfold Simulation.checkIfDue
    rw [if_pos hl, hremove]
    simp only [Option.bind_eq_bind, Option.bind_some, Bool.false_eq_true, false_and, if_false,
      if_neg hnot]
    unfold Simulation.occur
    rw [if_pos halone, hinsert']
    rfl
  · rw [List.append_nil]
  · simp [Simulation.setPending]
  · simp [Simulation.setPending]
  · simp [Simulation.setPending]
  · intro l hl
    rcases List.mem_pair.mp hl with rfl | rfl
    · exact ⟨_, horder⟩
    · exact ⟨_, horder'⟩

/-- The loop ends: each round but the last takes one of the interrupts that are
due, and none becomes due.  On an idle machine a timer may be left. -/
theorem checkAll (hpos : ∀ h s, ∀ q ∈ (r.call h s).2, 0 < q.fromNow) (n : Nat) :
    ∀ {s : Simulation σ α} {items : List (PendingInterrupt α)}, s.level = .off →
      InOrder s.pending items →
      (SortedQueue.due PendingInterrupt.when s.stats.totalTicks items).length < n →
      ∃ s' items' called scheduled, s.checkAll r n = some s' ∧
        Runs s s' items items' called scheduled ∧
        (SortedQueue.due PendingInterrupt.when s.stats.totalTicks items' = [] ∨
          s.status = .idle ∧ ∃ t, t.type = .timer ∧ items' = [t]) := by
  induction n with
  | zero => exact fun _ _ hn => absurd hn (Nat.not_lt_zero _)
  | succ n ih =>
    intro s items hl h hn
    have hlast : ∀ {s' : Simulation σ α} {items' : List (PendingInterrupt α)},
        s.checkIfDue r false = some (false, s') → Runs s s' items items' [] [] →
        (SortedQueue.due PendingInterrupt.when s.stats.totalTicks items' = [] ∨
          s.status = .idle ∧ ∃ t, t.type = .timer ∧ items' = [t]) →
        ∃ s' items' called scheduled, s.checkAll r (n + 1) = some s' ∧
          Runs s s' items items' called scheduled ∧
          (SortedQueue.due PendingInterrupt.when s.stats.totalTicks items' = [] ∨
            s.status = .idle ∧ ∃ t, t.type = .timer ∧ items' = [t]) := by
      intro s' items' hcheck hruns hend
      refine ⟨s', items', [], [], ?_, hruns, hend⟩
      unfold Simulation.checkAll
      rw [hcheck]
      rfl
    cases items with
    | nil =>
      obtain ⟨s', hcheck, hruns⟩ := checkIfDue_nil r hl h
      exact hlast hcheck hruns (.inl rfl)
    | cons p items =>
      rcases Nat.lt_or_ge s.stats.totalTicks p.when with hlater | hdue
      · obtain ⟨s', items', hcheck, hruns⟩ := checkIfDue_later r hl h hlater
        exact hlast hcheck hruns (.inl (hruns.due.symm.trans (h.sorted.due_nil hlater)))
      · by_cases hbusy : s.status = .idle ∧ p.type = .timer ∧ items = []
        · obtain ⟨hidle, htimer, rfl⟩ := hbusy
          obtain ⟨s', hcheck, hruns⟩ := checkIfDue_timer r hl h hidle htimer hdue
          exact hlast hcheck hruns (.inr ⟨hidle, p, htimer, rfl⟩)
        · obtain ⟨s₁, items₁, scheduled, hcheck, hruns⟩ := checkIfDue_due r hpos hl h hbusy hdue
          have hless : (SortedQueue.due PendingInterrupt.when s₁.stats.totalTicks items₁).length
              < n := by
            have hlength := congrArg List.length hruns.due
            rw [List.length_append, List.length_singleton] at hlength
            rw [hruns.stats]
            omega
          obtain ⟨s', items', called, scheduled', hall, hruns', hend⟩ :=
            ih (hruns.level.trans hl) hruns.inOrder hless
          refine ⟨s', items', [p] ++ called, scheduled ++ scheduled', ?_, hruns.trans hruns', ?_⟩
          · unfold Simulation.checkAll
            rw [hcheck]
            exact hall
          · rwa [hruns.stats, hruns.status] at hend

end Runs

/-! ## The queue without its memory -/

/-- An interrupt of the kernel, with its type noted. -/
def PendingInterrupt.ofKernel (p : Threads.PendingInterrupt) : PendingInterrupt Handler :=
  ⟨p.handler, p.when, p.handler.type⟩

theorem ofKernel_insert (p : Threads.PendingInterrupt) (pending : List Threads.PendingInterrupt) :
    (sortedInsert p pending).map PendingInterrupt.ofKernel =
      SortedQueue.insert PendingInterrupt.when (.ofKernel p)
        (pending.map PendingInterrupt.ofKernel) := by
  induction pending with
  | nil => rfl
  | cons q rest ih =>
    unfold sortedInsert
    by_cases hlt : p.when < q.when
    · rw [if_pos hlt]
      exact (SortedQueue.insert_front (f := PendingInterrupt.when) hlt).symm
    · rw [if_neg hlt, List.map_cons, ih]
      exact (SortedQueue.insert_behind (f := PendingInterrupt.when) hlt).symm

/-- What `CheckIfDue` says about the queue of the kernel holds of the queue in memory,
which is left in `s'`. -/
structure Agrees (r : Routines σ Handler) (due : Due) (s' : Simulation σ Handler)
    (result : Option (Bool × Simulation σ Handler)) : Prop where
  inOrder : InOrder s'.pending (due.pending.map .ofKernel)
  stats : s'.stats = due.stats
  result : result = match due.toOccur with
    | none => some (false, s')
    | some p => (s'.fire r (.ofKernel p)).map (true, ·)

theorem occur_ofKernel (r : Routines σ Handler) {s : Simulation σ Handler} {status : MachineStatus}
    {p : Threads.PendingInterrupt} {rest : List Threads.PendingInterrupt} (hm : s.status = status)
    (h : InOrder s.pending (rest.map .ofKernel)) :
    ∃ s', Agrees r
      (if status = .idle ∧ p.handler.type = .timer ∧ rest = [] then
        ⟨none, sortedInsert p rest, s.stats⟩ else ⟨some p, rest, s.stats⟩)
      s' (s.occur r (.ofKernel p) p.when) := by
  subst hm
  have hfirst : s.pending.first = none ↔ rest = [] := by
    rw [h.holds.first_eq_none, List.map_eq_nil_iff, List.map_eq_nil_iff]
  have hiff : (s.status = .idle ∧ (PendingInterrupt.ofKernel p).type = .timer ∧
      s.pending.first = none) ↔ s.status = .idle ∧ p.handler.type = .timer ∧ rest = [] := by
    rw [hfirst]
    rfl
  unfold Simulation.occur
  by_cases hidle : s.status = .idle ∧ p.handler.type = .timer ∧ rest = []
  · rw [if_pos hidle, if_pos (hiff.mpr hidle)]
    obtain ⟨pending, hinsert, horder⟩ := h.sortedInsert (.ofKernel p)
    rw [← ofKernel_insert] at horder
    rw [show LinkedList.sortedInsert _ _ p.when = some pending from hinsert]
    exact ⟨s.setPending pending, horder, rfl, rfl⟩
  · rw [if_neg hidle, if_neg (hiff.not.mpr hidle)]
    refine ⟨s, h, rfl, ?_⟩
    cases hfire : s.fire r (.ofKernel p) with
    | none => simp only [hfire]; rfl
    | some s' => simp only [hfire]; rfl

/-- `CheckIfDue` on the queue in memory does what it does on the list of the pending
interrupts, up to the call of the handler. -/
theorem checkIfDue_ofKernel (r : Routines σ Handler) (advanceClock : Bool) {i : Interrupt}
    {s : Simulation σ Handler} (hl : s.level = .off) (hm : s.status = i.status)
    (h : InOrder s.pending (i.pending.map .ofKernel)) :
    ∃ s', Agrees r (i.checkIfDue s.stats advanceClock) s' (s.checkIfDue r advanceClock) := by
  unfold Interrupt.checkIfDue Simulation.checkIfDue
  rw [if_pos hl]
  cases hp : i.pending with
  | nil =>
    rw [hp] at h
    rw [h.sortedRemove_nil]
    exact ⟨s.setPending s.pending, h, rfl, rfl⟩
  | cons p rest =>
    rw [hp] at h
    obtain ⟨removed, hremove, horder⟩ := h.sortedRemove_cons
    have hwhen : (PendingInterrupt.ofKernel p).when = p.when := rfl
    have hstats : (s.setPending removed).stats = s.stats := rfl
    simp only [hremove, hwhen, hstats, Option.bind_eq_bind, Option.bind_some]
    by_cases hlater : s.stats.totalTicks < p.when
    · cases advanceClock with
      | true =>
        simp only [hlater, Bool.not_true, Bool.false_eq_true, and_false, if_false, if_true,
          and_self]
        exact occur_ofKernel r (s := { s.setPending removed with stats := { s.stats with
          idleTicks := s.stats.idleTicks + (p.when - s.stats.totalTicks)
          totalTicks := p.when } }) hm horder
      | false =>
        obtain ⟨pending, hinsert, horder'⟩ := horder.sortedInsert (.ofKernel p)
        rw [← ofKernel_insert] at horder'
        simp only [hlater, Bool.not_false, Bool.false_eq_true, false_and, if_false, if_true,
          and_self, Option.pure_def]
        refine ⟨(s.setPending removed).setPending pending, horder', rfl, ?_⟩
        rw [show (s.setPending removed).pending.sortedInsert _ p.when = some pending from hinsert]
        rfl
    · simp only [hlater, false_and, and_false, if_false]
      exact occur_ofKernel r (s := s.setPending removed) hm horder

/-! ## The tick -/

theorem checkAll_mono {r : Routines σ α} {s s' : Simulation σ α} {m n : Nat}
    (h : s.checkAll r m = some s') (hmn : m ≤ n) : s.checkAll r n = some s' := by
  induction m generalizing s n with
  | zero => cases h
  | succ m ih =>
    obtain ⟨n, rfl⟩ := Nat.exists_eq_add_of_lt (Nat.lt_of_succ_le hmn)
    unfold Simulation.checkAll at h ⊢
    cases hcheck : s.checkIfDue r false with
    | none => rw [hcheck] at h; cases h
    | some result =>
      obtain ⟨again, s₁⟩ := result
      rw [hcheck] at h
      cases again with
      | false => exact h
      | true => exact ih h (Nat.le_add_right m n)

/-- What a tick from `s` to `s'` has done to the queue, which held `items` and then
`items'`. -/
structure Ticked (s s' : Simulation σ α)
    (items items' called scheduled : List (PendingInterrupt α)) : Prop where
  stats : s'.stats = s.stats.tick s.status
  calls : s'.history.called =
    s.history.called ++ called.map fun p => (p, s'.stats.totalTicks)
  once : called.Perm (items.filter (·.when ≤ s'.stats.totalTicks))
  ordered : called.Pairwise fun p q => p.when ≤ q.when
  notEarly : ∀ p ∈ called, p.when ≤ s'.stats.totalTicks
  schedules : s'.history.scheduled = s.history.scheduled ++ scheduled
  rest : items'.Perm (items.filter (s'.stats.totalTicks < ·.when) ++ scheduled)
  later : ∀ p ∈ items', s'.stats.totalTicks < p.when
  before : InOrder s.pending items
  after : InOrder s'.pending items'
  throughout : ∃ queues, s'.history.queues = s.history.queues ++ queues ∧
    ∀ l ∈ queues, ∃ items, InOrder l items

theorem Runs.ticked {s s₁ : Simulation σ α}
    {items items' called scheduled : List (PendingInterrupt α)} (horder : InOrder s.pending items)
    (h : Runs { s with stats := s.stats.tick s.status, level := .off } s₁ items items' called
      scheduled)
    (hnone : SortedQueue.due PendingInterrupt.when (s.stats.tick s.status).totalTicks items' = []) :
    Ticked s { s₁ with level := .on } items items' called scheduled := by
  have hnow : s₁.stats.totalTicks = (s.stats.tick s.status).totalTicks :=
    congrArg Statistics.totalTicks h.stats
  have hcalled : called =
      SortedQueue.due PendingInterrupt.when (s.stats.tick s.status).totalTicks items := by
    have hdue := h.due
    dsimp only at hdue
    rw [hnone, List.append_nil] at hdue
    exact hdue.symm
  have hrest := h.later
  dsimp only at hrest
  rw [SortedQueue.later_eq_self hnone] at hrest
  refine ⟨h.stats, ?_, ?_, ?_, fun p hp => ?_, h.scheduled, ?_, fun p hp => ?_, horder, h.inOrder,
    h.queues⟩
  · rw [show s₁.history.called = _ from h.called]
    dsimp only
    rw [hnow]
  · rw [hcalled]
    dsimp only
    rw [hnow]
    exact List.Perm.refl _
  · rw [hcalled]
    exact horder.sorted.filter _
  · rw [hcalled] at hp
    dsimp only
    rw [hnow]
    exact of_decide_eq_true (List.mem_filter.mp hp).2
  · dsimp only
    rw [hnow]
    exact hrest
  · dsimp only
    rw [hnow]
    exact not_le.mp fun hle => List.filter_eq_nil_iff.mp hnone p hp (decide_eq_true hle)

/-- In system and in user mode the loop of `OneTick` ends, whatever the handlers
do, and has called just the interrupts that were due. -/
theorem oneTick_calls_due (r : Routines σ α) (hpos : ∀ h s, ∀ q ∈ (r.call h s).2, 0 < q.fromNow)
    {s : Simulation σ α} (hbuilt : Built s.pending) (hmode : s.status ≠ .idle) :
    ∃ s' items items' called scheduled, (∀ n, items.length < n → s.oneTick r n = some s') ∧
      Ticked s s' items items' called scheduled := by
  obtain ⟨items, horder⟩ := InOrder.ofBuilt hbuilt
  let s₀ : Simulation σ α := { s with stats := s.stats.tick s.status, level := .off }
  have hlength : (SortedQueue.due PendingInterrupt.when s₀.stats.totalTicks items).length <
      items.length + 1 := Nat.lt_succ_of_le (List.length_filter_le _ _)
  obtain ⟨s₁, items', called, scheduled, hall, hruns, hend⟩ :=
    Runs.checkAll r hpos (items.length + 1) (s := s₀) rfl horder hlength
  have hnone := hend.resolve_right fun hidle => hmode hidle.1
  refine ⟨{ s₁ with level := .on }, items, items', called, scheduled, fun n hn => ?_,
    hruns.ticked horder hnone⟩
  have hmono := checkAll_mono hall (Nat.succ_le_of_lt hn)
  unfold Simulation.oneTick
  rw [show Simulation.checkAll r n _ = some s₁ from hmono]
  rfl

/-- Handler 0 asks to be called again, and handler 1 does not. -/
def again : Routines Unit Nat where
  delayedLoad := id
  call := fun h _ => ((), if h = 0 then [⟨0, 5, .timer⟩] else [])

/-- A user program is executed while the disk is busy, and handler 0 is called at the
next tick. -/
def busy : Simulation Unit Nat where
  level := .on
  status := .user
  inHandler := false
  pending :=
    { first := some 1
      last := some 0
      heap := Function.update (Function.update (fun _ => none) 0 (some ⟨none, 9, ⟨1, 9, .disk⟩⟩)) 1
        (some ⟨some 0, 1, ⟨0, 1, .timer⟩⟩)
      fresh := 2 }
  stats := ⟨0, 0, 0, 0⟩
  state := ()
  history := ⟨[], [], []⟩

theorem busy_built : Built busy.pending := by
  have hdisk : Built _ := Built.empty.schedule (⟨1, 9, .disk⟩ : PendingInterrupt Nat) rfl
  refine hdisk.schedule ⟨0, 1, .timer⟩ ?_
  simp [LinkedList.sortedInsert, LinkedList.empty, LinkedList.setNext, busy]

theorem oneTick_calls_due_busy :
    ∃ s' items items' called scheduled, (∀ n, items.length < n → busy.oneTick again n = some s') ∧
      Ticked busy s' items items' called scheduled := by
  refine oneTick_calls_due again (fun h s q hq => ?_) busy_built nofun
  by_cases hzero : h = 0
  · simp [again, hzero] at hq
    simp [hq]
  · simp [again, hzero] at hq

end OneTick
end Threads
end Nachos
