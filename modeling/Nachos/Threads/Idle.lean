import Nachos.Threads.OneTick

/-!
# Idling

`Interrupt::Idle`, which `Thread::Sleep` calls when no thread is ready: the clock goes
to the earliest pending interrupt, or the machine goes down.
-/

namespace Nachos
namespace Threads
namespace OneTick

open Lib

/-- What handlers work on, with the flag that `Idle` clears. -/
structure Flagged (τ : Type) where
  yieldOnReturn : Bool
  rest : τ

/-- How a call of `Idle` ends: `Powerdown` does not return. -/
inductive Idled (τ α : Type)
  | returned (s : Simulation (Flagged τ) α)
  | powerdown (s : Simulation (Flagged τ) α)

variable {τ σ α : Type}

/-- `Interrupt::Idle`, for at most `n` rounds of its loop. -/
def Simulation.idle (r : Routines (Flagged τ) α) (n : Nat) (s : Simulation (Flagged τ) α) :
    Option (Idled τ α) := do
  let (fired, s) ← Simulation.checkIfDue r true { s with status := .idle }
  if fired then do
    let s ← Simulation.checkAll r n s
    return .returned { s with
      state := { s.state with yieldOnReturn := false }
      status := .system }
  else return .powerdown s

/-- Nothing is pending, or only the timer. -/
def NothingElse (items : List (PendingInterrupt α)) : Prop :=
  items = [] ∨ ∃ p, items = [p] ∧ p.type = .timer

/-- The clock when there is nothing to do until `when`. -/
def waitUntil (stats : Statistics) (when : Nat) : Statistics :=
  { stats with
    totalTicks := max stats.totalTicks when
    idleTicks := stats.idleTicks + (max stats.totalTicks when - stats.totalTicks) }

/-- What a call of `Idle` from `s` to `s'` has done to the queue, which held `p`, the
earliest, and `items`, and then `items'`: `called` was called after `p`, and of what
was due `kept` was not. -/
structure Waited (s s' : Simulation (Flagged τ) α) (p : PendingInterrupt α)
    (items items' called kept scheduled : List (PendingInterrupt α)) : Prop where
  stats : s'.stats = waitUntil s.stats p.when
  status : s'.status = .system
  level : s'.level = .off
  yieldOnReturn : s'.state.yieldOnReturn = false
  calls : s'.history.called =
    s.history.called ++ (p :: called).map fun q => (q, s'.stats.totalTicks)
  due : items.filter (·.when ≤ s'.stats.totalTicks) = called ++ kept
  ordered : (p :: called).Pairwise fun q q' => q.when ≤ q'.when
  timer : kept = [] ∨ ∃ t, t.type = .timer ∧ kept = [t] ∧ items' = [t]
  schedules : s'.history.scheduled = s.history.scheduled ++ scheduled
  rest : items'.Perm (kept ++ items.filter (s'.stats.totalTicks < ·.when) ++ scheduled)
  after : InOrder s'.pending items'

variable {r : Routines σ α} {s : Simulation σ α} {p : PendingInterrupt α}
  {items items' : List (PendingInterrupt α)}

/-- To advance the clock is to have waited until the earliest interrupt is due. -/
theorem checkIfDue_advance (hl : s.level = .off) (h : InOrder s.pending (p :: items)) :
    s.checkIfDue r true =
      Simulation.checkIfDue r false { s with stats := waitUntil s.stats p.when } := by
  obtain ⟨removed, hremove, horder⟩ := h.sortedRemove_cons
  have hnot : ¬ max s.stats.totalTicks p.when < p.when := not_lt.mpr (le_max_right _ _)
  unfold Simulation.checkIfDue
  rw [if_pos hl, if_pos hl]
  simp only [hremove, Option.bind_eq_bind, Option.bind_some, Bool.false_eq_true, false_and,
    if_false, true_and]
  by_cases hlater : s.stats.totalTicks < p.when
  · have hmax : max s.stats.totalTicks p.when = p.when := max_eq_right hlater.le
    have hwait : waitUntil s.stats p.when = { s.stats with
        idleTicks := s.stats.idleTicks + (p.when - s.stats.totalTicks)
        totalTicks := p.when } := by
      unfold waitUntil
      rw [hmax]
    rw [hwait]
    show (if s.stats.totalTicks < p.when then _ else _) =
      if p.when < p.when then _ else _
    rw [if_pos hlater, if_neg (lt_irrefl _)]
    rfl
  · have hmax : max s.stats.totalTicks p.when = s.stats.totalTicks :=
      max_eq_left (not_lt.mp hlater)
    have hwait : waitUntil s.stats p.when = s.stats := by
      unfold waitUntil
      rw [hmax, Nat.sub_self, Nat.add_zero]
    rw [hwait]
    show (if s.stats.totalTicks < p.when then _ else
        if s.stats.totalTicks < p.when then _ else _) =
      if s.stats.totalTicks < p.when then _ else _
    rw [if_neg hlater, if_neg hlater]

/-! ## Idle -/

theorem due_or_later (now : Nat) (items : List (PendingInterrupt α)) :
    items.Perm (SortedQueue.due PendingInterrupt.when now items ++
      SortedQueue.later PendingInterrupt.when now items) := by
  have hlater : SortedQueue.later PendingInterrupt.when now items =
      items.filter fun p => !decide (p.when ≤ now) := by
    refine List.filter_congr fun p _ => ?_
    rw [← decide_not]
    exact decide_eq_decide.mpr not_le.symm
  rw [hlater]
  exact (List.filter_append_perm _ items).symm

theorem idle_powerdown (r : Routines (Flagged τ) α) {s : Simulation (Flagged τ) α}
    (hl : s.level = .off) (h : InOrder s.pending items) (hnothing : NothingElse items) :
    ∃ s', ∀ n, s.idle r n = some (.powerdown s') := by
  let s₀ : Simulation (Flagged τ) α := { s with status := .idle }
  have hcheck : ∃ s', s₀.checkIfDue r true = some (false, s') := by
    rcases hnothing with rfl | ⟨p, rfl, htimer⟩
    · refine ⟨s₀.setPending s.pending, ?_⟩
      unfold Simulation.checkIfDue
      rw [if_pos hl, show s₀.pending.sortedRemove = _ from h.sortedRemove_nil]
      rfl
    · have horder : InOrder s₀.pending [p] := h
      obtain ⟨s', hs', _⟩ := Runs.checkIfDue_timer r
        (s := { s₀ with stats := waitUntil s.stats p.when }) hl h rfl htimer (le_max_right _ _)
      exact ⟨s', (checkIfDue_advance (s := s₀) hl horder).trans hs'⟩
  obtain ⟨s', hs'⟩ := hcheck
  refine ⟨s', fun n => ?_⟩
  unfold Simulation.idle
  rw [hs']
  rfl

/-- What `Idle` has done, from what its calls of `CheckIfDue` have done. -/
theorem Runs.waited {s s₁ : Simulation (Flagged τ) α} {called scheduled : List (PendingInterrupt α)}
    (hl : s.level = .off) (h : InOrder s.pending (p :: items))
    (hruns : Runs { s with status := .idle, stats := waitUntil s.stats p.when } s₁ (p :: items)
      items' (p :: called) scheduled)
    (hend : SortedQueue.due PendingInterrupt.when (max s.stats.totalTicks p.when) items' = [] ∨
      ∃ t, t.type = .timer ∧ items' = [t]) :
    Waited s { s₁ with state := { s₁.state with yieldOnReturn := false }, status := .system } p
      items items' called
      (SortedQueue.due PendingInterrupt.when (max s.stats.totalTicks p.when) items') scheduled := by
  have hp : p.when ≤ max s.stats.totalTicks p.when := le_max_right _ _
  have hnow : s₁.stats.totalTicks = max s.stats.totalTicks p.when :=
    congrArg Statistics.totalTicks hruns.stats
  have hdue : SortedQueue.due PendingInterrupt.when (max s.stats.totalTicks p.when) items =
      called ++ SortedQueue.due PendingInterrupt.when (max s.stats.totalTicks p.when) items' := by
    have hcons := hruns.due
    dsimp only [waitUntil] at hcons
    rw [SortedQueue.due_cons hp] at hcons
    exact (List.cons.inj hcons).2
  refine ⟨hruns.stats, rfl, hruns.level.trans hl, rfl, ?_, ?_, ?_, ?_, hruns.scheduled, ?_,
    hruns.inOrder⟩
  · rw [show s₁.history.called = _ from hruns.called]
    dsimp only
    rw [hnow]
    rfl
  · dsimp only
    rw [hnow]
    exact hdue
  · have hall : (SortedQueue.due PendingInterrupt.when (max s.stats.totalTicks p.when)
        (p :: items)).Pairwise fun q q' => q.when ≤ q'.when := h.sorted.filter _
    rw [SortedQueue.due_cons hp, hdue, ← List.cons_append] at hall
    exact (List.pairwise_append.mp hall).1
  · rcases hend with hnone | ⟨t, htimer, rfl⟩
    · exact .inl hnone
    · by_cases ht : t.when ≤ max s.stats.totalTicks p.when
      · exact .inr ⟨t, htimer, SortedQueue.due_cons ht, rfl⟩
      · exact .inl (List.filter_cons_of_neg (by simpa using ht))
  · dsimp only
    rw [hnow, List.append_assoc]
    refine (due_or_later (max s.stats.totalTicks p.when) items').trans (List.Perm.append_left _ ?_)
    have hlater := hruns.later
    dsimp only [waitUntil] at hlater
    rwa [SortedQueue.later_cons hp] at hlater

theorem idle_returned (r : Routines (Flagged τ) α)
    (hpos : ∀ h s, ∀ q ∈ (r.call h s).2, 0 < q.fromNow) {s : Simulation (Flagged τ) α}
    (hl : s.level = .off) (h : InOrder s.pending (p :: items))
    (helse : ¬ NothingElse (p :: items)) :
    ∃ s' items' called kept scheduled,
      (∀ n, items.length < n → s.idle r n = some (.returned s')) ∧
        Waited s s' p items items' called kept scheduled := by
  let s₀ : Simulation (Flagged τ) α := { s with
    status := .idle
    stats := waitUntil s.stats p.when }
  have hdue : p.when ≤ s₀.stats.totalTicks := le_max_right _ _
  have hbusy : ¬ (s₀.status = .idle ∧ p.type = .timer ∧ items = []) := by
    rintro ⟨_, htimer, rfl⟩
    exact helse (.inr ⟨p, rfl, htimer⟩)
  obtain ⟨s₁, items₁, scheduled, hcheck, hfirst⟩ :=
    Runs.checkIfDue_due r hpos (s := s₀) hl h hbusy hdue
  -- what is due does not change, apart from the interrupt that was called
  have hrest : SortedQueue.due PendingInterrupt.when s₀.stats.totalTicks items =
      SortedQueue.due PendingInterrupt.when s₀.stats.totalTicks items₁ := by
    have hcons := hfirst.due
    rw [SortedQueue.due_cons hdue] at hcons
    exact (List.cons.inj hcons).2
  have hlength : (SortedQueue.due PendingInterrupt.when s₁.stats.totalTicks items₁).length <
      items.length + 1 := by
    rw [hfirst.stats, ← hrest]
    exact Nat.lt_succ_of_le (List.length_filter_le _ _)
  obtain ⟨s₂, items₂, called, scheduled', hall, hruns, hend⟩ :=
    Runs.checkAll r hpos (items.length + 1) (hfirst.level.trans hl) hfirst.inOrder hlength
  refine ⟨{ s₂ with state := { s₂.state with yieldOnReturn := false }, status := .system },
    items₂, called, SortedQueue.due PendingInterrupt.when s₀.stats.totalTicks items₂,
    scheduled ++ scheduled', fun n hn => ?_, ?_⟩
  · have hstart : Simulation.checkIfDue r true { s with status := .idle } = some (true, s₁) :=
      (checkIfDue_advance (s := { s with status := .idle }) hl h).trans hcheck
    unfold Simulation.idle
    rw [hstart]
    show ((s₁.checkAll r n).bind _) = _
    rw [checkAll_mono hall (Nat.succ_le_of_lt hn)]
    rfl
  · refine (hfirst.trans hruns).waited hl h ?_
    rw [hfirst.stats] at hend
    exact hend.imp_right fun hidle => hidle.2

/-- `Idle` ends, whatever the handlers do: it powers down just when nothing is pending but the
timer, and else has called the earliest interrupt and what else was due. -/
theorem idle_exact (r : Routines (Flagged τ) α)
    (hpos : ∀ h s, ∀ q ∈ (r.call h s).2, 0 < q.fromNow) {s : Simulation (Flagged τ) α}
    (hl : s.level = .off) (h : InOrder s.pending items) :
    ∃ result, (∀ n, items.length < n → s.idle r n = some result) ∧
      ((∃ s', result = .powerdown s') ↔ NothingElse items) ∧
      ∀ s', result = .returned s' → ∃ p rest items' called kept scheduled,
        items = p :: rest ∧ Waited s s' p rest items' called kept scheduled := by
  by_cases hnothing : NothingElse items
  · obtain ⟨s', hs'⟩ := idle_powerdown r hl h hnothing
    exact ⟨.powerdown s', fun n _ => hs' n, ⟨fun _ => hnothing, fun _ => ⟨s', rfl⟩⟩, nofun⟩
  · cases items with
    | nil => exact absurd (.inl rfl) hnothing
    | cons p rest =>
      obtain ⟨s', items', called, kept, scheduled, hs', hwaited⟩ :=
        idle_returned r hpos hl h hnothing
      refine ⟨.returned s', fun n hn => hs' n ((Nat.lt_succ_self _).trans hn),
        ⟨nofun, fun h => absurd h hnothing⟩, fun s'' heq => ?_⟩
      cases heq
      exact ⟨p, rest, items', called, kept, scheduled, rfl, hwaited⟩

/-- The handlers of the timer and of the disk: the timer asks for a switch and comes again. -/
def timerAndDisk : Routines (Flagged Unit) Nat where
  delayedLoad := id
  call := fun h s =>
    if h = 0 then (⟨true, ()⟩, [⟨0, 100, .timer⟩]) else (s.state, [])

/-- The timer and the disk are due at the same time. -/
def asleep : Option (Simulation (Flagged Unit) Nat) := do
  let s : Simulation (Flagged Unit) Nat :=
    { level := .off
      status := .system
      inHandler := false
      pending := .empty
      stats := ⟨0, 0, 0, 0⟩
      state := ⟨false, ()⟩
      history := ⟨[], [], []⟩ }
  let s ← s.schedule ⟨1, 50, .disk⟩
  s.schedule ⟨0, 50, .timer⟩

theorem asleep_inOrder : ∃ s, asleep = some s ∧ s.level = .off ∧
    InOrder s.pending [⟨1, 50, .disk⟩, ⟨0, 50, .timer⟩] := by
  obtain ⟨l, hl, hone⟩ := InOrder.empty.sortedInsert (⟨1, 50, .disk⟩ : PendingInterrupt Nat)
  obtain ⟨l', hl', htwo⟩ := hone.sortedInsert ⟨0, 50, .timer⟩
  cases hl
  cases hl'
  exact ⟨_, rfl, rfl, htwo⟩

theorem idle_exact_asleep : ∃ s items, asleep = some s ∧
    items = [⟨1, 50, .disk⟩, ⟨0, 50, .timer⟩] ∧
    ∃ result, (∀ n, items.length < n → s.idle timerAndDisk n = some result) ∧
      ((∃ s', result = .powerdown s') ↔ NothingElse items) ∧
      ∀ s', result = .returned s' → ∃ p rest items' called kept scheduled,
        items = p :: rest ∧ Waited s s' p rest items' called kept scheduled := by
  obtain ⟨s, hs, hl, horder⟩ := asleep_inOrder
  refine ⟨s, _, hs, rfl, idle_exact timerAndDisk (fun h s q hq => ?_) hl horder⟩
  by_cases hzero : h = 0
  · simp [timerAndDisk, hzero] at hq
    simp [hq]
  · simp [timerAndDisk, hzero] at hq

end OneTick
end Threads
end Nachos
