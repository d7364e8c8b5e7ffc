import Nachos.Threads.Idle

/-!
# What the handlers write down

A handler that writes down when it is called and what it asks for finds just the interrupts
that `OneTick` and `Idle` are said to have called and to have scheduled.
-/

namespace Nachos
namespace Threads
namespace OneTick

open Lib

variable {τ σ α : Type}

/-- What a handler writes down when it is called. -/
structure Note (α : Type) where
  handler : α
  now : Nat
  requests : List (Request α)

/-- What the handler scheduled. -/
def Note.scheduled (note : Note α) : List (PendingInterrupt α) :=
  note.requests.map fun q => ⟨q.handler, note.now + q.fromNow, q.type⟩

/-- The handlers write down their calls where `f` finds them. -/
structure Routines.Notes (r : Routines σ α) (f : σ → List (Note α)) : Prop where
  call : ∀ h s, f (r.call h s).1 = f s.state ++ [⟨h, s.stats.totalTicks, (r.call h s).2⟩]
  delayedLoad : ∀ state, f (r.delayedLoad state) = f state

/-- Any handlers, with a note added at each call. -/
def Routines.noting (r : Routines σ α) : Routines (σ × List (Note α)) α where
  delayedLoad := fun state => (r.delayedLoad state.1, state.2)
  call := fun h s =>
    let result := r.call h { s with state := s.state.1 }
    ((result.1, s.state.2 ++ [⟨h, s.stats.totalTicks, result.2⟩]), result.2)

theorem Routines.noting_notes (r : Routines σ α) : r.noting.Notes Prod.snd where
  call := fun _ _ => rfl
  delayedLoad := fun _ => rfl

/-- From `s` to `s'` the handlers wrote down `notes`, and the history says so. -/
structure Noted (f : σ → List (Note α)) (s s' : Simulation σ α) (notes : List (Note α)) :
    Prop where
  written : f s'.state = f s.state ++ notes
  called : s'.history.called.map (fun c => (c.1.handler, c.2)) =
    s.history.called.map (fun c => (c.1.handler, c.2)) ++ notes.map fun n => (n.handler, n.now)
  scheduled : s'.history.scheduled = s.history.scheduled ++ notes.flatMap Note.scheduled

namespace Noted

variable {f : σ → List (Note α)} {r : Routines σ α} {s s' s₁ s₂ s₃ : Simulation σ α}
  {notes notes' : List (Note α)} {p : PendingInterrupt α}

/-- Nothing is called. -/
theorem same (hstate : f s'.state = f s.state) (hcalled : s'.history.called = s.history.called)
    (hscheduled : s'.history.scheduled = s.history.scheduled) : Noted f s s' [] where
  written := by rw [hstate, List.append_nil]
  called := by rw [hcalled, List.map_nil, List.append_nil]
  scheduled := by rw [hscheduled, List.flatMap_nil, List.append_nil]

theorem trans (h : Noted f s₁ s₂ notes) (h' : Noted f s₂ s₃ notes') :
    Noted f s₁ s₃ (notes ++ notes') where
  written := by rw [h'.written, h.written, List.append_assoc]
  called := by rw [h'.called, h.called, List.map_append, List.append_assoc]
  scheduled := by rw [h'.scheduled, h.scheduled, List.flatMap_append, List.append_assoc]

/-- What the calls of `Schedule` of one handler add. -/
theorem schedules {requests : List (Request α)}
    (h : requests.foldlM Simulation.schedule s = some s') :
    s'.state = s.state ∧ s'.history.called = s.history.called ∧
      s'.history.scheduled = s.history.scheduled ++
        requests.map fun q => ⟨q.handler, s.stats.totalTicks + q.fromNow, q.type⟩ := by
  induction requests generalizing s with
  | nil =>
    cases h
    exact ⟨rfl, rfl, (List.append_nil _).symm⟩
  | cons q requests ih =>
    rw [List.foldlM_cons] at h
    obtain ⟨s₁, hs₁, hrest⟩ := Option.bind_eq_some_iff.mp h
    unfold Simulation.schedule at hs₁
    by_cases hq : 0 < q.fromNow
    · rw [if_pos hq] at hs₁
      obtain ⟨pending, -, hs₁⟩ := Option.bind_eq_some_iff.mp hs₁
      cases hs₁
      obtain ⟨hstate, hcalled, hscheduled⟩ := ih hrest
      refine ⟨hstate, hcalled, hscheduled.trans ?_⟩
      exact List.append_assoc ..
    · rw [if_neg hq] at hs₁
      cases hs₁

theorem callHandler (h : r.Notes f) (hs : s.callHandler r p = some s') :
    ∃ notes, Noted f s s' notes := by
  obtain ⟨hstate, hcalled, hscheduled⟩ := schedules hs
  refine ⟨[⟨p.handler, s.stats.totalTicks, (r.call p.handler s).2⟩], ?_, ?_, ?_⟩
  · rw [hstate]
    exact h.call p.handler s
  · rw [hcalled]
    exact List.map_append
  · rw [hscheduled, List.flatMap_cons, List.flatMap_nil, List.append_nil]
    rfl

theorem fire (h : r.Notes f) (hs : s.fire r p = some s') : ∃ notes, Noted f s s' notes := by
  obtain ⟨s₁, hs₁, hend⟩ := Option.bind_eq_some_iff.mp hs
  cases hend
  obtain ⟨notes, hnoted⟩ := callHandler h hs₁
  have hload : f (if s.status = .user then r.delayedLoad s.state else s.state) = f s.state := by
    split
    · exact h.delayedLoad s.state
    · rfl
  refine ⟨notes, ?_, hnoted.called, hnoted.scheduled⟩
  rw [← hload]
  exact hnoted.written

theorem occur {when : Nat} {again : Bool} (h : r.Notes f)
    (hs : s.occur r p when = some (again, s')) : ∃ notes, Noted f s s' notes := by
  unfold Simulation.occur at hs
  split at hs
  · obtain ⟨pending, -, hend⟩ := Option.bind_eq_some_iff.mp hs
    cases hend
    exact ⟨[], same rfl rfl rfl⟩
  · obtain ⟨s₁, hs₁, hend⟩ := Option.bind_eq_some_iff.mp hs
    cases hend
    exact fire h hs₁

theorem checkIfDue {advanceClock again : Bool} (h : r.Notes f)
    (hs : s.checkIfDue r advanceClock = some (again, s')) : ∃ notes, Noted f s s' notes := by
  unfold Simulation.checkIfDue at hs
  split at hs
  case isFalse => cases hs
  obtain ⟨⟨toOccur, pending⟩, -, hs⟩ := Option.bind_eq_some_iff.mp hs
  dsimp only at hs
  split at hs
  · cases hs
    exact ⟨[], same rfl rfl rfl⟩
  · split at hs
    · obtain ⟨notes, hnoted⟩ := occur h hs
      exact ⟨notes, hnoted.written, hnoted.called, hnoted.scheduled⟩
    · split at hs
      · obtain ⟨pending', -, hend⟩ := Option.bind_eq_some_iff.mp hs
        cases hend
        exact ⟨[], same rfl rfl rfl⟩
      · obtain ⟨notes, hnoted⟩ := occur h hs
        exact ⟨notes, hnoted.written, hnoted.called, hnoted.scheduled⟩

theorem checkAll {n : Nat} (h : r.Notes f) (hs : s.checkAll r n = some s') :
    ∃ notes, Noted f s s' notes := by
  induction n generalizing s with
  | zero => cases hs
  | succ n ih =>
    unfold Simulation.checkAll at hs
    obtain ⟨⟨again, s₁⟩, hcheck, hs⟩ := Option.bind_eq_some_iff.mp hs
    obtain ⟨notes, hnoted⟩ := checkIfDue h hcheck
    cases again with
    | false =>
      cases hs
      exact ⟨notes, hnoted⟩
    | true =>
      obtain ⟨notes', hnoted'⟩ := ih hs
      exact ⟨notes ++ notes', hnoted.trans hnoted'⟩

end Noted

/-! ## A tick and a wait, as the handlers see them -/

variable {f : σ → List (Note α)} {r : Routines σ α} {s s' : Simulation σ α}
  {notes : List (Note α)} {items items' called kept scheduled : List (PendingInterrupt α)}

theorem oneTick_noted {n : Nat} (h : r.Notes f) (hs : s.oneTick r n = some s') :
    ∃ notes, Noted f s s' notes := by
  obtain ⟨s₁, hs₁, hend⟩ := Option.bind_eq_some_iff.mp hs
  cases hend
  obtain ⟨notes, hnoted⟩ := Noted.checkAll h hs₁
  exact ⟨notes, hnoted.written, hnoted.called, hnoted.scheduled⟩

/-- `Idle` when the handlers write nothing into the flag that it clears. -/
theorem idle_noted {f : Flagged τ → List (Note α)} {r : Routines (Flagged τ) α}
    {s s' : Simulation (Flagged τ) α} {n : Nat} (h : r.Notes f)
    (hflag : ∀ state b, f { state with yieldOnReturn := b } = f state)
    (hs : s.idle r n = some (.returned s')) : ∃ notes, Noted f s s' notes := by
  obtain ⟨⟨fired, s₁⟩, hcheck, hs⟩ := Option.bind_eq_some_iff.mp hs
  obtain ⟨notes, hnoted⟩ := Noted.checkIfDue h hcheck
  cases fired with
  | false => cases hs
  | true =>
    obtain ⟨s₂, hs₂, hend⟩ := Option.bind_eq_some_iff.mp hs
    cases hend
    obtain ⟨notes', hnoted'⟩ := Noted.checkAll h hs₂
    have hall := hnoted.trans hnoted'
    exact ⟨notes ++ notes', (hflag _ _).trans hall.written, hall.called, hall.scheduled⟩

/-- The interrupts called at one time are those whose handlers wrote that down. -/
theorem Noted.of_calls {now : Nat} (h : Noted f s s' notes)
    (hcalls : s'.history.called = s.history.called ++ called.map fun p => (p, now)) :
    notes.map Note.handler = called.map PendingInterrupt.handler ∧
      ∀ note ∈ notes, note.now = now := by
  have hcalled := h.called
  rw [hcalls, List.map_append, List.map_map] at hcalled
  have heq := List.append_cancel_left hcalled
  constructor
  · have hfirst := congrArg (List.map Prod.fst) heq
    rw [List.map_map, List.map_map] at hfirst
    exact hfirst.symm
  · intro note hnote
    have hmem : (note.handler, note.now) ∈ notes.map fun n => (n.handler, n.now) :=
      List.mem_map_of_mem hnote
    rw [← heq] at hmem
    obtain ⟨p, -, hp⟩ := List.mem_map.mp hmem
    exact (congrArg Prod.snd hp).symm

theorem Noted.of_schedules (h : Noted f s s' notes)
    (hschedules : s'.history.scheduled = s.history.scheduled ++ scheduled) :
    scheduled = notes.flatMap Note.scheduled :=
  List.append_cancel_left (hschedules.symm.trans h.scheduled)

/-- In a tick each interrupt that is due is called once, as its handler writes it down, and
what is scheduled is what the handlers ask for. -/
theorem Ticked.noted (h : Ticked s s' items items' called scheduled)
    (hnoted : Noted f s s' notes) :
    notes.map Note.handler = called.map PendingInterrupt.handler ∧
      (∀ note ∈ notes, note.now = s'.stats.totalTicks) ∧
      scheduled = notes.flatMap Note.scheduled :=
  ⟨(hnoted.of_calls h.calls).1, (hnoted.of_calls h.calls).2, hnoted.of_schedules h.schedules⟩

/-- And the same when `Idle` waits. -/
theorem Waited.noted {f : Flagged τ → List (Note α)} {s s' : Simulation (Flagged τ) α}
    {p : PendingInterrupt α} (h : Waited s s' p items items' called kept scheduled)
    (hnoted : Noted f s s' notes) :
    notes.map Note.handler = (p :: called).map PendingInterrupt.handler ∧
      (∀ note ∈ notes, note.now = s'.stats.totalTicks) ∧
      scheduled = notes.flatMap Note.scheduled :=
  ⟨(hnoted.of_calls h.calls).1, (hnoted.of_calls h.calls).2, hnoted.of_schedules h.schedules⟩

end OneTick
end Threads
end Nachos
