import Nachos.Threads.Semaphores

/-!
# The calls of semaphores

The units that a semaphore is said to have got and given are those of the calls: each `V`, of
kernel code or of a handler, adds one, each return from the loop of `P` takes one, and nothing
else does either.
-/

namespace Nachos
namespace Threads

open Lib

namespace Kernel

/-- The units that semaphores got and gave, in order. -/
def units (k : Kernel) : List (Dispatcher.Event ThreadId SemId) :=
  k.history.sched.filter fun
    | .up _ | .down _ => true
    | _ => false

variable {k k' : Kernel} {s : SemId}

theorem ups_eq (k : Kernel) (s : SemId) :
    Dispatcher.ups k.history.sched s = k.units.countP (· = .up s) := by
  rw [Dispatcher.ups, units, List.countP_filter]
  refine List.countP_congr fun e _ => ?_
  cases e <;> simp

theorem downs_eq (k : Kernel) (s : SemId) :
    Dispatcher.downs k.history.sched s = k.units.countP (· = .down s) := by
  rw [Dispatcher.downs, units, List.countP_filter]
  refine List.countP_congr fun e _ => ?_
  cases e <;> simp

theorem units_of_sched (h : k'.history.sched = k.history.sched) : k'.units = k.units := by
  rw [units, units, h]

/-- The event is about threads only. -/
theorem units_add {e : Dispatcher.Event ThreadId SemId}
    (h : k'.history.sched = k.history.sched ++ [e]) (hup : ∀ s, e ≠ .up s)
    (hdown : ∀ s, e ≠ .down s) : k'.units = k.units := by
  rw [units, units, h, List.filter_append]
  cases e with
  | up s => exact absurd rfl (hup s)
  | down s => exact absurd rfl (hdown s)
  | readied | switched | finished | deleted => exact List.append_nil _

theorem units_up (k : Kernel) (s : SemId) : (k.up s).units = k.units ++ [.up s] := by
  cases hq : (k.sems s).queue with
  | nil =>
    rw [up_nil hq]
    exact List.filter_append ..
  | cons t queue =>
    have hready : (k.readyToRun t).units = k.units := units_add rfl nofun nofun
    rw [up_cons hq, ← hready]
    exact List.filter_append ..

/-- `V` adds one unit. -/
theorem units_v (k : Kernel) (s : SemId) : (k.v s).units = k.units ++ [.up s] :=
  units_up (k.changeLevel .off) s

theorem units_setLevel (k : Kernel) (level : IntStatus) : (k.setLevel level).units = k.units := by
  refine units_of_sched ?_
  unfold setLevel
  dsimp only
  split <;> rfl

theorem units_destroy (k : Kernel) : k.destroy.units = k.units := by
  unfold destroy
  split
  · rfl
  · exact units_add rfl nofun nofun

theorem units_run (k : Kernel) (n : ThreadId) : (k.run n).units = k.units :=
  units_add rfl nofun nofun

theorem units_yield (k : Kernel) : k.yield.units = k.units := by
  cases hnext : k.findNextToRun with
  | none =>
    rw [yield_none hnext]
    rfl
  | some next =>
    rw [yield_some hnext, units_run]
    exact units_add rfl nofun nofun

theorem units_powerdown (k : Kernel) : k.powerdown.units = k.units := units_setLevel _ .on

/-- The test in the loop of `P` takes one unit, or puts the thread to sleep. -/
theorem units_pTest (k : Kernel) (s : SemId) :
    (k.pTest s).units = k.units ++ if (k.sems s).value = 0 then [] else [.down s] := by
  by_cases hv : (k.sems s).value = 0
  · rw [pTest_zero hv, if_pos hv]
    exact (List.append_nil _).symm
  · rw [pTest_nonzero hv, if_neg hv]
    exact List.filter_append ..

end Kernel

/-- The semaphores that a handler signals. -/
def Effect.signalled : Effect → List (Dispatcher.Event ThreadId SemId)
  | .signal s => [.up s]
  | _ => []

section Calls

variable {k k' : Kernel}

theorem units_applyEffects (k : Kernel) (effects : List Effect) :
    (effects.foldl Kernel.applyEffect k).units = k.units ++ effects.flatMap Effect.signalled := by
  induction effects generalizing k with
  | nil => exact (List.append_nil _).symm
  | cons e effects ih =>
    have happly : (k.applyEffect e).units = k.units ++ e.signalled := by
      cases e with
      | schedule handler fromNow => exact (List.append_nil _).symm
      | timeSlice =>
        refine (Kernel.units_of_sched ?_).trans (List.append_nil _).symm
        show (Kernel.timeSlice k).history.sched = _
        unfold Kernel.timeSlice
        split <;> rfl
      | signal s => exact Kernel.units_up (k.changeLevel .off) s
    rw [List.foldl_cons, ih, happly, List.flatMap_cons, List.append_assoc]

/-- The calls of `V` and the returns from the loop of `P` in a step. -/
inductive UnitCalls (k k' : Kernel) : List (Dispatcher.Event ThreadId SemId) → Prop
  | v (s : SemId) (hstack : k.stack = [.code]) (hcall : k' = k.v s) : UnitCalls k k' [.up s]
  | p (s : SemId) (hstack : k.stack = [.code]) (hcall : k' = k.p s)
      (hvalue : (k.sems s).value ≠ 0) : UnitCalls k k' [.down s]
  | pLoop {s : SemId} {rest : List Frame} (hstack : k.stack = .pLoop s :: rest)
      (hvalue : (k.sems s).value ≠ 0) : UnitCalls k k' [.down s]
  | handler {k₀ k₁ : Kernel} {advanceClock : Bool} {toOccur : PendingInterrupt}
      {effects : List Effect} (hbefore : k₀ = k ∨ k₀ = k.setStatus .idle)
      (hdue : k₀.checkIfDue advanceClock = (some toOccur, k₁))
      (hdo : toOccur.handler.Does effects) : UnitCalls k k' (effects.flatMap Effect.signalled)
  | none : UnitCalls k k' []

theorem Fires.units {advanceClock : Bool} (h : Fires k advanceClock k') :
    ∃ toOccur k₁ effects, k.checkIfDue advanceClock = (some toOccur, k₁) ∧
      toOccur.handler.Does effects ∧
      k'.units = k.units ++ effects.flatMap Effect.signalled := by
  cases h with
  | @fire toOccur k₁ machine effects hdue hm hdo =>
    refine ⟨toOccur, k₁, effects, hdue, hdo, ?_⟩
    have hunits : (k.checkIfDue advanceClock).2.units = k.units := rfl
    rw [hdue] at hunits
    exact (units_applyEffects _ effects).trans (congrArg (· ++ _) hunits)

theorem CodeStep.units (h : CodeStep k k') (hs : k.stack = [.code]) :
    ∃ made, UnitCalls k k' made ∧ k'.units = k.units ++ made := by
  have hnone : k'.units = k.units → ∃ made, UnitCalls k k' made ∧ k'.units = k.units ++ made :=
    fun h => ⟨[], .none, h.trans (List.append_nil _).symm⟩
  cases h with
  | newThread junk => exact hnone rfl
  | newAddrSpace table program hnew hin => exact hnone rfl
  | setSpace t space ht => exact hnone rfl
  | start t halive hstatus =>
    rw [Kernel.start_eq] at hnone ⊢
    exact hnone (Kernel.units_add rfl nofun nofun)
  | yield => exact hnone (Kernel.units_yield k)
  | p s =>
    have htest := Kernel.units_pTest (Kernel.push { k.changeLevel .off with
      failed := k.failed ++ check (0 ≤ (k.sems s).value) .pValue }
      [.setLevel k.interrupt.level, .ret .p k.interrupt.level k.interrupt.status]) s
    by_cases hv : (k.sems s).value = 0
    · refine hnone (htest.trans ?_)
      rw [if_pos (by exact hv)]
      exact List.append_nil _
    · refine ⟨_, .p s hs rfl hv, htest.trans ?_⟩
      rw [if_neg (by exact hv)]
      rfl
  | v s => exact ⟨_, .v s hs rfl, k.units_v s⟩
  | setLevel level => exact hnone (k.units_setLevel level)
  | schedule handler fromNow => exact hnone rfl
  | finish => exact hnone (Kernel.units_add rfl nofun nofun)
  | powerdown => exact hnone k.units_powerdown
  | enterUser space hspace hlevel => exact hnone rfl

/-- **Calls.**  A semaphore gets a unit from each call of `V` and gives one at each return from
the loop of `P`, and no other step changes what it got and gave. -/
theorem FrameStep.units (h : FrameStep k k') :
    ∃ made, UnitCalls k k' made ∧ k'.units = k.units ++ made := by
  have hnone : k'.units = k.units → ∃ made, UnitCalls k k' made ∧ k'.units = k.units ++ made :=
    fun h => ⟨[], .none, h.trans (List.append_nil _).symm⟩
  have hfires : ∀ {k₁ k₂ : Kernel} {advanceClock : Bool}, k₁ = k ∨ k₁ = k.setStatus .idle →
      Fires k₁ advanceClock k₂ → k'.units = k₂.units →
      ∃ made, UnitCalls k k' made ∧ k'.units = k.units ++ made := by
    intro k₁ k₂ advanceClock hbefore hfire hafter
    obtain ⟨toOccur, k₀, effects, hdue, hdo, hunits⟩ := hfire.units
    have hsame : k₁.units = k.units := by
      rcases hbefore with rfl | rfl <;> rfl
    exact ⟨_, .handler hbefore hdue hdo, hafter.trans (hunits.trans (congrArg (· ++ _) hsame))⟩
  have hdue : ∀ {k₁ k₂ : Kernel} {advanceClock : Bool},
      k₁.checkIfDue advanceClock = (none, k₂) → k₂.units = k₁.units := by
    intro k₁ k₂ advanceClock hnone
    have hunits : (k₁.checkIfDue advanceClock).2.units = k₁.units := rfl
    rwa [hnone] at hunits
  cases h with
  | code hs hcode => exact hcode.units hs
  | userCode hs huser =>
    cases huser with
    | executed hrun => exact hnone rfl
    | halt hrun hcall => exact hnone (Kernel.units_powerdown _)
    | trap hrun hno => exact hnone rfl
  | ret hs => exact hnone rfl
  | setLevel hs => exact hnone (Kernel.units_setLevel _ _)
  | tickFire hs hfire => exact hfires (.inl rfl) hfire rfl
  | @tickDone old rest k₁ hs hcheck =>
    refine hnone (Eq.trans ?_ (hdue hcheck))
    by_cases hy : k₁.interrupt.yieldOnReturn = true
    · rw [Kernel.tickDone_yield hy, Kernel.units_yield]
      rfl
    · rw [Kernel.tickDone_return hy]
      rfl
  | tickStatus hs => exact hnone rfl
  | afterRun hs => exact hnone (Kernel.units_destroy k)
  | setup hs => exact hnone ((Kernel.units_setLevel _ .on).trans (Kernel.units_destroy k))
  | @pLoop s rest hs =>
    have htest := (k.setStack rest).units_pTest s
    by_cases hv : (k.sems s).value = 0
    · refine hnone (htest.trans ?_)
      rw [if_pos (by exact hv)]
      exact List.append_nil _
    · refine ⟨_, .pLoop hs hv, htest.trans ?_⟩
      rw [if_neg (by exact hv)]
      rfl
  | sleepRun hs hnext => exact hnone (Kernel.units_run _ _)
  | sleepFire hs hnext hfire => exact hfires (.inr rfl) hfire rfl
  | @sleepDone rest k₁ hs hnext hcheck =>
    have hidle : (k.setStatus .idle).units = k.units := rfl
    exact hnone ((Kernel.units_powerdown k₁).trans ((hdue hcheck).trans hidle))
  | idleFire hs hfire => exact hfires (.inl rfl) hfire rfl
  | @idleDone rest k₁ hs hcheck =>
    have hdone : (k₁.idleDone rest).units = k₁.units := rfl
    exact hnone (hdone.trans (hdue hcheck))

/-- The value of a semaphore, from its calls. -/
theorem value_of_units {start : SemId → Int} (h : (system start).Reachable k) (s : SemId) :
    (k.sems s).value =
      start s + k.units.countP (· = .up s) - k.units.countP (· = .down s) := by
  rw [← Kernel.ups_eq, ← Kernel.downs_eq]
  exact (inv_of_reachable h).sound.counted.value s

end Calls

end Threads
end Nachos
