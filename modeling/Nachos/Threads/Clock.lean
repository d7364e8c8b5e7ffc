import Nachos.Threads.Control

/-!
# The simulated clock

`OneTick` charges a tick to the user program unless the machine is in system mode.
Interrupts are enabled in system mode everywhere but in one place: `Idle`, when it
finds nothing to wait for, shuts the machine down in idle mode, and `Cleanup`
enables interrupts.
-/

namespace Nachos
namespace Threads

open Lib Machine

/-! ## Clock readings -/

/-- Time passes from `s` to `s'`, and `user` ticks of it are charged to user
programs. -/
structure Passes (user : Nat) (s s' : Statistics) : Prop where
  total : s'.totalTicks + (s.idleTicks + s.systemTicks + s.userTicks) =
    s.totalTicks + (s'.idleTicks + s'.systemTicks + s'.userTicks)
  forward : s.totalTicks ≤ s'.totalTicks
  user : s'.userTicks = s.userTicks + user

namespace Passes

variable {m n : Nat} {s s₁ s₂ s₃ : Statistics}

theorem refl (s : Statistics) : Passes 0 s s := ⟨rfl, le_rfl, rfl⟩

theorem trans (h : Passes m s₁ s₂) (h' : Passes n s₂ s₃) : Passes (m + n) s₁ s₃ := by
  obtain ⟨htotal, hforward, huser⟩ := h
  obtain ⟨htotal', hforward', huser'⟩ := h'
  exact ⟨by omega, by omega, by omega⟩

theorem tick (s : Statistics) (status : MachineStatus) :
    Passes (if status = .system then 0 else 1) s (s.tick status) := by
  unfold Statistics.tick
  by_cases h : status = .system
  · rw [if_pos h, if_pos h]
    exact ⟨by dsimp only; omega, Nat.le_add_right _ _, rfl⟩
  · rw [if_neg h, if_neg h]
    exact ⟨by dsimp only; omega, Nat.le_add_right _ _, rfl⟩

theorem checkIfDue (i : Interrupt) (s : Statistics) (advanceClock : Bool) :
    Passes 0 s (i.checkIfDue s advanceClock).stats := by
  have hidle : ∀ toOccur : PendingInterrupt, Passes 0 s
      (if s.totalTicks < toOccur.when then
        { s with
          idleTicks := s.idleTicks + (toOccur.when - s.totalTicks)
          totalTicks := toOccur.when }
      else s) := by
    intro toOccur
    by_cases hlater : s.totalTicks < toOccur.when
    · rw [if_pos hlater]
      exact ⟨by dsimp only; omega, hlater.le, rfl⟩
    · rw [if_neg hlater]
      exact refl s
  unfold Interrupt.checkIfDue
  cases i.pending with
  | nil => exact refl s
  | cons toOccur rest =>
    dsimp only
    split
    · exact refl s
    · split
      · exact hidle toOccur
      · exact hidle toOccur

end Passes

/-! ## Where interrupts are enabled -/

/-- `SetLevel` is called at the end of a routine that was called in system mode. -/
def SystemLevels (fs : List Frame) : Prop :=
  ∀ level rest, .setLevel level :: rest <:+ fs →
    ∃ call level' rest', rest = .ret call level' .system :: rest'

namespace SystemLevels

variable {f : Frame} {fs rest : List Frame}

theorem nil : SystemLevels [] := fun _ _ h => nomatch List.suffix_nil.mp h

theorem tail (h : SystemLevels (f :: rest)) : SystemLevels rest :=
  fun level fs hfs => h level fs (hfs.trans (List.suffix_cons f rest))

theorem cons (h : SystemLevels rest) (hf : ∀ level, f ≠ .setLevel level) :
    SystemLevels (f :: rest) := by
  intro level fs hfs
  rcases List.suffix_cons_iff.mp hfs with heq | hfs
  · cases heq
    exact absurd rfl (hf level)
  · exact h level fs hfs

/-- The frames of a routine that turned interrupts off. -/
theorem call (h : SystemLevels rest) {level level' : IntStatus} {call : Call}
    {status : MachineStatus} (hm : status = .system) :
    SystemLevels (.setLevel level :: .ret call level' status :: rest) := by
  intro l fs hfs
  rcases List.suffix_cons_iff.mp hfs with heq | hfs
  · cases heq
    exact ⟨call, level', rest, by rw [hm]⟩
  · exact h.cons (by nofun) l fs hfs

end SystemLevels

/-! ## What a step charges -/

/-- A step that charges `user` ticks to user programs. -/
structure Charges (user : Nat) (k k' : Kernel) : Prop where
  levels : ∀ t, SystemLevels (k.threads t).stack → SystemLevels (k'.threads t).stack
  stats : Passes user k.stats k'.stats

namespace Charges

variable {m n : Nat} {k k₁ k₂ k₃ k' : Kernel}

theorem trans (h : Charges m k₁ k₂) (h' : Charges n k₂ k₃) : Charges (m + n) k₁ k₃ :=
  ⟨fun t ht => h'.levels t (h.levels t ht), h.stats.trans h'.stats⟩

theorem ofThreads (hstack : ∀ t, (k'.threads t).stack = (k.threads t).stack)
    (hstats : k'.stats = k.stats) : Charges 0 k k' := by
  refine ⟨fun t ht => ?_, ?_⟩
  · rw [hstack]
    exact ht
  · rw [hstats]
    exact .refl _

theorem setStack (fs : List Frame) (hfs : SystemLevels k.stack → SystemLevels fs) :
    Charges 0 k (k.setStack fs) := by
  refine ⟨fun t ht => ?_, .refl _⟩
  show SystemLevels (Function.update k.threads k.currentThread _ t).stack
  by_cases htc : t = k.currentThread
  · subst htc
    rw [Function.update_self]
    exact hfs ht
  · rw [Function.update_of_ne htc]
    exact ht

theorem pop {f : Frame} {rest : List Frame} (hs : k.stack = f :: rest) :
    Charges 0 k (k.setStack rest) :=
  setStack rest fun h => (hs ▸ h).tail

/-- A handler charges nothing. -/
theorem up (s : SemId) : Charges 0 k (k.up s) := by
  refine ofThreads (SameControl.up s).stack ?_
  cases hq : (k.sems s).queue with
  | nil => rw [Kernel.up_nil hq]
  | cons t queue => rw [Kernel.up_cons hq]; rfl

theorem applyEffect (e : Effect) : Charges 0 k (k.applyEffect e) := by
  cases e with
  | schedule handler fromNow => exact ofThreads (fun _ => rfl) rfl
  | timeSlice =>
    show Charges 0 k (ite _ _ _)
    split <;> exact ofThreads (fun _ => rfl) rfl
  | signal s =>
    have hup := up (k := k.changeLevel .off) s
    exact ⟨hup.levels, hup.stats⟩

theorem applyEffects (effects : List Effect) :
    Charges 0 k (effects.foldl Kernel.applyEffect k) := by
  induction effects generalizing k with
  | nil => exact ofThreads (fun _ => rfl) rfl
  | cons e effects ih => exact (applyEffect e).trans ih

theorem checkIfDue (k : Kernel) (advanceClock : Bool) :
    Charges 0 k (k.checkIfDue advanceClock).2 :=
  ⟨fun _ h => h, .checkIfDue k.interrupt k.stats advanceClock⟩

theorem fires {advanceClock : Bool} (h : Fires k advanceClock k') : Charges 0 k k' := by
  obtain ⟨hdue, _, _⟩ := h
  rename_i toOccur k₁ machine effects _ _
  have hcheck := checkIfDue k advanceClock
  rw [hdue] at hcheck
  have heffects := applyEffects (k := { k₁ with
    machine := machine
    interrupt := { k₁.interrupt with inHandler := true, status := .system } }) effects
  exact ⟨fun t ht => heffects.levels t (hcheck.levels t ht), hcheck.stats.trans heffects.stats⟩

theorem oneTick (k : Kernel) :
    Charges (if k.interrupt.status = .system then 0 else 1) k k.oneTick := by
  have hpush := setStack (k := k) (.tickLoop k.interrupt.status ::
    .ret .oneTick k.interrupt.level k.interrupt.status :: k.stack) fun h =>
      (h.cons (by nofun)).cons (by nofun)
  exact ⟨hpush.levels, .tick k.stats k.interrupt.status⟩

theorem oneTick_system (hm : k.interrupt.status = .system) : Charges 0 k k.oneTick := by
  have htick := oneTick k
  rwa [if_pos hm] at htick

theorem oneTick_charged (hm : k.interrupt.status ≠ .system) : Charges 1 k k.oneTick := by
  have htick := oneTick k
  rwa [if_neg hm] at htick

theorem setLevel (hm : k.interrupt.status = .system) (now : IntStatus) :
    Charges 0 k (k.setLevel now) := by
  unfold Kernel.setLevel
  by_cases hon : now = .on ∧ k.interrupt.level = .off
  · rw [if_pos hon]
    have htick := oneTick_system (k := Kernel.changeLevel { k with
      failed := k.failed ++ check (now = IntStatus.off ∨ k.interrupt.inHandler = false)
        .setLevelInHandler } now) hm
    exact ⟨htick.levels, htick.stats⟩
  · rw [if_neg hon]
    exact ofThreads (fun _ => rfl) rfl

theorem callSleep (k : Kernel) : Charges 0 k k.callSleep := by
  have hpush := setStack (k := k) (.sleep ::
    .ret .sleep k.interrupt.level k.interrupt.status :: k.stack) fun h =>
      (h.cons (by nofun)).cons (by nofun)
  refine ⟨fun t ht => ?_, .refl _⟩
  have hstack := hpush.levels t ht
  revert hstack
  show SystemLevels (Function.update k.threads k.currentThread _ t).stack →
    SystemLevels (Function.update k.threads k.currentThread _ t).stack
  by_cases htc : t = k.currentThread
  · rw [htc, Function.update_self, Function.update_self]
    exact id
  · rw [Function.update_of_ne htc, Function.update_of_ne htc]
    exact id

theorem pTest (s : SemId) : Charges 0 k (k.pTest s) := by
  by_cases hv : (k.sems s).value = 0
  · rw [Kernel.pTest_zero hv]
    have hpush : Charges 0 k (Kernel.push { k with
        sems := Function.update k.sems s
          { k.sems s with queue := (k.sems s).queue ++ [k.currentThread] } } [.pLoop s]) := by
      have hstack := setStack (k := k) (.pLoop s :: k.stack) fun h => h.cons (by nofun)
      exact ⟨hstack.levels, hstack.stats⟩
    exact hpush.trans (callSleep _)
  · rw [Kernel.pTest_nonzero hv]
    exact ofThreads (fun _ => rfl) rfl

theorem p (hm : k.interrupt.status = .system) (s : SemId) : Charges 0 k (k.p s) := by
  have hpush := setStack (k := k) (.setLevel k.interrupt.level ::
    .ret .p k.interrupt.level k.interrupt.status :: k.stack) fun h => h.call hm
  have hcall : Charges 0 k (Kernel.push { k.changeLevel .off with
      failed := k.failed ++ check (0 ≤ (k.sems s).value) .pValue }
      [.setLevel k.interrupt.level, .ret .p k.interrupt.level k.interrupt.status]) :=
    ⟨hpush.levels, hpush.stats⟩
  exact hcall.trans (pTest s)

theorem v (hm : k.interrupt.status = .system) (s : SemId) : Charges 0 k (k.v s) := by
  have hup := up (k := k.changeLevel .off) s
  have hoff : Charges 0 k ((k.changeLevel .off).up s) := ⟨hup.levels, hup.stats⟩
  exact hoff.trans (setStack _ fun h => h.call hm)

theorem finish (k : Kernel) : Charges 0 k k.finish := by
  have hstack := setStack (k := k) [.finished] fun _ =>
    SystemLevels.nil.cons (by nofun)
  have hfinished : Charges 0 k { (k.changeLevel .off).setStack [.finished] with
      threadToBeDestroyed := some k.currentThread
      failed := k.failed ++ check (k.threadToBeDestroyed = none) .finishDestroyed
      history := k.history.add (.finished k.currentThread) } := ⟨hstack.levels, hstack.stats⟩
  exact hfinished.trans (callSleep _)

theorem run (k : Kernel) (n : ThreadId) : Charges 0 k (k.run n) :=
  ofThreads (fun t => k.runThreads_stack n t) rfl

theorem yield (hm : k.interrupt.status = .system) : Charges 0 k k.yield := by
  cases hnext : k.findNextToRun with
  | none =>
    rw [Kernel.yield_none hnext]
    have hpush := setStack (k := k) (.setLevel k.interrupt.level ::
      .ret .yield k.interrupt.level k.interrupt.status :: k.stack) fun h => h.call hm
    exact ⟨hpush.levels, hpush.stats⟩
  | some next =>
    rw [Kernel.yield_some hnext]
    have hpush := setStack (k := k) (.afterRun :: .setLevel k.interrupt.level ::
      .ret .yield k.interrupt.level k.interrupt.status :: k.stack) fun h =>
        (h.call hm).cons (by nofun)
    have hleave : Charges 0 k (Kernel.push { k.changeLevel .off with readyList := next.2 }
        [.afterRun, .setLevel k.interrupt.level,
          .ret .yield k.interrupt.level k.interrupt.status]) := ⟨hpush.levels, hpush.stats⟩
    exact (hleave.trans (ofThreads (SameControl.readyToRun k.currentThread).stack rfl)).trans
      (run _ next.1)

theorem newThread (junk : Registers) : Charges 0 k (k.newThread junk) := by
  refine ⟨fun t ht => ?_, .refl _⟩
  show SystemLevels (Function.update k.threads k.nextThread _ t).stack
  by_cases htn : t = k.nextThread
  · rw [htn, Function.update_self]
    exact .nil
  · rw [Function.update_of_ne htn]
    exact ht

theorem start (hm : k.interrupt.status = .system) (t : ThreadId) : Charges 0 k (k.start t) := by
  have hnew : Charges 0 k { k.changeLevel .off with
      threads := Function.update k.threads t
        { k.threads t with status := .ready, stack := [.setup, .code] }
      readyList := k.readyList ++ [t]
      history := k.history.add (.readied t) } := by
    refine ⟨fun u hu => ?_, .refl _⟩
    show SystemLevels (Function.update k.threads t _ u).stack
    by_cases hut : u = t
    · rw [hut, Function.update_self]
      exact (SystemLevels.nil.cons (by nofun)).cons (by nofun)
    · rw [Function.update_of_ne hut]
      exact hu
  rw [Kernel.start_eq]
  exact hnew.trans (setStack _ fun h => h.call hm)

theorem stop (k : Kernel) : Charges 0 k (Kernel.push { k with halted := true } [.exit]) := by
  have hstack := setStack (k := k) (.exit :: k.stack) fun h => h.cons (by nofun)
  exact ⟨hstack.levels, hstack.stats⟩

theorem powerdown (hm : k.interrupt.status = .system) : Charges 0 k k.powerdown :=
  (stop k).trans (setLevel (k := Kernel.push { k with halted := true } [.exit]) hm .on)

/-- `Cleanup` enables interrupts in whatever mode it is called. -/
theorem powerdown_charged (hl : k.interrupt.level = .off) (hm : k.interrupt.status ≠ .system) :
    Charges 1 k k.powerdown := by
  have hon : k.powerdown = Kernel.oneTick (Kernel.changeLevel
      { Kernel.push { k with halted := true } [.exit] with
        failed := k.failed ++ check (IntStatus.on = .off ∨ k.interrupt.inHandler = false)
          .setLevelInHandler } .on) := if_pos ⟨rfl, hl⟩
  have htick := oneTick_charged (k := Kernel.changeLevel
    { Kernel.push { k with halted := true } [.exit] with
      failed := k.failed ++ check (IntStatus.on = .off ∨ k.interrupt.inHandler = false)
        .setLevelInHandler } .on) hm
  rw [hon]
  exact (stop k).trans ⟨htick.levels, htick.stats⟩

theorem enterUser (space : AddrSpace) : Charges 0 k (k.enterUser space) := by
  have hstack := setStack (k := k) [.userCode] fun _ => SystemLevels.nil.cons (by nofun)
  exact ⟨hstack.levels, hstack.stats⟩

/-- The part that the two ends of `SWITCH` share. -/
theorem switched (k : Kernel) : Charges 0 k k.destroy.restore := by
  refine ofThreads ((SameControl.destroy k).trans (.restore _)).stack ?_
  show k.destroy.stats = k.stats
  unfold Kernel.destroy
  cases k.threadToBeDestroyed with
  | none => rfl
  | some t => rfl

theorem tickDone {old : MachineStatus} {rest : List Frame} (hs : k.stack = .tickLoop old :: rest) :
    Charges 0 k (k.tickDone old rest) := by
  by_cases hy : k.interrupt.yieldOnReturn = true
  · rw [Kernel.tickDone_yield hy]
    have hstack := setStack (k := k) (.tickStatus old :: rest) fun h =>
      (hs ▸ h).tail.cons (by nofun)
    have hstatus : Charges 0 k (Kernel.setStack { k.changeLevel .on with
        interrupt := { (k.changeLevel .on).interrupt with
          yieldOnReturn := false, status := .system } } (.tickStatus old :: rest)) :=
      ⟨hstack.levels, hstack.stats⟩
    exact hstatus.trans (yield rfl)
  · rw [Kernel.tickDone_return hy]
    have hpop := pop hs
    exact ⟨hpop.levels, hpop.stats⟩

end Charges

/-! ## Every step -/

/-- `Machine::Run` executes an instruction and calls `OneTick`. -/
def Executing (k : Kernel) : Prop :=
  k.stack = [.userCode] ∧ ∃ machine, oneInstruction k.machine = .ok () machine

/-- No thread is ready, and `Idle` finds nothing to wait for. -/
def Stuck (k : Kernel) : Prop :=
  (∃ rest, k.stack = .sleep :: rest) ∧ k.findNextToRun = none ∧
    ((k.setStatus .idle).checkIfDue true).1 = none

variable {k k' : Kernel}

theorem CodeStep.charges (h : CodeStep k k') (hm : k.interrupt.status = .system) :
    Charges 0 k k' := by
  cases h with
  | newThread junk => exact .newThread junk
  | newAddrSpace table program => exact .ofThreads (fun _ => rfl) rfl
  | setSpace t space => exact .ofThreads (SameControl.setSpace t space).stack rfl
  | start t halive hstatus => exact .start hm t
  | yield => exact .yield hm
  | p s => exact .p hm s
  | v s => exact .v hm s
  | setLevel level => exact .setLevel hm level
  | schedule handler fromNow => exact .ofThreads (fun _ => rfl) rfl
  | finish => exact .finish k
  | powerdown => exact .powerdown hm
  | enterUser space hspace hlevel => exact .enterUser space

theorem UserStep.charges (h : UserStep k k') (hno : ∀ m, oneInstruction k.machine ≠ .ok () m) :
    Charges 0 k k' := by
  cases h with
  | executed hrun => exact absurd hrun (hno _)
  | @halt machine hrun hcall =>
    have hdown := Charges.powerdown (k := { k.setStatus .system with machine := machine }) rfl
    exact ⟨hdown.levels, hdown.stats⟩
  | trap hrun hno => exact .ofThreads (fun _ => rfl) rfl

theorem FrameStep.charges_executing (h : FrameStep k k') (hk : Controlled k)
    (hnone : k.failed = []) (hx : Executing k) : Charges 1 k k' := by
  obtain ⟨hs, machine, hrun⟩ := hx
  have hc := hk.current hnone
  rw [hs] at hc
  have huser : k.interrupt.status ≠ .system := by
    rw [hc.2.1]
    nofun
  cases h with
  | userCode hs' hstep =>
    cases hstep with
    | @executed machine hrun =>
      have htick := Charges.oneTick_charged (k := { k with
        machine := machine
        history := { k.history with
          lastUser := Function.update k.history.lastUser k.currentThread
            (some machine.registers) } }) huser
      exact ⟨htick.levels, htick.stats⟩
    | halt hrun' hcall => rw [hrun] at hrun'; cases hrun'
    | trap hrun' hno => rw [hrun] at hrun'; cases hrun'
  | _ => simp_all

/-- `Idle` leaves the machine in idle mode when it shuts it down. -/
theorem FrameStep.charges_stuck (h : FrameStep k k') (hk : Controlled k)
    (hnone : k.failed = []) (hstuck : Stuck k) : Charges 1 k k' := by
  obtain ⟨⟨rest, hs⟩, hidle, hdue⟩ := hstuck
  have hc := hk.current hnone
  rw [hs] at hc
  cases h with
  | @sleepDone rest k₁ hs' hnext hdone =>
    have hsame := SameControl.checkIfDue (k := k.setStatus .idle) hc.1 true
    have hcheck := Charges.checkIfDue (k.setStatus .idle) true
    rw [hdone] at hsame hcheck
    have hdown : Charges 1 k₁ k₁.powerdown := by
      refine .powerdown_charged (hsame.level.trans hc.1) ?_
      rw [hsame.status]
      nofun
    have hboth := hcheck.trans hdown
    exact ⟨hboth.levels, hboth.stats⟩
  | sleepFire hs' hnext hfire =>
    obtain ⟨hfire, _, _⟩ := hfire
    rw [hfire] at hdue
    cases hdue
  | _ => simp_all

/-- Everything else that is charged is charged to the system, or is idle time. -/
theorem FrameStep.charges_none (h : FrameStep k k') (hk : Controlled k) (hnone : k.failed = [])
    (hl : SystemLevels k.stack) (hx : ¬ Executing k) (hstuck : ¬ Stuck k) : Charges 0 k k' := by
  have hc := hk.current hnone
  cases h with
  | code hs hcode =>
    rw [hs] at hc
    exact hcode.charges hc.1
  | userCode hs huser => exact huser.charges fun m hm => hx ⟨hs, m, hm⟩
  | ret hs =>
    have hpop := Charges.pop hs
    exact ⟨hpop.levels, hpop.stats⟩
  | @setLevel level rest hs =>
    rw [hs] at hc hl
    obtain ⟨call, level', rest, rfl⟩ := hl level rest List.suffix_rfl
    exact (Charges.pop hs).trans (.setLevel (k := k.setStack _) hc.2.1 level)
  | tickFire hs hfire => exact .fires hfire
  | @tickDone old rest k₁ hs hdue =>
    rw [hs] at hc
    have hsame := SameControl.checkIfDue hc.1 false
    have hcheck := Charges.checkIfDue k false
    rw [hdue] at hsame hcheck
    exact hcheck.trans (.tickDone (hsame.frames.trans hs))
  | tickStatus hs =>
    have hpop := Charges.pop hs
    exact ⟨hpop.levels, hpop.stats⟩
  | afterRun hs =>
    have hsame := (SameControl.destroy k).trans (.restore _)
    exact (Charges.switched k).trans (.pop (hsame.frames.trans hs))
  | @setup rest hs =>
    rw [hs] at hc
    have hsame := (SameControl.destroy k).trans (.restore _)
    exact ((Charges.switched k).trans (.pop (hsame.frames.trans hs))).trans
      (.setLevel (k := k.destroy.restore.setStack rest) (hsame.status.trans hc.2.1) .on)
  | @pLoop s rest hs => exact (Charges.pop hs).trans (.pTest s)
  | @sleepRun n rest ready hs hnext =>
    have hstack := Charges.setStack (k := k) (.afterRun :: rest) fun h =>
      (hs ▸ h).tail.cons (by nofun)
    have hready : Charges 0 k ({ k with readyList := ready }.setStack (.afterRun :: rest)) :=
      ⟨hstack.levels, hstack.stats⟩
    exact hready.trans (.run _ n)
  | @sleepFire rest k₁ hs hnext hfire =>
    have hboth := (Charges.fires hfire).trans
      (.setStack (k := k₁) (.idleLoop :: k₁.stack) fun h => h.cons (by nofun))
    exact ⟨hboth.levels, hboth.stats⟩
  | sleepDone hs hnext hdue =>
    refine absurd ⟨⟨_, hs⟩, hnext, ?_⟩ hstuck
    rw [hdue]
  | idleFire hs hfire => exact .fires hfire
  | @idleDone rest k₁ hs hdue =>
    rw [hs] at hc
    have hsame := SameControl.checkIfDue hc.1 false
    have hcheck := Charges.checkIfDue k false
    rw [hdue] at hsame hcheck
    have hboth := hcheck.trans (.pop (hsame.frames.trans hs))
    exact ⟨hboth.levels, hboth.stats⟩

theorem FrameStep.charges (h : FrameStep k k') (hk : Controlled k) (hnone : k.failed = [])
    (hl : SystemLevels k.stack) : ∃ user, Charges user k k' := by
  by_cases hx : Executing k
  · exact ⟨1, h.charges_executing hk hnone hx⟩
  · by_cases hstuck : Stuck k
    · exact ⟨1, h.charges_stuck hk hnone hstuck⟩
    · exact ⟨0, h.charges_none hk hnone hl hx hstuck⟩

/-! ## Every run -/

/-- A run from a clock at zero, in which user programs executed `instructions`
instructions, and `Idle` shut the machine down `shutdowns` times. -/
inductive Counted (start : SemId → Int) : Nat → Nat → Kernel → Prop
  | initial {k : Kernel} (h : Initial start k) (hzero : k.stats = ⟨0, 0, 0, 0⟩) :
      Counted start 0 0 k
  | executes {instructions shutdowns : Nat} {k k' : Kernel}
      (h : Counted start instructions shutdowns k) (hx : Executing k) (hstep : Step k k') :
      Counted start (instructions + 1) shutdowns k'
  | stuck {instructions shutdowns : Nat} {k k' : Kernel}
      (h : Counted start instructions shutdowns k) (hstuck : Stuck k) (hstep : Step k k') :
      Counted start instructions (shutdowns + 1) k'
  | other {instructions shutdowns : Nat} {k k' : Kernel}
      (h : Counted start instructions shutdowns k) (hx : ¬ Executing k) (hstuck : ¬ Stuck k)
      (hstep : Step k k') : Counted start instructions shutdowns k'

/-- The clock is the sum of the three counters, no step turns it back, and only
the instructions executed are charged as user time. -/
structure Accounted (instructions : Nat) (k : Kernel) : Prop where
  total : k.stats.totalTicks = k.stats.idleTicks + k.stats.systemTicks + k.stats.userTicks
  forward : ∀ k', Step k k' → k.stats.totalTicks ≤ k'.stats.totalTicks
  user : k.stats.userTicks = instructions

namespace Counted

variable {start : SemId → Int} {instructions shutdowns : Nat}

/-- A step of a frame that is neither user code nor the loop of `Sleep`. -/
theorem frame (h : Counted start instructions shutdowns k) {f : Frame} {rest : List Frame}
    (hs : k.stack = f :: rest) (huser : f ≠ .userCode) (hsleep : f ≠ .sleep)
    (hstep : Step k k') : Counted start instructions shutdowns k' := by
  refine h.other (fun hx => ?_) (fun hstuck => ?_) hstep
  · have hfs := hx.1
    rw [hs] at hfs
    exact huser (List.cons.inj hfs).1
  · obtain ⟨⟨fs, hfs⟩, _, _⟩ := hstuck
    rw [hs] at hfs
    exact hsleep (List.cons.inj hfs).1

theorem reachable (h : Counted start instructions shutdowns k) : (system start).Reachable k := by
  induction h with
  | initial h hzero => exact .of_init h
  | executes h hx hstep ih => exact ih.step hstep
  | stuck h hstuck hstep ih => exact ih.step hstep
  | other h hx hstuck hstep ih => exact ih.step hstep

/-- Every run from a clock at zero is counted. -/
theorem of_run (h : Initial start k) (hzero : k.stats = ⟨0, 0, 0, 0⟩)
    (hrun : Relation.ReflTransGen Step k k') :
    ∃ instructions shutdowns, Counted start instructions shutdowns k' := by
  induction hrun with
  | refl => exact ⟨0, 0, .initial h hzero⟩
  | @tail k₁ k₂ hrun hstep ih =>
    obtain ⟨instructions, shutdowns, hcounted⟩ := ih
    by_cases hx : Executing k₁
    · exact ⟨_, _, hcounted.executes hx hstep⟩
    · by_cases hstuck : Stuck k₁
      · exact ⟨_, _, hcounted.stuck hstuck hstep⟩
      · exact ⟨_, _, hcounted.other hx hstuck hstep⟩

/-- The clock and the frames of a run. -/
structure Clock (user : Nat) (k : Kernel) : Prop where
  levels : ∀ t, SystemLevels (k.threads t).stack
  total : k.stats.totalTicks = k.stats.idleTicks + k.stats.systemTicks + k.stats.userTicks
  user : k.stats.userTicks = user

theorem Clock.charges {user user' : Nat} (h : Clock user k) (hstep : Charges user' k k') :
    Clock (user + user') k' := by
  obtain ⟨hlevels, htotal, huser⟩ := h
  obtain ⟨htotal', hforward', huser'⟩ := hstep.stats
  exact ⟨fun t => hstep.levels t (hlevels t), by omega, by omega⟩

theorem clock (h : Counted start instructions shutdowns k) :
    Clock (instructions + shutdowns) k := by
  induction h with
  | @initial k h hzero =>
    refine ⟨fun t => ?_, ?_, ?_⟩
    · by_cases ht : t = k.currentThread
      · rw [ht, show (k.threads k.currentThread).stack = [.code] from h.mainStack]
        exact SystemLevels.nil.cons (by nofun)
      · rw [h.others t ht]
        exact .nil
    · rw [hzero]
      rfl
    · rw [hzero]
  | @executes instructions shutdowns k k' h hx hstep ih =>
    have hclock := ih.charges
      (hstep.2.charges_executing (controlled_of_reachable h.reachable) hstep.1 hx)
    rwa [Nat.add_right_comm] at hclock
  | stuck h hstuck hstep ih =>
    exact ih.charges (hstep.2.charges_stuck (controlled_of_reachable h.reachable) hstep.1 hstuck)
  | @other instructions shutdowns k k' h hx hstuck hstep ih =>
    exact ih.charges (hstep.2.charges_none (controlled_of_reachable h.reachable) hstep.1
      (ih.levels k.currentThread) hx hstuck)

end Counted

/-- The clock is right in every run in which `Idle` has not shut the machine
down, and in no other: the tick that `Cleanup` takes then is charged as user
time. -/
theorem clock_accounted {start : SemId → Int} {instructions shutdowns : Nat}
    (h : Counted start instructions shutdowns k) : Accounted instructions k ↔ shutdowns = 0 := by
  have hclock := h.clock
  constructor
  · intro haccounted
    have huser := hclock.user
    rw [haccounted.user] at huser
    omega
  · rintro rfl
    refine ⟨hclock.total, fun k' hstep => ?_, hclock.user⟩
    obtain ⟨user, hcharges⟩ := hstep.2.charges (controlled_of_reachable h.reachable) hstep.1
      (hclock.levels k.currentThread)
    exact hcharges.stats.forward

/-- `main` with interrupts enabled, after the tick for that. -/
def enabled : Kernel :=
  let k := (boot fun _ => 0).setLevel .on
  (k.checkIfDue false).2.tickDone .system [.ret .oneTick .on .system, .code]

/-- `main` has finished, and no other thread was started. -/
def finishedMain : Kernel := ((enabled.setStack [.code]).returned .oneTick .on .system).finish

theorem finishedMain_counted : Counted (fun _ => 0) 0 0 finishedMain := by
  have hboot : Counted (fun _ => 0) 0 0 (boot fun _ => 0) :=
    .initial (boot_initial fun _ => le_rfl) rfl
  have hlevel := hboot.frame rfl nofun nofun ⟨rfl, .code rfl (.setLevel .on)⟩
  have htick := hlevel.frame rfl nofun nofun ⟨rfl, .tickDone rfl rfl⟩
  have hret := htick.frame rfl nofun nofun ⟨rfl, .ret rfl⟩
  exact hret.frame rfl nofun nofun ⟨rfl, .code rfl .finish⟩

theorem finishedMain_stuck : Stuck finishedMain := ⟨⟨_, rfl⟩, rfl, rfl⟩

/-- `main` has executed no instruction when its end shuts the machine down, and
one user tick is charged. -/
theorem clock_charges_shutdown :
    ∃ k, Counted (fun _ => 0) 0 1 k ∧ k.stats.userTicks = 1 ∧ ¬ Accounted 0 k := by
  have hdown := finishedMain_counted.stuck finishedMain_stuck ⟨rfl, .sleepDone rfl rfl rfl⟩
  exact ⟨_, hdown, rfl, fun h => nomatch h.user⟩

/-- Before that the clock is right. -/
theorem clock_accounted_finished : Accounted 0 finishedMain ↔ 0 = 0 :=
  clock_accounted finishedMain_counted

end Threads
end Nachos
