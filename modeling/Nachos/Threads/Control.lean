import Nachos.Threads.Step

/-!
# The control state across context switches

The interrupt level, the machine status and `inHandler` are global, and the
routines keep the values to go back to on the stacks of many threads.  What ties
them together is a property of one stack, `Restores`: executed from a given
level and status on, its frames bring back the level and status that each call
below was made with.  The stack of a thread that is not running restores from
interrupts off and system mode, which is what `SWITCH` leaves behind.
-/

namespace Nachos
namespace Threads

open Lib Machine

/-- Executed from `level` and `status` on, the frames give back to every call the
level and status it was made with.  Nothing below `exit` is ever reached. -/
def Restores (level : IntStatus) (status : MachineStatus) : List Frame → Prop
  | [] => True
  | .exit :: _ => True
  | .finished :: _ => True
  | .code :: rest => status = .system ∧ rest = []
  | .userCode :: rest => level = .on ∧ status = .user ∧ rest = []
  | .ret _ level' status' :: rest => level = level' ∧ status = status' ∧ Restores level status rest
  | .setLevel level' :: rest => Restores level' status rest
  | .tickLoop old :: rest => level = .off ∧ status = old ∧ Restores .on old rest
  | .tickStatus old :: rest => Restores level old rest
  | .setup :: rest => level = .off ∧ status = .system ∧ Restores .on .system rest
  | .idleLoop :: rest => level = .off ∧ status = .idle ∧ Restores .off .system rest
  | .afterRun :: rest => level = .off ∧ status = .system ∧ Restores .off .system rest
  | .pLoop _ :: rest => level = .off ∧ status = .system ∧ Restores .off .system rest
  | .sleep :: rest => level = .off ∧ status = .system ∧ Restores .off .system rest

/-- A switch finds interrupts off in system mode outside of handlers, and a call
returns with the level and status it was made with. -/
def ControlEvent.Kept : ControlEvent → Prop
  | .switch level status inHandler => level = .off ∧ status = .system ∧ inHandler = false
  | .ret _ level level' status status' => level' = level ∧ status' = status

/-- The assertions on the control state. -/
def Assertion.Control : Assertion → Prop
  | .setLevelInHandler | .checkIfDueLevel | .runLevel | .sleepLevel | .yieldOnReturnInHandler =>
    True
  | _ => False

theorem mem_check {c : Prop} [Decidable c] {a b : Assertion} : b ∈ check c a ↔ ¬ c ∧ b = a := by
  unfold check
  by_cases hc : c
  · rw [if_pos hc]
    simp [hc]
  · rw [if_neg hc]
    simp [hc]

/-! ## Steps that leave the control state alone -/

structure SameControl (k k' : Kernel) : Prop where
  level : k'.interrupt.level = k.interrupt.level
  status : k'.interrupt.status = k.interrupt.status
  inHandler : k'.interrupt.inHandler = k.interrupt.inHandler
  currentThread : k'.currentThread = k.currentThread
  stack : ∀ t, (k'.threads t).stack = (k.threads t).stack
  created : ∀ t, (k'.threads t).status = .justCreated → (k.threads t).status = .justCreated
  control : ∀ e ∈ k'.history.control, e ∈ k.history.control ∨ e.Kept
  failed : ∃ failed, k'.failed = k.failed ++ failed ∧ ∀ a ∈ failed, ¬ a.Control

namespace SameControl

variable {k k₁ k₂ k₃ : Kernel}

theorem refl (k : Kernel) : SameControl k k :=
  ⟨rfl, rfl, rfl, rfl, fun _ => rfl, fun _ h => h, fun _ => .inl, [], k.failed.append_nil.symm,
    nofun⟩

theorem trans (h : SameControl k₁ k₂) (h' : SameControl k₂ k₃) : SameControl k₁ k₃ := by
  refine ⟨h'.level.trans h.level, h'.status.trans h.status, h'.inHandler.trans h.inHandler,
    h'.currentThread.trans h.currentThread, fun t => (h'.stack t).trans (h.stack t),
    fun t ht => h.created t (h'.created t ht), fun e he => ?_, ?_⟩
  · rcases h'.control e he with he | he
    · exact h.control e he
    · exact .inr he
  · obtain ⟨failed, hfailed, hno⟩ := h.failed
    obtain ⟨failed', hfailed', hno'⟩ := h'.failed
    refine ⟨failed ++ failed', ?_, fun a ha => ?_⟩
    · rw [hfailed', hfailed, List.append_assoc]
    · exact (List.mem_append.mp ha).elim (hno a) (hno' a)

theorem frames (h : SameControl k k₁) : k₁.stack = k.stack := by
  unfold Kernel.stack
  rw [h.stack, h.currentThread]

/-- A failed assertion that is not about the control state, or one that holds. -/
theorem check {c : Prop} [Decidable c] {a : Assertion} (h : c ∨ ¬ a.Control) :
    SameControl k { k with failed := k.failed ++ check c a } := by
  refine { refl k with failed := ⟨_, rfl, fun b hb => ?_⟩ }
  obtain ⟨hc, rfl⟩ := mem_check.mp hb
  exact h.resolve_left hc

theorem readyToRun (t : ThreadId) : SameControl k (k.readyToRun t) := by
  refine { refl k with stack := fun u => ?_, created := fun u hu => ?_ }
  · by_cases hut : u = t
    · simp [Kernel.readyToRun, hut]
    · simp [Kernel.readyToRun, hut]
  · by_cases hut : u = t
    · simp [Kernel.readyToRun, hut] at hu
    · simpa [Kernel.readyToRun, hut] using hu

theorem up (s : SemId) : SameControl k (k.up s) := by
  have hcheck : SameControl k
      { k with failed := k.failed ++ Threads.check (0 ≤ (k.sems s).value) .vValue } :=
    check (.inr not_false)
  cases hq : (k.sems s).queue with
  | nil =>
    rw [Kernel.up_nil hq]
    exact { hcheck with }
  | cons t queue =>
    rw [Kernel.up_cons hq]
    exact { hcheck.trans (readyToRun t) with }

theorem checkIfDue (hl : k.interrupt.level = .off) (advanceClock : Bool) :
    SameControl k (k.checkIfDue advanceClock).2 :=
  { check (k := k) (c := k.interrupt.level = .off) (.inl hl) with }

/-- A handler does nothing to the control state, since it runs with interrupts
off. -/
theorem applyEffect (hl : k.interrupt.level = .off) (hh : k.interrupt.inHandler = true)
    (e : Effect) : SameControl k (k.applyEffect e) := by
  cases e with
  | schedule handler fromNow =>
    exact { check (k := k) (c := 0 < fromNow) (a := .scheduleFromNow) (.inr not_false) with }
  | timeSlice =>
    show SameControl k (ite _ _ _)
    split
    · exact refl k
    · exact { check (k := k) (c := k.interrupt.inHandler = true) (.inl hh) with }
  | signal s =>
    have hoff := up (k := k.changeLevel .off) s
    have hup : SameControl k ((k.changeLevel .off).up s) :=
      { hoff with level := hoff.level.trans hl.symm }
    have hcheck := check (k := (k.changeLevel .off).up s)
      (c := k.interrupt.level = IntStatus.off ∨
        ((k.changeLevel .off).up s).interrupt.inHandler = false) (a := .setLevelInHandler)
      (.inl (.inl hl))
    have hboth := hup.trans hcheck
    refine { hboth with level := rfl, control := fun e he => ?_ }
    rcases List.mem_append.mp he with he | he
    · exact hboth.control e he
    · rw [List.mem_singleton.mp he]
      exact .inr ⟨rfl, hup.status⟩

theorem applyEffects (effects : List Effect) (hl : k.interrupt.level = .off)
    (hh : k.interrupt.inHandler = true) : SameControl k (effects.foldl Kernel.applyEffect k) := by
  induction effects generalizing k with
  | nil => exact refl k
  | cons e effects ih =>
    have he := applyEffect hl hh e
    exact he.trans (ih (he.level.trans hl) (he.inHandler.trans hh))

theorem fire (hl : k.interrupt.level = .off) (hh : k.interrupt.inHandler = false)
    (machine : Machine) (effects : List Effect) : SameControl k (k.fire machine effects) := by
  have heffects := applyEffects (k := { k with
    machine := machine
    interrupt := { k.interrupt with inHandler := true, status := .system } }) effects hl rfl
  exact { heffects with status := rfl, inHandler := hh.symm }

theorem fires {advanceClock : Bool} {k' : Kernel} (h : Fires k advanceClock k')
    (hl : k.interrupt.level = .off) (hh : k.interrupt.inHandler = false) : SameControl k k' := by
  obtain ⟨hdue, hm, hdo⟩ := h
  have hcheck := checkIfDue hl advanceClock
  rw [hdue] at hcheck
  exact hcheck.trans (fire (hcheck.level.trans hl) (hcheck.inHandler.trans hh) _ _)

theorem destroy (k : Kernel) : SameControl k k.destroy := by
  unfold Kernel.destroy
  cases k.threadToBeDestroyed with
  | none => exact refl k
  | some t =>
    have hcheck := check (k := k) (c := t ≠ k.currentThread) (a := .deleteCurrent)
      (.inr not_false)
    exact { hcheck.trans (check (c := t ∈ k.threadList) (a := .threadListRemove)
      (.inr not_false)) with }

theorem restore (k : Kernel) : SameControl k k.restore := { refl k with }

theorem setSpace (t : ThreadId) (space : AddrSpace) : SameControl k (k.setSpace t space) := by
  refine { refl k with stack := fun u => ?_, created := fun u hu => ?_ }
  · by_cases hut : u = t
    · simp [Kernel.setSpace, hut]
    · simp [Kernel.setSpace, hut]
  · by_cases hut : u = t
    · simpa [Kernel.setSpace, hut] using hu
    · simpa [Kernel.setSpace, hut] using hu

end SameControl

/-! ## The invariant -/

/-- What holds whatever the current thread has still to do. -/
structure Settled (k : Kernel) : Prop where
  inHandler : k.interrupt.inHandler = false
  others : ∀ t, t ≠ k.currentThread → Restores .off .system (k.threads t).stack
  created : ∀ t, (k.threads t).status = .justCreated → (k.threads t).stack = []
  control : ∀ e ∈ k.history.control, e.Kept
  failed : ∀ a ∈ k.failed, ¬ a.Control

/-- Between two frames, unless an assertion has ended the program. -/
structure Controlled (k : Kernel) : Prop extends Settled k where
  current : k.failed = [] → Restores k.interrupt.level k.interrupt.status k.stack

/-- While a frame is executed. -/
structure Held (k : Kernel) : Prop extends Settled k where
  started : (k.threads k.currentThread).status ≠ .justCreated

theorem Controlled.held {k : Kernel} (h : Controlled k) (hs : k.stack ≠ []) : Held k :=
  ⟨h.toSettled, fun hstatus => hs (h.created _ hstatus)⟩

theorem Settled.same {k k' : Kernel} (h : Settled k) (hsame : SameControl k k') : Settled k' := by
  refine ⟨hsame.inHandler.trans h.inHandler, fun t ht => ?_, fun t ht => ?_, fun e he => ?_,
    fun a ha => ?_⟩
  · rw [hsame.stack t]
    exact h.others t (hsame.currentThread ▸ ht)
  · rw [hsame.stack t]
    exact h.created t (hsame.created t ht)
  · exact (hsame.control e he).elim (h.control e) id
  · obtain ⟨failed, hfailed, hno⟩ := hsame.failed
    rw [hfailed] at ha
    exact (List.mem_append.mp ha).elim (h.failed a) (hno a)

theorem Controlled.same {k k' : Kernel} (h : Controlled k) (hsame : SameControl k k') :
    Controlled k' := by
  refine ⟨h.toSettled.same hsame, fun hnone => ?_⟩
  obtain ⟨failed, hfailed, _⟩ := hsame.failed
  rw [hfailed] at hnone
  rw [hsame.level, hsame.status, hsame.frames]
  exact h.current (List.append_eq_nil_iff.mp hnone).1

namespace Held

variable {k k' : Kernel}

theorem same (h : Held k) (hsame : SameControl k k') : Held k' := by
  refine ⟨h.toSettled.same hsame, fun hstatus => h.started ?_⟩
  rw [hsame.currentThread] at hstatus
  exact hsame.created _ hstatus

theorem changeLevel (h : Held k) (now : IntStatus) : Held (k.changeLevel now) := { h with }

theorem setStatus (h : Held k) (status : MachineStatus) : Held (k.setStatus status) := { h with }

/-- A thread is given a stack, and a status that is not that of a new thread. -/
theorem update (h : Held k) {t : ThreadId} (th : Thread) (hth : th.status ≠ .justCreated)
    (hc : t ≠ k.currentThread → Restores .off .system th.stack) :
    Held { k with threads := Function.update k.threads t th } := by
  refine ⟨{ h.toSettled with others := fun u hu => ?_, created := fun u => ?_ }, ?_⟩
  · show Restores _ _ (Function.update k.threads t th u).stack
    by_cases hut : u = t
    · rw [hut, Function.update_self]
      exact hc (hut ▸ hu)
    · rw [Function.update_of_ne hut]
      exact h.others u hu
  · show (Function.update k.threads t th u).status = _ →
      (Function.update k.threads t th u).stack = []
    by_cases hut : u = t
    · rw [hut, Function.update_self]
      intro hu
      exact absurd hu hth
    · rw [Function.update_of_ne hut]
      exact h.created u
  · show (Function.update k.threads t th k.currentThread).status ≠ _
    by_cases htc : k.currentThread = t
    · rw [htc, Function.update_self]
      exact hth
    · rw [Function.update_of_ne htc]
      exact h.started

theorem setStack (h : Held k) (fs : List Frame) : Held (k.setStack fs) :=
  h.update _ h.started (absurd rfl)

theorem push (h : Held k) (fs : List Frame) : Held (k.push fs) := h.setStack _

theorem returned (h : Held k) {call : Call} {level : IntStatus} {status : MachineStatus}
    (hl : k.interrupt.level = level) (hm : k.interrupt.status = status) :
    Held (k.returned call level status) := by
  refine { h with control := fun e he => ?_ }
  rcases List.mem_append.mp he with he | he
  · exact h.control e he
  · rw [List.mem_singleton.mp he]
    exact ⟨hl, hm⟩

theorem controlled (h : Held k) (hc : Restores k.interrupt.level k.interrupt.status k.stack) :
    Controlled k :=
  ⟨h.toSettled, fun _ => hc⟩

end Held

namespace Held

variable {k k' : Kernel}

/-! ### The routines -/

theorem oneTick (h : Held k) (hl : k.interrupt.level = .on)
    (hc : Restores .on k.interrupt.status k.stack) : Controlled k.oneTick := by
  have hpush : Held { k with stats := k.stats.tick k.interrupt.status } := { h with }
  refine ((hpush.push _).changeLevel .off).controlled ?_
  show Restores .off k.interrupt.status (Kernel.stack _)
  rw [Kernel.changeLevel_stack, Kernel.push_stack]
  exact ⟨rfl, rfl, hl.symm, rfl, hc⟩

theorem setLevel (h : Held k) {now : IntStatus} (hc : Restores now k.interrupt.status k.stack) :
    Controlled (k.setLevel now) := by
  have hcheck : Held { k with
      failed := k.failed ++ check (now = IntStatus.off ∨ k.interrupt.inHandler = false)
        .setLevelInHandler } :=
    h.same (.check (.inl (.inr h.inHandler)))
  have hlevel := hcheck.changeLevel now
  unfold Kernel.setLevel
  by_cases hon : now = .on ∧ k.interrupt.level = .off
  · rw [if_pos hon]
    exact hlevel.oneTick hon.1 (hon.1 ▸ hc)
  · rw [if_neg hon]
    exact hlevel.controlled hc

/-- `SWITCH` finds interrupts off and the system mode, and leaves them so. -/
theorem run (h : Held k) (hl : k.interrupt.level = .off) (hm : k.interrupt.status = .system)
    (hc : Restores .off .system k.stack) (n : ThreadId) : Controlled (k.run n) := by
  have hall : ∀ t, Restores .off .system (k.threads t).stack := by
    intro t
    by_cases htc : t = k.currentThread
    · rw [htc]
      exact hc
    · exact h.others t htc
  refine ⟨⟨h.inHandler, fun t _ => ?_, fun t ht => ?_, fun e he => ?_, fun a ha => ?_⟩, ?_⟩
  · show Restores _ _ (k.runThreads n t).stack
    rw [Kernel.runThreads_stack]
    exact hall t
  · have hstatus : (k.runThreads n t).status = .justCreated := ht
    rw [Kernel.runThreads_status] at hstatus
    show (k.runThreads n t).stack = []
    rw [Kernel.runThreads_stack]
    split at hstatus
    · cases hstatus
    · exact h.created t hstatus
  · rcases List.mem_append.mp he with he | he
    · exact h.control e he
    · rw [List.mem_singleton.mp he]
      exact ⟨hl, hm, h.inHandler⟩
  · rcases List.mem_append.mp ha with ha | ha
    · exact h.failed a ha
    · exact absurd hl (mem_check.mp ha).1
  · intro _
    show Restores k.interrupt.level k.interrupt.status (k.runThreads n n).stack
    rw [hl, hm, Kernel.runThreads_stack]
    exact hall n

theorem yield (h : Held k) (hm : k.interrupt.status = .system)
    (hc : Restores k.interrupt.level k.interrupt.status k.stack) : Controlled k.yield := by
  have hoff := h.changeLevel .off
  have hback : Restores .off .system
      (.setLevel k.interrupt.level :: .ret .yield k.interrupt.level k.interrupt.status :: k.stack) :=
    ⟨rfl, hm.symm, hm ▸ hc⟩
  cases hnext : k.findNextToRun with
  | none =>
    rw [Kernel.yield_none hnext]
    refine (hoff.push _).controlled ?_
    rw [Kernel.push_stack]
    exact hm.symm ▸ hback
  | some next =>
    rw [Kernel.yield_some hnext]
    have hready : Held { k.changeLevel .off with readyList := next.2 } := { hoff with }
    refine ((hready.push _).same (.readyToRun _)).run rfl hm ?_ next.1
    rw [(SameControl.readyToRun _).frames, Kernel.push_stack]
    exact ⟨rfl, rfl, hback⟩

theorem callSleep (h : Held k) (hl : k.interrupt.level = .off) (hm : k.interrupt.status = .system)
    (hc : Restores .off .system k.stack) : Controlled k.callSleep := by
  have hupdate := h.update
    { k.threads k.currentThread with
      status := .blocked
      stack := .sleep :: .ret .sleep k.interrupt.level k.interrupt.status :: k.stack }
    nofun (absurd rfl)
  have hcheck := hupdate.same (.check (c := k.interrupt.level = .off) (a := .sleepLevel) (.inl hl))
  have hcall : Held k.callSleep := hcheck
  refine hcall.controlled ?_
  rw [Kernel.callSleep_stack]
  refine ⟨hl, hm, hl.symm, hm.symm, hc⟩

theorem pTest (h : Held k) (hl : k.interrupt.level = .off) (hm : k.interrupt.status = .system)
    (hc : Restores .off .system k.stack) (s : SemId) : Controlled (k.pTest s) := by
  by_cases hv : (k.sems s).value = 0
  · rw [Kernel.pTest_zero hv]
    have hqueue : Held { k with
      sems := Function.update k.sems s
        { k.sems s with queue := (k.sems s).queue ++ [k.currentThread] } } := { h with }
    refine (hqueue.push _).callSleep hl hm ?_
    rw [Kernel.push_stack]
    exact ⟨rfl, rfl, hc⟩
  · rw [Kernel.pTest_nonzero hv]
    have hheld : Held { k with
      sems := Function.update k.sems s { k.sems s with value := (k.sems s).value - 1 }
      history := k.history.add (.down s) } := { h with }
    refine hheld.controlled ?_
    show Restores k.interrupt.level k.interrupt.status k.stack
    rw [hl, hm]
    exact hc

theorem p (h : Held k) (hm : k.interrupt.status = .system)
    (hc : Restores k.interrupt.level k.interrupt.status k.stack) (s : SemId) :
    Controlled (k.p s) := by
  have hcheck := (h.changeLevel .off).same
    (.check (c := 0 ≤ (k.sems s).value) (a := .pValue) (.inr not_false))
  refine (hcheck.push _).pTest rfl hm ?_ s
  rw [Kernel.push_stack]
  exact ⟨rfl, hm.symm, hm ▸ hc⟩

theorem v (h : Held k)
    (hc : Restores k.interrupt.level k.interrupt.status k.stack) (s : SemId) :
    Controlled (k.v s) := by
  have hup := SameControl.up (k := k.changeLevel .off) s
  refine (((h.changeLevel .off).same hup).push _).controlled ?_
  rw [Kernel.push_stack, hup.frames]
  show Restores k.interrupt.level ((k.changeLevel .off).up s).interrupt.status
    (.ret .v k.interrupt.level k.interrupt.status :: k.stack)
  rw [hup.status]
  exact ⟨rfl, rfl, hc⟩

theorem start (h : Held k) (hc : Restores k.interrupt.level k.interrupt.status k.stack)
    {t : ThreadId} (ht : (k.threads t).status = .justCreated) : Controlled (k.start t) := by
  have hne : k.currentThread ≠ t := fun heq => h.started (heq ▸ ht)
  rw [Kernel.start_eq]
  have hupdate := (h.changeLevel .off).update (t := t)
    { k.threads t with status := .ready, stack := [.setup, .code] } nofun
    fun _ => ⟨rfl, rfl, rfl, rfl⟩
  have hready : Held { k.changeLevel .off with
      threads := Function.update k.threads t
        { k.threads t with status := .ready, stack := [.setup, .code] }
      readyList := k.readyList ++ [t]
      history := k.history.add (.readied t) } := { hupdate with }
  refine (hready.push _).controlled ?_
  rw [Kernel.push_stack]
  show Restores k.interrupt.level k.interrupt.status
    (.ret .start _ _ :: (Function.update k.threads t _ k.currentThread).stack)
  rw [Function.update_of_ne hne]
  exact ⟨rfl, rfl, hc⟩

theorem powerdown (h : Held k) : Controlled k.powerdown := by
  have hhalted : Held { k with halted := true } := { h with }
  refine (hhalted.push [.exit]).setLevel ?_
  rw [Kernel.push_stack]
  exact trivial

theorem finish (h : Held k) (hm : k.interrupt.status = .system) : Controlled k.finish := by
  have hstack := (h.changeLevel .off).setStack [.finished]
  have hcheck := hstack.same
    (.check (c := k.threadToBeDestroyed = none) (a := .finishDestroyed) (.inr not_false))
  have hfinished : Held { (k.changeLevel .off).setStack [.finished] with
      threadToBeDestroyed := some k.currentThread
      failed := k.failed ++ check (k.threadToBeDestroyed = none) .finishDestroyed
      history := k.history.add (.finished k.currentThread) } := { hcheck with }
  refine hfinished.callSleep rfl hm ?_
  show Restores _ _ ((k.changeLevel .off).setStack [.finished]).stack
  rw [Kernel.setStack_stack]
  exact trivial

theorem tickDone (h : Held k) {old : MachineStatus} {rest : List Frame}
    (hm : k.interrupt.status = old) (hc : Restores .on old rest) :
    Controlled (k.tickDone old rest) := by
  have hon := h.changeLevel .on
  by_cases hy : k.interrupt.yieldOnReturn = true
  · rw [Kernel.tickDone_yield hy]
    have hyield : Held { k.changeLevel .on with
        interrupt := { (k.changeLevel .on).interrupt with
          yieldOnReturn := false, status := .system } } := { hon with }
    refine (hyield.setStack _).yield rfl ?_
    rw [Kernel.setStack_stack]
    exact hc
  · rw [Kernel.tickDone_return hy]
    refine (hon.setStack _).controlled ?_
    rw [Kernel.setStack_stack]
    exact hm.symm ▸ hc

end Held

/-! ## Every step -/

variable {k k' : Kernel}

theorem Controlled.newThread (h : Controlled k) (junk : Registers) :
    Controlled (k.newThread junk) := by
  have hstack : ∀ t, ((k.newThread junk).threads t).stack = [] ∨
      (k.newThread junk).threads t = k.threads t := by
    intro t
    by_cases ht : t = k.nextThread
    · exact .inl (by simp [Kernel.newThread, ht])
    · exact .inr (Function.update_of_ne ht _ _)
  refine ⟨{ h.toSettled with others := fun t ht => ?_, created := fun t ht => ?_ }, fun hnone => ?_⟩
  · rcases hstack t with heq | heq
    · rw [heq]
      exact trivial
    · rw [heq]
      exact h.others t ht
  · rcases hstack t with heq | heq
    · exact heq
    · rw [heq] at ht ⊢
      exact h.created t ht
  · unfold Kernel.stack
    rcases hstack k.currentThread with heq | heq
    · exact heq.symm ▸ trivial
    · exact heq.symm ▸ h.current hnone

theorem CodeStep.controlled (h : CodeStep k k') (hk : Controlled k) (hs : k.stack = [.code])
    (hc : Restores k.interrupt.level k.interrupt.status k.stack) : Controlled k' := by
  have hheld : Held k := hk.held (hs ▸ List.cons_ne_nil _ _)
  have hm : k.interrupt.status = .system := by
    rw [hs] at hc
    exact hc.1
  cases h with
  | newThread junk => exact hk.newThread junk
  | newAddrSpace table program => exact { hk with }
  | setSpace t space => exact hk.same (.setSpace t space)
  | start t halive hstatus => exact hheld.start hc hstatus
  | yield => exact hheld.yield hm hc
  | p s => exact hheld.p hm hc s
  | v s => exact hheld.v hc s
  | setLevel level =>
    refine hheld.setLevel ?_
    rw [hs]
    exact ⟨hm, rfl⟩
  | schedule handler fromNow =>
    exact hk.same { SameControl.check (k := k) (c := 0 < fromNow + 1) (a := .scheduleFromNow)
      (.inr not_false) with }
  | finish => exact hheld.finish hm
  | powerdown => exact hheld.powerdown
  | enterUser space hspace hlevel =>
    have hupdate := (hheld.setStatus .user).setStack [.userCode]
    have henter : Held (k.enterUser space) := { hupdate with }
    refine henter.controlled ?_
    show Restores k.interrupt.level .user ((k.setStatus .user).setStack [.userCode]).stack
    rw [Kernel.setStack_stack]
    exact ⟨hlevel, rfl, rfl⟩

theorem UserStep.controlled (h : UserStep k k') (hk : Controlled k) (hs : k.stack = [.userCode])
    (hc : Restores k.interrupt.level k.interrupt.status k.stack) : Controlled k' := by
  have hheld : Held k := hk.held (hs ▸ List.cons_ne_nil _ _)
  cases h with
  | executed hrun =>
    have hlevel : k.interrupt.level = .on := by
      rw [hs] at hc
      exact hc.1
    exact Held.oneTick { hheld with } hlevel (hlevel ▸ hc)
  | halt hrun hcall => exact Held.powerdown { hheld with }
  | trap hrun hno =>
    refine ⟨{ hk.toSettled with failed := fun a ha => ?_ }, fun hnone => ?_⟩
    · rcases List.mem_append.mp ha with ha | ha
      · exact hk.failed a ha
      · rw [List.mem_singleton.mp ha]
        exact not_false
    · exact absurd hnone (List.append_ne_nil_of_right_ne_nil _ (List.cons_ne_nil _ _))

theorem FrameStep.controlled (h : FrameStep k k') (hk : Controlled k) (hnone : k.failed = []) :
    Controlled k' := by
  have hc := hk.current hnone
  have hheld : ∀ {f : Frame} {rest : List Frame}, k.stack = f :: rest → Held k :=
    fun hs => hk.held (hs ▸ List.cons_ne_nil _ _)
  cases h with
  | code hs hcode => exact hcode.controlled hk hs hc
  | userCode hs huser => exact huser.controlled hk hs hc
  | ret hs =>
    rw [hs] at hc
    obtain ⟨hl, hm, hrest⟩ := hc
    refine (((hheld hs).setStack _).returned hl hm).controlled ?_
    show Restores _ _ (k.setStack _).stack
    rw [Kernel.setStack_stack]
    exact hrest
  | setLevel hs =>
    rw [hs] at hc
    refine ((hheld hs).setStack _).setLevel ?_
    rw [Kernel.setStack_stack]
    exact hc
  | tickFire hs hfire =>
    rw [hs] at hc
    exact hk.same (.fires hfire hc.1 hk.inHandler)
  | tickDone hs hdue =>
    rw [hs] at hc
    obtain ⟨hl, hm, hrest⟩ := hc
    have hsame := SameControl.checkIfDue hl false
    rw [hdue] at hsame
    exact ((hheld hs).same hsame).tickDone (hsame.status.trans hm) hrest
  | tickStatus hs =>
    rw [hs] at hc
    refine (((hheld hs).setStack _).setStatus _).controlled ?_
    show Restores k.interrupt.level _ (k.setStack _).stack
    rw [Kernel.setStack_stack]
    exact hc
  | afterRun hs =>
    rw [hs] at hc
    obtain ⟨hl, hm, hrest⟩ := hc
    have hsame := (SameControl.destroy k).trans (.restore _)
    refine (((hheld hs).same hsame).setStack _).controlled ?_
    rw [Kernel.setStack_stack]
    show Restores k.destroy.restore.interrupt.level k.destroy.restore.interrupt.status _
    rw [hsame.level, hsame.status, hl, hm]
    exact hrest
  | setup hs =>
    rw [hs] at hc
    obtain ⟨hl, hm, hrest⟩ := hc
    have hsame := (SameControl.destroy k).trans (.restore _)
    refine (((hheld hs).same hsame).setStack _).setLevel ?_
    rw [Kernel.setStack_stack]
    show Restores _ k.destroy.restore.interrupt.status _
    rw [hsame.status, hm]
    exact hrest
  | pLoop hs =>
    rw [hs] at hc
    obtain ⟨hl, hm, hrest⟩ := hc
    refine ((hheld hs).setStack _).pTest hl hm ?_ _
    rw [Kernel.setStack_stack]
    exact hrest
  | @sleepRun n rest ready hs hnext =>
    rw [hs] at hc
    have hready : Held { k with readyList := ready } := { hheld hs with }
    refine (hready.setStack _).run hc.1 hc.2.1 ?_ _
    rw [Kernel.setStack_stack]
    exact ⟨rfl, rfl, hc.2.2⟩
  | @sleepFire rest k₁ hs hnext hfire =>
    rw [hs] at hc
    have hsame := SameControl.fires hfire hc.1 hk.inHandler
    refine ((((hheld hs).setStatus .idle).same hsame).push _).controlled ?_
    rw [Kernel.push_stack, hsame.frames]
    show Restores k₁.interrupt.level k₁.interrupt.status (.idleLoop :: k.stack)
    rw [hsame.level, hsame.status, hs]
    exact ⟨hc.1, rfl, rfl, rfl, hc.2.2⟩
  | sleepDone hs hnext hdue =>
    rw [hs] at hc
    have hsame := SameControl.checkIfDue (k := k.setStatus .idle) hc.1 true
    rw [hdue] at hsame
    exact (((hheld hs).setStatus .idle).same hsame).powerdown
  | idleFire hs hfire =>
    rw [hs] at hc
    exact hk.same (.fires hfire hc.1 hk.inHandler)
  | @idleDone rest k₁ hs hdue =>
    rw [hs] at hc
    have hsame := SameControl.checkIfDue hc.1 false
    rw [hdue] at hsame
    have hdone : Held (k₁.idleDone rest) := { ((hheld hs).same hsame).setStack rest with }
    refine hdone.controlled ?_
    show Restores k₁.interrupt.level .system (k₁.setStack rest).stack
    rw [Kernel.setStack_stack, hsame.level, hc.1]
    exact hc.2.2

/-! ## Every run -/

theorem Initial.controlled {start : SemId → Int} (h : Initial start k) : Controlled k := by
  refine ⟨⟨h.inHandler, fun t ht => ?_, fun t ht => ?_, fun e he => ?_, fun a ha => ?_⟩,
    fun _ => ?_⟩
  · rw [h.others t ht]
    exact trivial
  · refine h.others t fun hmain => ?_
    rw [hmain, h.mainStatus] at ht
    cases ht
  · rw [h.control] at he
    exact absurd he List.not_mem_nil
  · rw [h.failed] at ha
    exact absurd ha List.not_mem_nil
  · rw [h.mainStack]
    exact ⟨h.status, rfl⟩

theorem controlled_of_reachable {start : SemId → Int} (h : (system start).Reachable k) :
    Controlled k :=
  h.induct (fun _ hinit => hinit.controlled) fun _ _ hk hstep => hstep.2.controlled hk hstep.1

/-- Every `SWITCH` so far found interrupts off, system mode and no handler active,
every watched call that has returned did so with the level and status it was
made with, and no assertion on them has failed. -/
theorem control_restored {start : SemId → Int} (h : (system start).Reachable k) :
    (∀ level status inHandler, .switch level status inHandler ∈ k.history.control →
      level = .off ∧ status = .system ∧ inHandler = false) ∧
    (∀ call level level' status status',
      .ret call level level' status status' ∈ k.history.control →
        level' = level ∧ status' = status) ∧
    .runLevel ∉ k.failed ∧ .sleepLevel ∉ k.failed ∧ .checkIfDueLevel ∉ k.failed ∧
    .setLevelInHandler ∉ k.failed := by
  have hk := controlled_of_reachable h
  refine ⟨fun level status inHandler he => hk.control _ he,
    fun call level level' status status' he => hk.control _ he, ?_, ?_, ?_, ?_⟩
  · exact fun ha => hk.failed _ ha trivial
  · exact fun ha => hk.failed _ ha trivial
  · exact fun ha => hk.failed _ ha trivial
  · exact fun ha => hk.failed _ ha trivial

/-- The return of `Start` and the switch in a run that has both. -/
theorem control_restored_yielded :
    (∀ level status inHandler, .switch level status inHandler ∈ yielded.history.control →
      level = .off ∧ status = .system ∧ inHandler = false) ∧
    (∀ call level level' status status',
      .ret call level level' status status' ∈ yielded.history.control →
        level' = level ∧ status' = status) ∧
    .runLevel ∉ yielded.failed ∧ .sleepLevel ∉ yielded.failed ∧
    .checkIfDueLevel ∉ yielded.failed ∧ .setLevelInHandler ∉ yielded.failed :=
  control_restored yielded_reachable

end Threads
end Nachos
