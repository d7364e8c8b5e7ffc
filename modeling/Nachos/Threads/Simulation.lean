import Nachos.Threads.Abstraction

/-!
# The thread system behaves like the dispatcher

Every step of the kernel is a sequence of moves of the abstract dispatcher,
which is empty for most steps.  The invariant that the simulation needs says
where the threads stand: the current one is awake, in `Sleep`, or on its way
out after `Powerdown`, and all others have just left the processor.
-/

namespace Nachos
namespace Threads

open Lib Machine

/-! ## Where a thread stands -/

/-- The frames of `OneTick` and of a routine about to return. -/
def Frame.Ticking : Frame → Prop
  | .ret .. | .setLevel _ | .tickLoop _ | .tickStatus _ => True
  | _ => False

/-- The frames of a thread that neither sleeps nor ends the program. -/
def Frame.Awake : Frame → Prop
  | .sleep | .idleLoop | .exit => False
  | _ => True

/-- The frames with which a thread comes back to the processor. -/
def Frame.Entry : Frame → Prop
  | .afterRun | .setup => True
  | _ => False

theorem Frame.Ticking.awake {f : Frame} (h : f.Ticking) : f.Awake := by
  cases f <;> first | exact trivial | exact h

/-- Where the current thread stands. -/
inductive Standing (halted : Bool) : ThreadStatus → List Frame → Prop
  | working {fs : List Frame} (hgoes : halted = false) (hfs : ∀ f ∈ fs, f.Awake) :
      Standing halted .running fs
  | asleep {status : ThreadStatus} {rest : List Frame} (hstatus : status ≠ .running)
      (hrest : ∀ f ∈ rest, f.Awake) : Standing halted status (.sleep :: rest)
  | idling {status : ThreadStatus} {rest : List Frame} (hstatus : status ≠ .running)
      (hrest : ∀ f ∈ rest, f.Awake) : Standing halted status (.idleLoop :: .sleep :: rest)
  | exiting {status : ThreadStatus} {before rest : List Frame} (hhalted : halted = true)
      (hbefore : ∀ f ∈ before, f.Ticking) (hstatus : status = .running ∨ .sleep ∈ rest) :
      Standing halted status (before ++ .exit :: rest)

/-- A thread about to come back to the processor. -/
def Entering (fs : List Frame) : Prop := ∃ f rest, fs = f :: rest ∧ f.Entry

/-- Where a thread stands that has left the processor. -/
def Parked (fs : List Frame) : Prop := Entering fs ∧ ∀ f ∈ fs, f.Awake

namespace Standing

variable {halted : Bool} {status : ThreadStatus} {f : Frame} {fs rest : List Frame}

theorem running (h : Standing halted status fs) (hs : .sleep ∉ fs) : status = .running := by
  cases h with
  | working hgoes hfs => rfl
  | asleep hstatus hrest => exact absurd List.mem_cons_self hs
  | idling hstatus hrest => exact absurd (List.mem_cons_of_mem _ List.mem_cons_self) hs
  | exiting hhalted hbefore hstatus =>
    refine hstatus.resolve_right fun hmem => hs ?_
    exact List.mem_append_right _ (List.mem_cons_of_mem _ hmem)

/-- While a thread has no other frames the scheduler is not halted. -/
theorem goes (h : Standing halted status fs) (hall : ∀ f ∈ fs, f.Awake) : halted = false := by
  cases h with
  | working hgoes hfs => exact hgoes
  | asleep hstatus hrest => exact (hall .sleep List.mem_cons_self).elim
  | idling hstatus hrest => exact (hall .idleLoop List.mem_cons_self).elim
  | exiting hhalted hbefore hstatus =>
    exact (hall .exit (List.mem_append_right _ List.mem_cons_self)).elim

/-- Outside of `Sleep`, and with the scheduler not halted or not in `OneTick`, the
thread is working. -/
theorem awake (h : Standing halted status (f :: rest)) (hf : f.Awake)
    (ht : halted = false ∨ ¬ f.Ticking) :
    status = .running ∧ halted = false ∧ ∀ g ∈ f :: rest, g.Awake := by
  generalize hfs : f :: rest = fs at h
  cases h with
  | working hgoes hall => exact ⟨rfl, hgoes, hall⟩
  | asleep hstatus hrest =>
    cases hfs
    exact hf.elim
  | idling hstatus hrest =>
    cases hfs
    exact hf.elim
  | @exiting _ before _ hhalted hbefore hstatus =>
    cases before with
    | nil =>
      cases hfs
      exact hf.elim
    | cons g before =>
      cases hfs
      rcases ht with ht | ht
      · exact absurd (ht.symm.trans hhalted) nofun
      · exact absurd (hbefore _ List.mem_cons_self) ht

/-- Frames of a tick in the place of one. -/
theorem replace (h : Standing halted status (f :: rest)) (hf : f.Ticking)
    (hfs : ∀ g ∈ fs, g.Ticking) : Standing halted status (fs ++ rest) := by
  generalize hstack : f :: rest = stack at h
  cases h with
  | working hgoes hall =>
    refine .working hgoes fun g hg => ?_
    rcases List.mem_append.mp hg with hg | hg
    · exact (hfs g hg).awake
    · exact hall g (hstack ▸ List.mem_cons_of_mem _ hg)
  | asleep hstatus hrest =>
    cases hstack
    exact hf.elim
  | idling hstatus hrest =>
    cases hstack
    exact hf.elim
  | @exiting _ before after hhalted hbefore hstatus =>
    cases before with
    | nil =>
      cases hstack
      exact hf.elim
    | cons g before =>
      cases hstack
      show Standing halted status (fs ++ (before ++ .exit :: after))
      rw [← List.append_assoc]
      refine .exiting hhalted (fun g' hg' => ?_) hstatus
      rcases List.mem_append.mp hg' with hg' | hg'
      · exact hfs g' hg'
      · exact hbefore g' (List.mem_cons_of_mem _ hg')

/-- At the test of the loop in `Sleep`. -/
theorem of_sleep (h : Standing halted status (.sleep :: rest)) :
    status ≠ .running ∧ ∀ f ∈ rest, f.Awake := by
  generalize hfs : Frame.sleep :: rest = fs at h
  cases h with
  | working hgoes hall => exact (hall .sleep (hfs ▸ List.mem_cons_self)).elim
  | asleep hstatus hrest =>
    cases hfs
    exact ⟨hstatus, hrest⟩
  | idling hstatus hrest => cases hfs
  | @exiting _ before _ hhalted hbefore hstatus =>
    cases before with
    | nil => cases hfs
    | cons g before =>
      cases hfs
      exact (hbefore .sleep List.mem_cons_self).elim

/-- In the loop of `Idle`. -/
theorem of_idleLoop (h : Standing halted status (.idleLoop :: rest)) :
    Standing halted status rest := by
  generalize hfs : Frame.idleLoop :: rest = fs at h
  cases h with
  | working hgoes hall => exact (hall .idleLoop (hfs ▸ List.mem_cons_self)).elim
  | asleep hstatus hrest => cases hfs
  | idling hstatus hrest =>
    cases hfs
    exact .asleep hstatus hrest
  | @exiting _ before _ hhalted hbefore hstatus =>
    cases before with
    | nil => cases hfs
    | cons g before =>
      cases hfs
      exact (hbefore .idleLoop List.mem_cons_self).elim

/-- A handler wakes up the current thread, which sleeps. -/
theorem wake (h : Standing halted .blocked fs) : Standing halted .ready fs := by
  cases h with
  | asleep hstatus hrest => exact .asleep nofun hrest
  | idling hstatus hrest => exact .idling nofun hrest
  | exiting hhalted hbefore hstatus =>
    exact .exiting hhalted hbefore (.inr (hstatus.resolve_left nofun))

end Standing

/-! ## The invariant -/

structure Linked (k : Kernel) : Prop where
  alive : k.currentThread ∈ k.threadList
  fresh : ∀ t ∈ k.threadList, t < k.nextThread
  standing : Standing k.halted (k.threads k.currentThread).status k.stack
  parked : ∀ t ∈ k.threadList, t ≠ k.currentThread → (k.threads t).status ≠ .justCreated →
    Parked (k.threads t).stack
  zombie : ∀ z, k.threadToBeDestroyed = some z → z ≠ k.currentThread → Entering k.stack
  waits : ∀ t, (waits (k.threads t).stack).length ≤ 1
  failed : ∀ a ∈ k.failed, ¬ a.Checked

namespace Linked

variable {k k' : Kernel}

/-- A finished thread that is not deleted yet is the current one, unless that has
just come to the processor. -/
theorem unclaimed (h : Linked k) {f : Frame} {rest : List Frame} (hs : k.stack = f :: rest)
    (hf : ¬ f.Entry) : ∀ z, k.threadToBeDestroyed = some z → z = k.currentThread := by
  intro z hz
  by_contra hne
  obtain ⟨g, rest', hstack, hg⟩ := h.zombie z hz hne
  rw [hs] at hstack
  cases hstack
  exact hf hg

theorem ofLocal (h : Linked k) (hlocal : Local k k')
    (hstanding : Standing k'.halted (k.threads k.currentThread).status k'.stack)
    (hz : ∀ z, k.threadToBeDestroyed = some z → z ≠ k.currentThread → Entering k'.stack) :
    Linked k' := by
  have hc := hlocal.currentThread
  refine ⟨?_, ?_, ?_, fun t ht hne hs => ?_, fun z hzombie hne => ?_, fun t => ?_, fun a ha => ?_⟩
  · rw [hc, hlocal.threadList]
    exact h.alive
  · rw [hlocal.threadList, hlocal.nextThread]
    exact h.fresh
  · rw [hc, hlocal.status]
    exact hstanding
  · rw [hc] at hne
    rw [hlocal.others t hne]
    rw [hlocal.status] at hs
    exact h.parked t (hlocal.threadList ▸ ht) hne hs
  · rw [hlocal.threadToBeDestroyed] at hzombie
    exact hz z hzombie (hc ▸ hne)
  · rw [hlocal.waits]
    exact h.waits t
  · exact (hlocal.failed a ha).elim (h.failed a) id

/-- A step that leaves all frames alone. -/
theorem ofSame (h : Linked k) (hlocal : Local k k') (hhalted : k'.halted = k.halted)
    (hstack : k'.stack = k.stack) : Linked k' := by
  refine h.ofLocal hlocal ?_ ?_
  · rw [hhalted, hstack]
    exact h.standing
  · rw [hstack]
    exact h.zombie

/-- An assertion that holds. -/
theorem check (h : Linked k) {c : Prop} [Decidable c] {a : Assertion} (hc : c ∨ ¬ a.Checked) :
    Linked { k with failed := k.failed ++ Threads.check c a } :=
  h.ofSame (.check hc) rfl rfl

/-- A blocked thread is woken up. -/
theorem readyToRun (h : Linked k) {t : ThreadId} (ht : (k.threads t).status = .blocked) :
    Linked (k.readyToRun t) := by
  have hstack : ∀ u, ((k.readyToRun t).threads u).stack = (k.threads u).stack :=
    fun u => update_same (g := Thread.stack) (by rfl) u
  have hframes : (k.readyToRun t).stack = k.stack := hstack _
  refine { h with standing := ?_, parked := fun u hu hne hs => ?_, zombie := ?_, waits := ?_ }
  · rw [hframes]
    have hstanding := h.standing
    show Standing k.halted (Function.update k.threads t _ k.currentThread).status _
    by_cases htc : k.currentThread = t
    · rw [htc, ht] at hstanding
      rw [htc, Function.update_self]
      exact hstanding.wake
    · rw [Function.update_of_ne htc]
      exact hstanding
  · rw [hstack]
    refine h.parked u hu hne fun hcreated => ?_
    by_cases hut : u = t
    · rw [hut, ht] at hcreated
      cases hcreated
    · apply hs
      show (Function.update k.threads t _ u).status = _
      rw [Function.update_of_ne hut]
      exact hcreated
  · rw [hframes]
    exact h.zombie
  · intro u
    rw [hstack]
    exact h.waits u

/-- The current thread, which works, gets other frames. -/
theorem setStack (h : Linked k) (hrun : (k.threads k.currentThread).status = .running)
    (hgoes : k.halted = false)
    (hz : ∀ z, k.threadToBeDestroyed = some z → z = k.currentThread) {fs : List Frame}
    (hfs : ∀ f ∈ fs, f.Awake) (hw : (Threads.waits fs).length ≤ 1) : Linked (k.setStack fs) := by
  have hstatus : ∀ t, ((k.setStack fs).threads t).status = (k.threads t).status :=
    fun t => update_same (g := Thread.status) (by rfl) t
  refine { h with
    standing := ?_
    parked := fun t ht hne hs => ?_
    zombie := fun z hzombie hne => absurd (hz z hzombie) hne
    waits := fun t => ?_ }
  · rw [Kernel.setStack_stack]
    show Standing k.halted ((k.setStack fs).threads k.currentThread).status fs
    rw [hstatus, hrun]
    exact .working hgoes hfs
  · have htc : t ≠ k.currentThread := hne
    show Parked (Function.update k.threads k.currentThread _ t).stack
    rw [Function.update_of_ne htc]
    rw [hstatus] at hs
    exact h.parked t ht hne hs
  · show (Threads.waits (Function.update k.threads k.currentThread _ t).stack).length ≤ 1
    by_cases htc : t = k.currentThread
    · rw [htc, Function.update_self]
      exact hw
    · rw [Function.update_of_ne htc]
      exact h.waits t

/-- The current thread, which works, goes to sleep. -/
theorem callSleep (h : Linked k) (hawake : ∀ f ∈ k.stack, f.Awake)
    (hz : ∀ z, k.threadToBeDestroyed = some z → z = k.currentThread) : Linked k.callSleep := by
  refine { h.check (c := k.interrupt.level = .off) (a := .sleepLevel) (.inr not_false) with
    standing := ?_
    parked := fun t ht hne hs => ?_
    zombie := fun z hzombie hne => absurd (hz z hzombie) hne
    waits := fun t => ?_ }
  · rw [Kernel.callSleep_stack]
    refine .asleep ?_ fun f hf => ?_
    · show (Function.update k.threads k.currentThread _ k.currentThread).status ≠ _
      rw [Function.update_self]
      exact nofun
    · rcases List.mem_cons.mp hf with rfl | hf
      · exact trivial
      · exact hawake f hf
  · have htc : t ≠ k.currentThread := hne
    revert hs
    show (Function.update k.threads k.currentThread _ t).status ≠ _ →
      Parked (Function.update k.threads k.currentThread _ t).stack
    rw [Function.update_of_ne htc]
    exact h.parked t ht htc
  · show (Threads.waits (Function.update k.threads k.currentThread _ t).stack).length ≤ 1
    by_cases htc : t = k.currentThread
    · rw [htc, Function.update_self]
      exact h.waits k.currentThread
    · rw [Function.update_of_ne htc]
      exact h.waits t

end Linked

theorem setLevel_frames (k : Kernel) (now : IntStatus) :
    ∃ fs, (∀ g ∈ fs, g.Ticking) ∧ (k.setLevel now).stack = fs ++ k.stack := by
  unfold Kernel.setLevel
  by_cases hon : now = .on ∧ k.interrupt.level = .off
  · rw [if_pos hon]
    refine ⟨_, ?_, Kernel.push_stack _ _⟩
    intro g hg
    rcases List.mem_pair.mp hg with rfl | rfl <;> exact trivial
  · rw [if_neg hon]
    exact ⟨[], nofun, rfl⟩

/-! ## Changing threads -/

/-- Between the two halves of `Scheduler::Run` all threads are parked. -/
structure Resting (k : Kernel) : Prop where
  fresh : ∀ t ∈ k.threadList, t < k.nextThread
  parked : ∀ t ∈ k.threadList, (k.threads t).status ≠ .justCreated → Parked (k.threads t).stack
  waits : ∀ t, (waits (k.threads t).stack).length ≤ 1
  failed : ∀ a ∈ k.failed, ¬ a.Checked

/-- The current thread leaves the processor. -/
theorem Linked.leave {k : Kernel} (h : Linked k) {fs : List Frame} (hfs : Parked fs)
    (hw : (Threads.waits fs).length ≤ 1) : Resting (k.setStack fs) := by
  have hstack : ∀ t, ((k.setStack fs).threads t).stack
      = if t = k.currentThread then fs else (k.threads t).stack := by
    intro t
    show (Function.update k.threads k.currentThread _ t).stack = _
    by_cases htc : t = k.currentThread
    · rw [htc, Function.update_self, if_pos rfl]
    · rw [Function.update_of_ne htc, if_neg htc]
  refine ⟨h.fresh, fun t ht hs => ?_, fun t => ?_, h.failed⟩
  · rw [hstack]
    split
    · exact hfs
    · rename_i hne
      refine h.parked t ht hne fun hcreated => hs ?_
      exact (update_same (g := Thread.status) (by rfl) t).trans hcreated
  · rw [hstack]
    split
    · exact hw
    · exact h.waits t

namespace Resting

variable {k : Kernel}

theorem readyToRun (h : Resting k) {t : ThreadId} (ht : (k.threads t).status ≠ .justCreated) :
    Resting (k.readyToRun t) := by
  have hstack : ∀ u, ((k.readyToRun t).threads u).stack = (k.threads u).stack :=
    fun u => update_same (g := Thread.stack) (by rfl) u
  refine ⟨h.fresh, fun u hu hs => ?_, fun u => ?_, h.failed⟩
  · rw [hstack]
    refine h.parked u hu fun hcreated => ?_
    by_cases hut : u = t
    · exact ht (hut ▸ hcreated)
    · apply hs
      show (Function.update k.threads t _ u).status = _
      rw [Function.update_of_ne hut]
      exact hcreated
  · rw [hstack]
    exact h.waits u

/-- Another thread gets the processor. -/
theorem run (h : Resting k) (hgoes : k.halted = false) {n : ThreadId} (hn : n ∈ k.threadList)
    (hns : (k.threads n).status ≠ .justCreated) : Linked (k.run n) := by
  have hstack : ∀ t, ((k.run n).threads t).stack = (k.threads t).stack :=
    fun t => k.runThreads_stack n t
  have hstatus : ∀ t, ((k.run n).threads t).status = _ := fun t => k.runThreads_status n t
  have hframes : (k.run n).stack = (k.threads n).stack := hstack n
  refine ⟨hn, h.fresh, ?_, fun t ht hne hs => ?_, fun z _ _ => ?_, fun t => ?_, fun a ha => ?_⟩
  · rw [hframes]
    show Standing k.halted ((k.run n).threads n).status _
    rw [hstatus, if_pos rfl]
    exact .working hgoes (h.parked n hn hns).2
  · rw [hstatus, if_neg (show ¬ t = n from hne)] at hs
    rw [hstack]
    exact h.parked t ht hs
  · rw [hframes]
    exact (h.parked n hn hns).1
  · rw [hstack]
    exact h.waits t
  · rcases List.mem_append.mp ha with ha | ha
    · exact h.failed a ha
    · rw [(mem_check.mp ha).2]
      exact not_false

end Resting

/-- What holds between two frames. -/
structure Inv (start : SemId → Int) (k : Kernel) : Prop where
  linked : Linked k
  sound : Dispatcher.Sound start k.abs

/-- The kernel gets from one state to the other by moves of the dispatcher. -/
structure Simulates (start : SemId → Int) (k k' : Kernel) : Prop where
  moves : Dispatcher.Moves k.abs k'.abs
  inv : Inv start k'

variable {start : SemId → Int} {k k' k₁ k₂ k₃ : Kernel}

theorem Simulates.trans (h : Simulates start k₁ k₂) (h' : Simulates start k₂ k₃) :
    Simulates start k₁ k₃ :=
  ⟨Relation.ReflTransGen.trans h.moves h'.moves, h'.inv⟩

namespace Inv

theorem refl (h : Inv start k) : Simulates start k k := ⟨.refl, h⟩

theorem quiet (h : Inv start k) (hlocal : Local k k') (hlinked : Linked k') :
    Simulates start k k' := by
  refine ⟨?_, hlinked, ?_⟩
  · rw [hlocal.abs_eq]
    exact .refl
  · rw [hlocal.abs_eq]
    exact h.sound

theorem move (h : Inv start k) (hmove : Dispatcher.Move k.abs k'.abs) (hlinked : Linked k') :
    Simulates start k k' := by
  have hmoves : Dispatcher.Moves k.abs k'.abs := .single hmove
  exact ⟨hmoves, hlinked, hmoves.sound h.sound⟩

/-- A step that leaves all frames alone. -/
theorem same (h : Inv start k) (hlocal : Local k k') (hhalted : k'.halted = k.halted)
    (hstack : k'.stack = k.stack) : Simulates start k k' :=
  h.quiet hlocal (h.linked.ofSame hlocal hhalted hstack)

theorem phase (k : Kernel) {t : ThreadId} (ht : t ∈ k.threadList) :
    k.abs.phase t = (k.threads t).phase :=
  phases_mem ht

theorem ready (h : Inv start k) {t : ThreadId} (ht : t ∈ k.readyList) :
    t ∈ k.threadList ∧ (k.threads t).status = .ready := by
  have hready : (k.abs.phase t).Ready := (h.sound.placed.ready.mem t).mp ht
  have halive : t ∈ k.threadList := by
    refine (h.sound.placed.alive.mem t).mpr ?_
    obtain ⟨w, hw⟩ := Phase.ready_iff.mp hready
    rw [hw]
    exact trivial
  rw [phase k halive] at hready
  exact ⟨halive, Thread.phase_ready_iff.mp hready⟩

theorem blocked (h : Inv start k) {t : ThreadId} {s : SemId} (ht : t ∈ (k.sems s).queue) :
    t ∈ k.threadList ∧ (k.threads t).status = .blocked ∧
      (waits (k.threads t).stack).head? = some s := by
  have hblocked : (k.abs.phase t).BlockedOn s := ((h.sound.placed.queue s).mem t).mp ht
  have halive : t ∈ k.threadList := by
    refine (h.sound.placed.alive.mem t).mpr ?_
    rw [Phase.blockedOn_iff.mp hblocked]
    exact trivial
  rw [phase k halive] at hblocked
  exact ⟨halive, Thread.phase_blockedOn_iff.mp hblocked⟩

theorem zombie (h : Inv start k) {z : ThreadId} (hz : k.threadToBeDestroyed = some z) :
    z ∈ k.threadList ∧ (k.threads z).status = .blocked ∧
      (waits (k.threads z).stack).head? = none := by
  have hdone : (k.abs.phase z).Done := by
    refine (h.sound.placed.zombie.mem z).mp ?_
    show z ∈ k.threadToBeDestroyed.toList
    rw [hz]
    exact List.mem_singleton_self z
  have halive : z ∈ k.threadList := by
    refine (h.sound.placed.alive.mem z).mpr ?_
    rw [Phase.done_iff.mp hdone]
    exact trivial
  rw [phase k halive] at hdone
  exact ⟨halive, Thread.phase_done_iff.mp hdone⟩

/-- While the current thread works, no finished thread is left over. -/
theorem no_zombie (h : Inv start k) {f : Frame} {rest : List Frame} (hs : k.stack = f :: rest)
    (hf : ¬ f.Entry) (hrun : (k.threads k.currentThread).status = .running) :
    k.threadToBeDestroyed = none := by
  cases hz : k.threadToBeDestroyed with
  | none => rfl
  | some z =>
    have hcur := h.linked.unclaimed hs hf z hz
    have hblocked := (h.zombie hz).2.1
    rw [hcur, hrun] at hblocked
    cases hblocked

theorem up (h : Inv start k) (s : SemId) : Simulates start k (k.up s) := by
  have hcheck := h.linked.check (c := 0 ≤ (k.sems s).value) (a := .vValue)
    (.inl (h.sound.counted.nonneg s))
  cases hq : (k.sems s).queue with
  | nil =>
    refine h.move ?_ ?_
    · rw [abs_up_nil hq]
      exact .up hq
    · rw [Kernel.up_nil hq]
      exact { hcheck with }
  | cons t queue =>
    have hmem : t ∈ (k.sems s).queue := hq ▸ List.mem_cons_self
    obtain ⟨halive, hblocked, hwaits⟩ := h.blocked hmem
    refine h.move ?_ ?_
    · rw [abs_up_cons hq halive, hwaits]
      exact .wake hq
    · rw [Kernel.up_cons hq]
      exact { hcheck.readyToRun hblocked with }

/-! ### Interrupts -/

theorem applyEffect (h : Inv start k) (e : Effect) : Simulates start k (k.applyEffect e) := by
  cases e with
  | schedule handler fromNow =>
    exact h.same { Local.check (k := k) (c := 0 < fromNow) (a := .scheduleFromNow)
      (.inr not_false) with } rfl rfl
  | timeSlice =>
    show Simulates start k (ite _ _ _)
    split
    · exact h.refl
    · exact h.same { Local.check (k := k) (c := k.interrupt.inHandler = true)
        (a := .yieldOnReturnInHandler) (.inr not_false) with } rfl rfl
  | signal s =>
    have hoff := h.same (Local.changeLevel k .off) rfl rfl
    have hup := hoff.trans (hoff.inv.up s)
    have hcheck := Local.check (k := (k.changeLevel .off).up s)
      (c := k.interrupt.level = IntStatus.off ∨
        ((k.changeLevel .off).up s).interrupt.inHandler = false) (a := .setLevelInHandler)
      (.inr not_false)
    exact hup.trans (hup.inv.same { hcheck with } rfl rfl)

theorem applyEffects (h : Inv start k) (effects : List Effect) :
    Simulates start k (effects.foldl Kernel.applyEffect k) := by
  induction effects generalizing k with
  | nil => exact h.refl
  | cons e effects ih =>
    have he := h.applyEffect e
    exact he.trans (ih he.inv)

theorem fires (h : Inv start k) {advanceClock : Bool} (hfire : Fires k advanceClock k') :
    Simulates start k k' := by
  obtain ⟨hdue, hm, hdo⟩ := hfire
  rename_i toOccur k₁ machine effects
  have hcheck := h.same (Local.checkIfDue k advanceClock) rfl rfl
  rw [hdue] at hcheck
  have hlocal : Local k₁ { k₁ with
      machine := machine
      interrupt := { k₁.interrupt with inHandler := true, status := .system } } :=
    { Local.refl k₁ with }
  have henter := hcheck.inv.same hlocal rfl rfl
  have heffects := henter.trans (henter.inv.applyEffects effects)
  refine hcheck.trans (heffects.trans (heffects.inv.same ?_ rfl rfl))
  exact { Local.refl (effects.foldl Kernel.applyEffect { k₁ with
    machine := machine
    interrupt := { k₁.interrupt with inHandler := true, status := .system } }) with }

/-- The deletion of a finished thread by the next one. -/
theorem destroy (h : Inv start k) (hrun : (k.threads k.currentThread).status = .running) :
    Simulates start k k.destroy ∧ k.destroy.threadToBeDestroyed = none := by
  unfold Kernel.destroy
  cases hz : k.threadToBeDestroyed with
  | none => exact ⟨h.refl, hz⟩
  | some z =>
    obtain ⟨halive, hblocked, _⟩ := h.zombie hz
    have hne : z ≠ k.currentThread := by
      intro heq
      rw [heq, hrun] at hblocked
      cases hblocked
    refine ⟨h.move ?_ ?_, rfl⟩
    · have hphase : phases (k.threadList.erase z) k.nextThread k.threads
          = Function.update (phases k.threadList k.nextThread k.threads) z .gone :=
        phases_erase h.sound.placed.alive.nodup (h.linked.fresh z halive)
      have hreap := Dispatcher.Move.reap (a := k.abs) hz hne
      rw [show Function.update k.abs.phase z .gone = _ from hphase.symm] at hreap
      exact hreap
    · have hcheck := (h.linked.check (a := .deleteCurrent) (.inl hne)).check
        (c := z ∈ k.threadList) (a := .threadListRemove) (.inl halive)
      exact { hcheck with
        alive := (List.mem_erase_of_ne hne.symm).mpr h.linked.alive
        fresh := fun t ht => h.linked.fresh t (List.mem_of_mem_erase ht)
        parked := fun t ht => h.linked.parked t (List.mem_of_mem_erase ht)
        zombie := nofun }

/-! ### Creating and starting threads -/

theorem newThread (h : Inv start k) (junk : Registers) :
    Simulates start k (k.newThread junk) := by
  have hnot : k.nextThread ∉ k.threadList := fun hmem => Nat.lt_irrefl _ (h.linked.fresh _ hmem)
  have hother : ∀ t, t ≠ k.nextThread → (k.newThread junk).threads t = k.threads t :=
    fun t ht => Function.update_of_ne ht _ _
  have hcur : (k.newThread junk).threads k.currentThread = k.threads k.currentThread :=
    hother _ fun heq => hnot (heq ▸ h.linked.alive)
  have hframes : (k.newThread junk).stack = k.stack := congrArg Thread.stack hcur
  refine h.move ?_ ?_
  · have hphase : phases (k.threadList ++ [k.nextThread]) (k.nextThread + 1)
        (k.newThread junk).threads
        = Function.update (phases k.threadList k.nextThread k.threads) k.nextThread .created :=
      phases_append (Thread.phase_of_created rfl)
    have habsent : k.abs.phase k.nextThread = .absent := by
      show phases _ _ _ _ = _
      unfold phases
      rw [if_neg hnot, if_neg (Nat.lt_irrefl _)]
    have hcreate := Dispatcher.Move.create habsent
    rw [show Function.update k.abs.phase k.nextThread .created = _ from hphase.symm] at hcreate
    exact hcreate
  · refine { h.linked with
      alive := List.mem_append_left _ h.linked.alive
      fresh := fun t ht => ?_
      standing := ?_
      parked := fun t ht hne hs => ?_
      zombie := ?_
      waits := fun t => ?_ }
    · rcases List.mem_append.mp ht with ht | ht
      · exact Nat.lt_succ_of_lt (h.linked.fresh t ht)
      · rw [List.mem_singleton.mp ht]
        exact Nat.lt_succ_self _
    · rw [hframes]
      show Standing k.halted ((k.newThread junk).threads k.currentThread).status _
      rw [hcur]
      exact h.linked.standing
    · have htn : t ≠ k.nextThread := by
        rintro rfl
        apply hs
        show (Function.update k.threads k.nextThread _ k.nextThread).status = _
        rw [Function.update_self]
      have hmem : t ∈ k.threadList :=
        (List.mem_append.mp ht).resolve_right fun hmem => htn (List.mem_singleton.mp hmem)
      rw [hother t htn] at hs ⊢
      exact h.linked.parked t hmem hne hs
    · rw [hframes]
      exact h.linked.zombie
    · by_cases htn : t = k.nextThread
      · rw [htn]
        show (waits (Function.update k.threads k.nextThread _ k.nextThread).stack).length ≤ 1
        rw [Function.update_self]
        exact Nat.zero_le 1
      · rw [hother t htn]
        exact h.linked.waits t

/-! ### Giving up the processor -/

/-- A routine that works puts frames of a tick, or of a call, on the stack. -/
theorem ticks (h : Inv start k) {f : Frame} {fs rest : List Frame} (hs : k.stack = f :: rest)
    (hf : f.Awake) (he : ¬ f.Entry) (hlocal : Local k k') (hhalted : k'.halted = k.halted)
    (hfs : ∀ g ∈ fs, g.Ticking) (hstack : k'.stack = fs ++ k.stack) : Simulates start k k' := by
  refine h.quiet hlocal (h.linked.ofLocal hlocal ?_ fun z hz hne => ?_)
  · have hstanding := h.linked.standing
    rw [hstack, hhalted, hs]
    rw [hs] at hstanding
    by_cases hft : f.Ticking
    · rw [List.append_cons]
      refine hstanding.replace hft fun g hg => ?_
      rcases List.mem_append.mp hg with hg | hg
      · exact hfs g hg
      · rw [List.mem_singleton.mp hg]
        exact hft
    · obtain ⟨hrun, hgoes, hall⟩ := hstanding.awake hf (.inr hft)
      rw [hrun]
      refine .working hgoes fun g hg => ?_
      rcases List.mem_append.mp hg with hg | hg
      · exact (hfs g hg).awake
      · exact hall g hg
  · exact absurd (h.linked.unclaimed hs he z hz) hne

/-- Frames of a tick, or of a call that is about to return, are replaced. -/
theorem ticked (h : Inv start k) (fs : List Frame) {f : Frame} {rest : List Frame}
    (hs : k.stack = f :: rest) (hf : f.Ticking) (hlocal : Local k k')
    (hhalted : k'.halted = k.halted) (hfs : ∀ g ∈ fs, g.Ticking)
    (hstack : k'.stack = fs ++ rest) : Simulates start k k' := by
  have hstanding := h.linked.standing
  rw [hs] at hstanding
  refine h.quiet hlocal (h.linked.ofLocal hlocal ?_ fun z hz hne => ?_)
  · rw [hstack, hhalted]
    exact hstanding.replace hf hfs
  · refine absurd (h.linked.unclaimed hs ?_ z hz) hne
    cases f <;> first | exact not_false | exact hf.elim

theorem startThread (h : Inv start k) {f : Frame} {rest : List Frame}
    (hstack : k.stack = f :: rest) (hf : f.Awake) (he : ¬ f.Entry) {t : ThreadId}
    (ht : t ∈ k.threadList) (hs : (k.threads t).status = .justCreated)
    (hne : k.currentThread ≠ t) : Simulates start k (k.start t) := by
  have hphase : k.abs.phase t = .created := (phase k ht).trans (Thread.phase_of_created hs)
  have hother : ∀ u, u ≠ t → Function.update k.threads t
      { k.threads t with status := .ready, stack := [.setup, .code] } u = k.threads u :=
    fun u hu => Function.update_of_ne hu _ _
  have hready : Simulates start k { k.changeLevel .off with
      threads := Function.update k.threads t
        { k.threads t with status := .ready, stack := [.setup, .code] }
      readyList := k.readyList ++ [t]
      history := k.history.add (.readied t) } := by
    refine h.move ?_ ?_
    · have habs := abs_update ht { k.threads t with status := .ready, stack := [.setup, .code] }
      have hstart := Dispatcher.Move.start hphase
      rw [show Function.update k.abs.phase t (.ready none) = _ from
        (congrArg Dispatcher.phase habs).symm] at hstart
      exact hstart
    · refine { h.linked with
        standing := ?_
        parked := fun u hu huc => ?_
        zombie := ?_
        waits := fun u => ?_ }
      · show Standing k.halted (Function.update k.threads t _ k.currentThread).status
          (Function.update k.threads t _ k.currentThread).stack
        rw [hother _ hne]
        exact h.linked.standing
      · show (Function.update k.threads t _ u).status ≠ _ →
          Parked (Function.update k.threads t _ u).stack
        by_cases hut : u = t
        · rw [hut, Function.update_self]
          intro _
          refine ⟨⟨.setup, [.code], rfl, trivial⟩, fun g hg => ?_⟩
          rcases List.mem_pair.mp hg with rfl | rfl <;> exact trivial
        · rw [hother u hut]
          exact h.linked.parked u hu huc
      · show ∀ z, k.threadToBeDestroyed = some z → z ≠ k.currentThread →
          Entering (Function.update k.threads t _ k.currentThread).stack
        rw [hother _ hne]
        exact h.linked.zombie
      · show (waits (Function.update k.threads t _ u).stack).length ≤ 1
        by_cases hut : u = t
        · rw [hut, Function.update_self]
          exact Nat.zero_le 1
        · rw [hother u hut]
          exact h.linked.waits u
  rw [Kernel.start_eq]
  refine hready.trans (hready.inv.ticks (show _ = f :: rest from ?_) hf he (.push rfl) rfl ?_
    (Kernel.push_stack _ _))
  · show (Function.update k.threads t _ k.currentThread).stack = _
    rw [hother _ hne]
    exact hstack
  · intro g hg
    rcases List.mem_pair.mp hg with rfl | rfl <;> exact trivial

theorem yield (h : Inv start k) {f : Frame} {rest : List Frame} (hs : k.stack = f :: rest)
    (hf : f.Awake) (he : ¬ f.Entry) : Simulates start k k.yield := by
  have hback : ∀ g ∈ [Frame.setLevel k.interrupt.level,
      .ret .yield k.interrupt.level k.interrupt.status], g.Ticking := by
    intro g hg
    rcases List.mem_pair.mp hg with rfl | rfl <;> exact trivial
  cases hnext : k.findNextToRun with
  | none =>
    rw [Kernel.yield_none hnext]
    have hpush : Local (k.changeLevel .off) ((k.changeLevel .off).push
      [.setLevel k.interrupt.level, .ret .yield k.interrupt.level k.interrupt.status]) := .push rfl
    exact h.ticks hs hf he ((Local.changeLevel k .off).trans hpush) rfl hback
      (Kernel.push_stack _ _)
  | some next =>
    obtain ⟨n, ready⟩ := next
    obtain ⟨hhalted, hlist⟩ := Kernel.findNextToRun_some hnext
    have hstanding := h.linked.standing
    rw [hs] at hstanding
    obtain ⟨hrun, -, hawake⟩ := hstanding.awake hf (.inl hhalted)
    obtain ⟨hn, hnready⟩ := h.ready (t := n) (hlist ▸ List.mem_cons_self)
    have hcur : k.abs.phase k.currentThread = .running (waits k.stack).head? :=
      (phase k h.linked.alive).trans (Thread.phase_of_running hrun)
    have hn' : k.abs.phase n = .ready (waits (k.threads n).stack).head? :=
      (phase k hn).trans (Thread.phase_of_ready hnready)
    have hne : n ≠ k.currentThread := by
      intro heq
      rw [heq, hrun] at hnready
      cases hnready
    rw [Kernel.yield_some hnext]
    refine h.move ?_ ?_
    · have hmove := Dispatcher.Move.yieldTo hlist hn' hcur (h.no_zombie hs he hrun)
      have habs := abs_switch (k := { k.changeLevel .off with readyList := ready })
        [.afterRun, .setLevel k.interrupt.level,
          .ret .yield k.interrupt.level k.interrupt.status] h.linked.alive hn hne rfl
      exact habs.symm ▸ hmove
    · have hlink : Linked { k.changeLevel .off with readyList := ready } := { h.linked with }
      have hrest : Resting (Kernel.push { k.changeLevel .off with readyList := ready }
          [.afterRun, .setLevel k.interrupt.level,
            .ret .yield k.interrupt.level k.interrupt.status]) := by
        refine hlink.leave ⟨⟨.afterRun, _, rfl, trivial⟩, fun g hg => ?_⟩
          (h.linked.waits k.currentThread)
        rcases List.mem_append.mp hg with hg | hg
        · rcases List.mem_cons.mp hg with rfl | hg
          · exact trivial
          · exact (hback g hg).awake
        · exact hawake g (hs ▸ hg)
      refine (hrest.readyToRun ?_).run hhalted hn ?_
      · show (Function.update k.threads k.currentThread _ k.currentThread).status ≠ _
        rw [Function.update_self]
        exact fun heq => nomatch hrun.symm.trans heq
      · show (Function.update (Function.update k.threads k.currentThread _) k.currentThread _
          n).status ≠ _
        rw [Function.update_of_ne hne, Function.update_of_ne hne]
        exact fun heq => nomatch hnready.symm.trans heq

/-- The test of the semaphore, after which the frames `rest` are left. -/
theorem pTest (h : Inv start k) {f : Frame} {below rest : List Frame} {s : SemId}
    (hs : k.stack = f :: below) (he : ¬ f.Entry) (hf : f.Awake) (ht : ¬ f.Ticking)
    (hw : waits k.stack = [] ∨ waits k.stack = [s]) (hrest : waits rest = [])
    (hawake : ∀ g ∈ rest, g.Awake) : Simulates start k ((k.setStack rest).pTest s) := by
  have hstanding := h.linked.standing
  rw [hs] at hstanding
  obtain ⟨hrun, hgoes, _⟩ := hstanding.awake hf (.inr ht)
  have hz := h.linked.unclaimed hs he
  have hcur : k.abs.phase k.currentThread = .running (waits k.stack).head? :=
    (phase k h.linked.alive).trans (Thread.phase_of_running hrun)
  have hhead : (waits k.stack).head? = none ∨ (waits k.stack).head? = some s := by
    rcases hw with hw | hw
    · exact .inl (by rw [hw]; rfl)
    · exact .inr (by rw [hw]; rfl)
  by_cases hv : (k.sems s).value = 0
  · refine h.move ?_ ?_
    · rw [abs_pTest_zero h.linked.alive hv]
      exact .block hcur hhead hv
    · have hlink : Linked { k with
        sems := Function.update k.sems s
          { k.sems s with queue := (k.sems s).queue ++ [k.currentThread] } } := { h.linked with }
      have hall : ∀ g ∈ .pLoop s :: rest, g.Awake := by
        intro g hg
        rcases List.mem_cons.mp hg with rfl | hg
        · exact trivial
        · exact hawake g hg
      have hlength : (waits (.pLoop s :: rest)).length ≤ 1 := by
        rw [waits, hrest]
        exact Nat.le_refl 1
      rw [Kernel.setStack_pTest_zero hv]
      refine (hlink.setStack hrun hgoes hz hall hlength).callSleep ?_ hz
      rw [Kernel.setStack_stack]
      exact hall
  · refine h.move ?_ ?_
    · rw [abs_pTest_nonzero h.linked.alive hrun hrest hv]
      exact .take hcur hhead hv
    · rw [Kernel.pTest_nonzero (k := k.setStack rest) hv]
      have hlength : (waits rest).length ≤ 1 := by
        rw [hrest]
        exact Nat.zero_le 1
      exact { h.linked.setStack hrun hgoes hz hawake hlength with }

theorem finish (h : Inv start k) {f : Frame} {rest : List Frame} (hs : k.stack = f :: rest)
    (hf : f.Awake) (ht : ¬ f.Ticking) (he : ¬ f.Entry) (hw : waits k.stack = []) :
    Simulates start k k.finish := by
  have hstanding := h.linked.standing
  rw [hs] at hstanding
  obtain ⟨hrun, hgoes, _⟩ := hstanding.awake hf (.inr ht)
  have hcur : k.abs.phase k.currentThread = .running none := by
    refine (phase k h.linked.alive).trans ?_
    rw [Thread.phase_of_running hrun, show waits (k.threads k.currentThread).stack = [] from hw]
    rfl
  have hzombie := h.no_zombie hs he hrun
  show Simulates start k (Kernel.callSleep (Kernel.setStack { k.changeLevel .off with
    threadToBeDestroyed := some k.currentThread
    failed := k.failed ++ check (k.threadToBeDestroyed = none) .finishDestroyed
    history := k.history.add (.finished k.currentThread) } [.finished]))
  have hlink : Linked { k.changeLevel .off with
      threadToBeDestroyed := some k.currentThread
      failed := k.failed ++ check (k.threadToBeDestroyed = none) .finishDestroyed
      history := k.history.add (.finished k.currentThread) } :=
    { h.linked.check (c := k.threadToBeDestroyed = none) (a := .finishDestroyed) (.inl hzombie) with
      zombie := fun z hz hne => absurd (Option.some.inj hz).symm hne }
  refine h.move ?_ ?_
  · rw [abs_callSleep (by exact h.linked.alive)]
    exact .finish hcur hzombie
  · have hall : ∀ g ∈ [Frame.finished], g.Awake := by
      intro g hg
      rw [List.mem_singleton.mp hg]
      exact trivial
    refine (hlink.setStack hrun hgoes ?_ hall (Nat.zero_le 1)).callSleep ?_ ?_
    · exact fun z hz => (Option.some.inj hz).symm
    · rw [Kernel.setStack_stack]
      exact hall
    · exact fun z hz => (Option.some.inj hz).symm

/-- `Sleep` finds a thread to run. -/
theorem sleepRun (h : Inv start k) {rest : List Frame} {n : ThreadId} {ready : List ThreadId}
    (hs : k.stack = .sleep :: rest) (hnext : k.findNextToRun = some (n, ready)) :
    Simulates start k (({ k with readyList := ready }.setStack (.afterRun :: rest)).run n) := by
  obtain ⟨hgoes, hlist⟩ := Kernel.findNextToRun_some hnext
  obtain ⟨hn, hnready⟩ := h.ready (t := n) (hlist ▸ List.mem_cons_self)
  have hstanding := h.linked.standing
  rw [hs] at hstanding
  obtain ⟨hcur, hawake⟩ := hstanding.of_sleep
  have hn' : k.abs.phase n = .ready (waits (k.threads n).stack).head? :=
    (phase k hn).trans (Thread.phase_of_ready hnready)
  have hnot : ¬ (k.abs.phase k.currentThread).Running := by
    rw [phase k h.linked.alive]
    exact fun hrun => hcur (Thread.phase_running_iff.mp hrun)
  have hzombie : k.threadToBeDestroyed = none ∨ k.threadToBeDestroyed = some k.currentThread := by
    cases hz : k.threadToBeDestroyed with
    | none => exact .inl rfl
    | some z => exact .inr (congrArg some (h.linked.unclaimed hs not_false z hz))
  have hw : waits (.afterRun :: rest) = waits k.stack := by
    rw [hs]
    rfl
  have hlocal : Local { k with readyList := ready }
    (Kernel.setStack { k with readyList := ready } (.afterRun :: rest)) := .setStack hw
  have hlink : Linked { k with readyList := ready } := { h.linked with }
  refine h.move ?_ ?_
  · have hmove := Dispatcher.Move.dispatch hlist hn' hnot hzombie
    rw [abs_run (by exact hn), hlocal.abs_eq, hlocal.waits]
    exact hmove
  · refine (hlink.leave ⟨⟨.afterRun, rest, rfl, trivial⟩, fun g hg => ?_⟩ ?_).run hgoes hn ?_
    · rcases List.mem_cons.mp hg with rfl | hg
      · exact trivial
      · exact hawake g hg
    · rw [hw]
      exact h.linked.waits k.currentThread
    · rw [hlocal.status]
      exact fun heq => nomatch hnready.symm.trans heq

/-! ### Coming back to the processor -/

theorem destroyed (h : Inv start k) {fs : List Frame} (hs : k.stack = fs)
    (hrun : (k.threads k.currentThread).status = .running) :
    Simulates start k k.destroy ∧ k.destroy.threadToBeDestroyed = none ∧ k.destroy.stack = fs ∧
      (k.destroy.threads k.destroy.currentThread).status = .running ∧
      k.destroy.halted = k.halted := by
  have hthreads : k.destroy.threads = k.threads := by
    unfold Kernel.destroy
    cases k.threadToBeDestroyed <;> rfl
  have hhalted : k.destroy.halted = k.halted := by
    unfold Kernel.destroy
    cases k.threadToBeDestroyed <;> rfl
  obtain ⟨hsim, hz⟩ := h.destroy hrun
  refine ⟨hsim, hz, (SameControl.destroy k).frames.trans hs, ?_, hhalted⟩
  rw [hthreads, (SameControl.destroy k).currentThread]
  exact hrun

/-- What is left of `Scheduler::Run`, or of `SetupThreadState`, after the
deletion. -/
theorem enter (h : Inv start k) (fs : List Frame) {rest : List Frame}
    (hz : k.threadToBeDestroyed = none)
    (hrun : (k.threads k.currentThread).status = .running) (hlocal : Local k k')
    (hgoes : k'.halted = false) (hfs : ∀ g ∈ fs, g.Ticking) (hawake : ∀ g ∈ rest, g.Awake)
    (hstack : k'.stack = fs ++ rest) : Simulates start k k' := by
  refine h.quiet hlocal (h.linked.ofLocal hlocal ?_ fun z hzombie _ => ?_)
  · rw [hstack, hgoes, hrun]
    refine .working rfl fun g hg => ?_
    rcases List.mem_append.mp hg with hg | hg
    · exact (hfs g hg).awake
    · exact hawake g hg
  · exact nomatch hz.symm.trans hzombie

/-! ### Ending the program -/

theorem powerdown (h : Inv start k) {f : Frame} {rest : List Frame} (hs : k.stack = f :: rest)
    (he : ¬ f.Entry) : Simulates start k k.powerdown := by
  obtain ⟨fs, hfs, hstack⟩ := setLevel_frames (Kernel.push { k with halted := true } [.exit]) .on
  rw [Kernel.push_stack] at hstack
  refine h.quiet (.powerdown k) (h.linked.ofLocal (.powerdown k) ?_ fun z hz hne => ?_)
  · rw [show k.powerdown.stack = fs ++ .exit :: k.stack from hstack]
    refine .exiting (Kernel.setLevel_halted _ _) hfs ?_
    by_cases hsleep : .sleep ∈ k.stack
    · exact .inr hsleep
    · exact .inl (h.linked.standing.running hsleep)
  · exact absurd (h.linked.unclaimed hs he z hz) hne

end Inv

/-! ## Every step -/

theorem CodeStep.simulates (h : CodeStep k k') (hk : Inv start k) (hcontrol : Controlled k)
    (hs : k.stack = [.code]) : Simulates start k k' := by
  have hw : waits k.stack = [] := by
    rw [hs]
    rfl
  cases h with
  | newThread junk => exact hk.newThread junk
  | newAddrSpace table program => exact hk.same { Local.refl k with } rfl rfl
  | setSpace t space =>
    exact hk.same (.setSpace t space) rfl (update_same (g := Thread.stack) (by rfl) _)
  | start t halive hstatus =>
    refine hk.startThread hs trivial not_false halive hstatus fun heq => ?_
    have hempty := hcontrol.created t hstatus
    rw [← heq] at hempty
    exact absurd (hs.symm.trans hempty) nofun
  | yield => exact hk.yield hs trivial not_false
  | p s =>
    have hoff := hk.same (Local.changeLevel k .off) rfl rfl
    have hcheck := hoff.trans (hoff.inv.same (.check (c := 0 ≤ (k.sems s).value) (a := .pValue)
      (.inl (hk.sound.counted.nonneg s))) rfl rfl)
    refine hcheck.trans (hcheck.inv.pTest hs not_false trivial not_false (.inl hw) ?_ ?_)
    · exact hw
    · intro g hg
      have hmem : g ∈ [Frame.setLevel k.interrupt.level,
        .ret .p k.interrupt.level k.interrupt.status] ++ k.stack := hg
      rw [hs] at hmem
      rcases List.mem_append.mp hmem with hg | hg
      · rcases List.mem_pair.mp hg with rfl | rfl <;> exact trivial
      · rw [List.mem_singleton.mp hg]
        exact trivial
  | v s =>
    have hoff := hk.same (Local.changeLevel k .off) rfl rfl
    have hup := hoff.trans (hoff.inv.up s)
    have hframes : ((k.changeLevel .off).up s).stack = [.code] :=
      (SameControl.up (k := k.changeLevel .off) s).frames.trans hs
    refine hup.trans (hup.inv.ticks hframes trivial not_false (.push rfl) rfl ?_
      (Kernel.push_stack _ _))
    intro g hg
    rcases List.mem_pair.mp hg with rfl | rfl <;> exact trivial
  | setLevel level =>
    obtain ⟨fs, hfs, hstack⟩ := setLevel_frames k level
    exact hk.ticks hs trivial not_false (.setLevel k level) (k.setLevel_halted level) hfs hstack
  | schedule handler fromNow =>
    exact hk.same { Local.check (k := k) (c := 0 < fromNow + 1) (a := .scheduleFromNow)
      (.inr not_false) with } rfl rfl
  | finish => exact hk.finish hs trivial not_false not_false hw
  | powerdown => exact hk.powerdown hs not_false
  | enterUser space hspace hlevel =>
    have hstack : Local k (k.setStack [.userCode]) := .setStack (by rw [hw]; rfl)
    have hlocal : Local k (k.enterUser space) := { hstack with }
    have hframes : (k.enterUser space).stack = [.userCode] := k.setStack_stack [.userCode]
    have hstanding := hk.linked.standing
    rw [hs] at hstanding
    refine hk.quiet hlocal (hk.linked.ofLocal hlocal ?_ fun z hz hne => ?_)
    · obtain ⟨hrun, hgoes, -⟩ := hstanding.awake trivial (.inr not_false)
      rw [hframes, hrun]
      refine .working hgoes fun g hg => ?_
      rw [List.mem_singleton.mp hg]
      exact trivial
    · exact absurd (hk.linked.unclaimed hs not_false z hz) hne

theorem UserStep.simulates (h : UserStep k k') (hk : Inv start k) (hs : k.stack = [.userCode]) :
    Simulates start k k' := by
  cases h with
  | @executed machine hrun =>
    have hlocal : Local k (k.executed machine) :=
      { Local.oneTick { k with machine := machine } with }
    refine hk.ticks hs trivial not_false hlocal rfl ?_ (Kernel.push_stack _ _)
    intro g hg
    rcases List.mem_pair.mp hg with rfl | rfl <;> exact trivial
  | @halt machine hrun hcall =>
    have hlocal : Local k { k.setStatus .system with machine := machine } := { Local.refl k with }
    have hsystem := hk.same hlocal rfl rfl
    exact hsystem.trans (hsystem.inv.powerdown hs not_false)
  | trap hrun hno =>
    refine hk.same { Local.refl k with failed := fun a ha => ?_ } rfl rfl
    rcases List.mem_append.mp ha with ha | ha
    · exact .inl ha
    · rw [List.mem_singleton.mp ha]
      exact .inr not_false

theorem FrameStep.simulates (h : FrameStep k k') (hk : Inv start k) (hcontrol : Controlled k)
    (hnone : k.failed = []) : Simulates start k k' := by
  have hc := hcontrol.current hnone
  have hstanding := hk.linked.standing
  cases h with
  | code hs hcode => exact hcode.simulates hk hcontrol hs
  | userCode hs huser => exact huser.simulates hk hs
  | @ret call level status rest hs =>
    have hstack : Local k (k.setStack rest) := .setStack (by rw [hs]; rfl)
    exact hk.ticked [] hs trivial { hstack with } rfl nofun (k.setStack_stack rest)
  | @setLevel level rest hs =>
    have hstack : Local k (k.setStack rest) := .setStack (by rw [hs]; rfl)
    obtain ⟨fs, hfs, hframes⟩ := setLevel_frames (k.setStack rest) level
    rw [Kernel.setStack_stack] at hframes
    exact hk.ticked _ hs trivial (hstack.trans (.setLevel _ level)) (Kernel.setLevel_halted _ _)
      hfs hframes
  | tickFire hs hfire => exact hk.fires hfire
  | @tickDone old rest k₁ hs hdue =>
    have hcheck := hk.same (Local.checkIfDue k false) rfl rfl
    have hs₁ : (k.checkIfDue false).2.stack = .tickLoop old :: rest := hs
    rw [hdue] at hcheck hs₁
    refine hcheck.trans ?_
    have hw : waits rest = waits k₁.stack := by
      rw [hs₁]
      rfl
    by_cases hy : k₁.interrupt.yieldOnReturn = true
    · rw [Kernel.tickDone_yield hy]
      have hstack : Local k₁ (k₁.setStack (.tickStatus old :: rest)) := .setStack hw
      have htick : Simulates start k₁ (Kernel.setStack { k₁.changeLevel .on with
          interrupt := { (k₁.changeLevel .on).interrupt with
            yieldOnReturn := false, status := .system } } (.tickStatus old :: rest)) := by
        refine hcheck.inv.ticked [.tickStatus old] hs₁ trivial { hstack with } rfl ?_
          (Kernel.setStack_stack _ _)
        intro g hg
        rw [List.mem_singleton.mp hg]
        exact trivial
      exact htick.trans (htick.inv.yield (Kernel.setStack_stack _ _) trivial not_false)
    · rw [Kernel.tickDone_return hy]
      have hstack : Local k₁ (k₁.setStack rest) := .setStack hw
      exact hcheck.inv.ticked [] hs₁ trivial { hstack with } rfl nofun
        (Kernel.setStack_stack _ _)
  | @tickStatus old rest hs =>
    have hstack : Local k (k.setStack rest) := .setStack (by rw [hs]; rfl)
    exact hk.ticked [] hs trivial { hstack with } rfl nofun (k.setStack_stack rest)
  | @afterRun rest hs =>
    rw [hs] at hstanding
    obtain ⟨hrun, hgoes, hawake⟩ := hstanding.awake trivial (.inr not_false)
    obtain ⟨hsim, hz, hs', hrun', hhalted⟩ := hk.destroyed hs hrun
    have hgoes' : k.destroy.halted = false := hhalted.trans hgoes
    have hstack : Local k.destroy (k.destroy.restore.setStack rest) :=
      { (Local.setStack (by rw [hs']; rfl) : Local k.destroy (k.destroy.setStack rest)) with }
    exact hsim.trans (hsim.inv.enter [] hz hrun' hstack hgoes' nofun
      (fun g hg => hawake g (List.mem_cons_of_mem _ hg)) (Kernel.setStack_stack _ rest))
  | @setup rest hs =>
    rw [hs] at hstanding
    obtain ⟨hrun, hgoes, hawake⟩ := hstanding.awake trivial (.inr not_false)
    obtain ⟨hsim, hz, hs', hrun', hhalted⟩ := hk.destroyed hs hrun
    have hgoes' : k.destroy.halted = false := hhalted.trans hgoes
    have hstack : Local k.destroy (k.destroy.restore.setStack rest) :=
      { (Local.setStack (by rw [hs']; rfl) : Local k.destroy (k.destroy.setStack rest)) with }
    obtain ⟨fs, hfs, hframes⟩ := setLevel_frames (k.destroy.restore.setStack rest) .on
    rw [Kernel.setStack_stack] at hframes
    exact hsim.trans (hsim.inv.enter _ hz hrun' (hstack.trans (.setLevel _ .on))
      ((Kernel.setLevel_halted _ _).trans hgoes') hfs
      (fun g hg => hawake g (List.mem_cons_of_mem _ hg)) hframes)
  | @pLoop s rest hs =>
    have hlength : (waits (k.threads k.currentThread).stack).length ≤ 1 :=
      hk.linked.waits k.currentThread
    rw [show (k.threads k.currentThread).stack = _ from hs] at hlength
    have hrest : waits rest = [] := by
      simpa [waits] using hlength
    rw [hs] at hstanding
    refine hk.pTest hs not_false trivial not_false (.inr ?_) hrest fun g hg => ?_
    · rw [hs, waits, hrest]
    · exact (hstanding.awake trivial (.inr not_false)).2.2 g (List.mem_cons_of_mem _ hg)
  | sleepRun hs hnext => exact hk.sleepRun hs hnext
  | @sleepFire rest k₁ hs hnext hfire =>
    rw [hs] at hc
    have hlocal : Local k (k.setStatus .idle) := { Local.refl k with }
    have hidle := hk.same hlocal rfl rfl
    have hfires := hidle.trans (hidle.inv.fires hfire)
    have hs₁ : k₁.stack = .sleep :: rest :=
      (SameControl.fires hfire hc.1 hcontrol.inHandler).frames.trans hs
    have hpush : Local k₁ (k₁.push [.idleLoop]) := .push rfl
    have hstanding₁ := hfires.inv.linked.standing
    rw [hs₁] at hstanding₁
    obtain ⟨hstatus, hrest⟩ := hstanding₁.of_sleep
    refine hfires.trans (hfires.inv.quiet hpush (hfires.inv.linked.ofLocal hpush ?_ ?_))
    · rw [Kernel.push_stack, hs₁]
      exact .idling hstatus hrest
    · exact fun z hz hne => absurd (hfires.inv.linked.unclaimed hs₁ not_false z hz) hne
  | @sleepDone rest k₁ hs hnext hdue =>
    have hlocal : Local k (k.setStatus .idle) := { Local.refl k with }
    have hidle := hk.same hlocal rfl rfl
    have hcheck := hidle.trans (hidle.inv.same (Local.checkIfDue (k.setStatus .idle) true) rfl rfl)
    have hs₁ : ((k.setStatus .idle).checkIfDue true).2.stack = .sleep :: rest := hs
    rw [hdue] at hcheck hs₁
    exact hcheck.trans (hcheck.inv.powerdown hs₁ not_false)
  | idleFire hs hfire => exact hk.fires hfire
  | @idleDone rest k₁ hs hdue =>
    have hcheck := hk.same (Local.checkIfDue k false) rfl rfl
    have hs₁ : (k.checkIfDue false).2.stack = .idleLoop :: rest := hs
    rw [hdue] at hcheck hs₁
    have hstack : Local k₁ (k₁.setStack rest) := .setStack (by rw [hs₁]; rfl)
    have hlocal : Local k₁ (k₁.idleDone rest) := { hstack with }
    have hstanding₁ := hcheck.inv.linked.standing
    rw [hs₁] at hstanding₁
    refine hcheck.trans (hcheck.inv.quiet hlocal (hcheck.inv.linked.ofLocal hlocal ?_ ?_))
    · rw [show (k₁.idleDone rest).stack = rest from k₁.setStack_stack rest]
      exact hstanding₁.of_idleLoop
    · exact fun z hz hne => absurd (hcheck.inv.linked.unclaimed hs₁ not_false z hz) hne

/-! ## Every run -/

theorem Initial.linked (h : Initial start k) : Linked k := by
  refine ⟨?_, fun t ht => ?_, ?_, fun t ht hne => ?_, fun z hz => ?_, fun t => ?_, fun a ha => ?_⟩
  · rw [h.threadList, h.currentThread]
    exact List.mem_singleton_self 0
  · rw [h.threadList] at ht
    rw [h.nextThread, List.mem_singleton.mp ht]
    exact Nat.zero_lt_one
  · rw [h.mainStatus, h.mainStack]
    refine .working h.halted fun g hg => ?_
    rw [List.mem_singleton.mp hg]
    exact trivial
  · rw [h.threadList] at ht
    exact absurd ((List.mem_singleton.mp ht).trans h.currentThread.symm) hne
  · exact nomatch h.threadToBeDestroyed.symm.trans hz
  · by_cases ht : t = k.currentThread
    · rw [ht, show (k.threads k.currentThread).stack = [.code] from h.mainStack]
      exact Nat.zero_le 1
    · rw [h.others t ht]
      exact Nat.zero_le 1
  · rw [h.failed] at ha
    exact absurd ha List.not_mem_nil

theorem Initial.phase (h : Initial start k) (t : ThreadId) :
    k.abs.phase t = if t = 0 then .running none else .absent := by
  show phases k.threadList k.nextThread k.threads t = _
  unfold phases
  rw [h.threadList, h.nextThread]
  by_cases ht : t = 0
  · have hphase : (k.threads 0).phase = .running (waits (k.threads 0).stack).head? :=
      Thread.phase_of_running (h.currentThread ▸ h.mainStatus)
    have hstack : (k.threads 0).stack = [.code] := by
      rw [← h.currentThread]
      exact h.mainStack
    rw [if_pos (List.mem_singleton.mpr ht), if_pos ht, ht, hphase, hstack]
    rfl
  · rw [if_neg (fun hmem => ht (List.mem_singleton.mp hmem)), if_neg ht,
      if_neg (fun hlt => ht (Nat.lt_one_iff.mp hlt))]

theorem Initial.sound (h : Initial start k) : Dispatcher.Sound start k.abs := by
  have hnil : ∀ P : Phase SemId → Prop, ¬ P (.running none) → ¬ P .absent →
      Enumerates ([] : List ThreadId) fun t => P (k.abs.phase t) := by
    intro P hrun habsent
    refine ⟨List.nodup_nil, fun t => iff_of_false List.not_mem_nil ?_⟩
    rw [h.phase]
    split
    · exact hrun
    · exact habsent
  have hlog : k.abs.log = [] := h.sched
  have hqueue : ∀ s, k.abs.queue s = [] := fun s => congrArg Semaphore.queue (h.sems s)
  have hvalue : ∀ s, k.abs.value s = start s := fun s => congrArg Semaphore.value (h.sems s)
  have hready : k.abs.ready = [] := h.readyList
  have hzombie : k.abs.zombie = none := h.threadToBeDestroyed
  refine ⟨⟨⟨?_, fun t => ?_⟩, ?_, fun s => ?_, ?_, fun t ht => ?_⟩,
    ⟨fun s => ?_, fun s => ?_, fun s hs => ?_⟩, ⟨?_, fun z hz => ?_, ?_, ?_, ?_⟩⟩
  · rw [show k.abs.alive = [0] from h.threadList]
    exact List.nodup_singleton 0
  · rw [show k.abs.alive = [0] from h.threadList, List.mem_singleton, h.phase]
    by_cases ht : t = 0 <;> simp [ht]
  · rw [hready]
    exact hnil Phase.Ready not_false not_false
  · rw [hqueue]
    exact hnil (Phase.BlockedOn s) not_false not_false
  · rw [hzombie]
    exact hnil Phase.Done not_false not_false
  · rw [show k.abs.cpu = 0 from h.currentThread]
    by_contra hne
    rw [h.phase, if_neg hne] at ht
    exact ht
  · rw [hvalue, hlog]
    simp [Dispatcher.ups, Dispatcher.downs]
  · rw [hvalue]
    exact h.startNonneg s
  · exact absurd (hqueue s) hs
  · rw [hlog, hready]
    rfl
  · exact absurd (hzombie.symm.trans hz) (Option.some_ne_none z).symm
  · rw [hlog]
    exact hnil Phase.Over not_false not_false
  · rw [hlog]
    exact hnil Phase.Gone not_false not_false
  · intro before after t u heq
    rw [hlog] at heq
    exact absurd heq.symm (List.append_ne_nil_of_right_ne_nil _ (List.cons_ne_nil _ _))

theorem inv_of_reachable (h : (system start).Reachable k) : Inv start k := by
  have hinv : (system start).InductiveUnder Controlled (Inv start) :=
    ⟨fun _ hinit => ⟨hinit.linked, hinit.sound⟩,
      fun _ _ hcontrol hk hstep => (hstep.2.simulates hk hcontrol hstep.1).inv⟩
  exact hinv.reachable (fun _ => controlled_of_reachable) h

/-- **Refinement.**  From a state that a run can be in, every step of the kernel is
made of moves of the dispatcher. -/
theorem step_refines (h : (system start).Reachable k) (hstep : Step k k') :
    Dispatcher.Moves k.abs k'.abs :=
  (hstep.2.simulates (inv_of_reachable h) (controlled_of_reachable h) hstep.1).moves

end Threads
end Nachos
