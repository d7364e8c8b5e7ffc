import Nachos.Machine.Effect
import Nachos.Threads.Simulation

/-!
# User contexts

The machine has one set of registers and one current page table, and all user
programs run on them.  Whose context the machine holds depends on the stack of the
current thread: as long as that begins with the second half of a switch, the context
of the thread is still in its control block.
-/

namespace Nachos
namespace Threads

open Lib Machine

/-! ## Contexts -/

namespace Kernel

variable (k : Kernel)

/-- The thread is in a user program that it has not left for good. -/
def InUser (t : ThreadId) : Prop :=
  .userCode ∈ (k.threads t).stack ∧ .exit ∉ (k.threads t).stack

/-- The registers are those the thread had when it last stopped executing user code,
the pending load done or not. -/
def Saved (t : ThreadId) (r : Registers) : Prop :=
  ∃ r₀, k.history.lastUser t = some r₀ ∧ (r = r₀ ∨ r = loaded r₀ 0 0)

/-- The machine points to the page table of the address space. -/
def Maps (space : AddrSpace) : Prop :=
  k.machine.memory.currentPageTable = some space.pageTable ∧
    k.machine.memory.currentPageTableSize = space.numPages

/-- The machine holds the context of the current thread. -/
def Holds : Prop :=
  k.Saved k.currentThread k.machine.registers ∧
    ∃ space, (k.threads k.currentThread).space = some space ∧ k.Maps space

end Kernel

/-- Every thread in a user program has its context, in its control block or in the
machine. -/
structure Contexts (k : Kernel) : Prop where
  tails : ∀ t f rest, (k.threads t).stack = f :: rest → ∀ g ∈ rest, ¬ g.Entry
  parked : ∀ t, t ≠ k.currentThread → ∀ f rest, (k.threads t).stack = f :: rest → f.Entry
  space : ∀ t, k.InUser t → ∃ space, (k.threads t).space = some space
  stored : k.failed = [] → ∀ t, k.InUser t → (t = k.currentThread → Entering k.stack) →
    k.Saved t (k.threads t).userRegisters
  held : k.failed = [] → k.InUser k.currentThread → ¬ Entering k.stack → k.Holds

/-- The current thread is done with the switch that brought it here. -/
structure Active (k : Kernel) : Prop extends Contexts k where
  noEntry : ∀ f ∈ k.stack, ¬ f.Entry

variable {k k₁ k₂ k₃ k' : Kernel}

theorem Active.not_entering (h : Active k) : ¬ Entering k.stack := by
  rintro ⟨f, rest, hs, hf⟩
  exact h.noEntry f (hs ▸ List.mem_cons_self) hf

theorem Contexts.active (h : Contexts k) {f : Frame} {rest : List Frame} (hs : k.stack = f :: rest)
    (hf : ¬ f.Entry) : Active k := by
  refine ⟨h, fun g hg => ?_⟩
  rw [hs] at hg
  rcases List.mem_cons.mp hg with rfl | hg
  · exact hf
  · exact h.tails _ f rest hs g hg

/-! ## Steps that leave the contexts alone -/

/-- Nobody enters a user program, and nobody in one is touched. -/
structure SameUsers (k k' : Kernel) : Prop where
  currentThread : k'.currentThread = k.currentThread
  machine : k'.machine = k.machine
  user : ∀ t, k'.InUser t → k.InUser t ∧ (k'.threads t).space = (k.threads t).space ∧
    (k'.threads t).userRegisters = (k.threads t).userRegisters ∧
    k'.history.lastUser t = k.history.lastUser t
  others : ∀ t, t ≠ k.currentThread → (k'.threads t).stack = (k.threads t).stack ∨
    (k'.threads t).stack = [] ∨ (k'.threads t).stack = [.setup, .code]
  failed : k'.failed = [] → k.failed = []

/-- The current thread goes on. -/
structure SameContexts (k k' : Kernel) : Prop extends SameUsers k k' where
  entries : ∀ f ∈ k'.stack, f.Entry → f ∈ k.stack

namespace SameUsers

theorem refl (k : Kernel) : SameUsers k k :=
  ⟨rfl, rfl, fun _ h => ⟨h, rfl, rfl, rfl⟩, fun _ _ => .inl rfl, id⟩

theorem trans (h : SameUsers k₁ k₂) (h' : SameUsers k₂ k₃) : SameUsers k₁ k₃ := by
  refine ⟨h'.currentThread.trans h.currentThread, h'.machine.trans h.machine, fun t ht => ?_,
    fun t ht => ?_, fun hnone => h.failed (h'.failed hnone)⟩
  · obtain ⟨ht₂, hspace', hregs', hlast'⟩ := h'.user t ht
    obtain ⟨ht₁, hspace, hregs, hlast⟩ := h.user t ht₂
    exact ⟨ht₁, hspace'.trans hspace, hregs'.trans hregs, hlast'.trans hlast⟩
  · rcases h'.others t (h.currentThread.symm ▸ ht) with heq | hnew
    · rw [heq]
      exact h.others t ht
    · exact .inr hnew

theorem saved (h : SameUsers k k') {t : ThreadId} (ht : k'.InUser t) {r : Registers}
    (hsaved : k.Saved t r) : k'.Saved t r := by
  obtain ⟨r₀, hlast, hr⟩ := hsaved
  exact ⟨r₀, (h.user t ht).2.2.2.trans hlast, hr⟩

theorem setStack {fs : List Frame} (hfs : .userCode ∈ fs → .exit ∉ fs → k.InUser k.currentThread) :
    SameUsers k (k.setStack fs) := by
  have hstack : ∀ t, ((k.setStack fs).threads t).stack
      = if t = k.currentThread then fs else (k.threads t).stack := by
    intro t
    show (Function.update k.threads k.currentThread _ t).stack = _
    by_cases ht : t = k.currentThread
    · rw [if_pos ht, ht, Function.update_self]
    · rw [if_neg ht, Function.update_of_ne ht]
  refine { refl k with user := fun t ht => ⟨?_, ?_, ?_, rfl⟩, others := fun t ht => .inl ?_ }
  · unfold Kernel.InUser at ht
    rw [hstack] at ht
    by_cases htc : t = k.currentThread
    · rw [if_pos htc] at ht
      exact htc ▸ hfs ht.1 ht.2
    · rw [if_neg htc] at ht
      exact ht
  · exact update_same (g := Thread.space) (by rfl) t
  · exact update_same (g := Thread.userRegisters) (by rfl) t
  · rw [hstack, if_neg ht]

end SameUsers

namespace SameContexts

theorem refl (k : Kernel) : SameContexts k k := ⟨.refl k, fun _ h _ => h⟩

theorem trans (h : SameContexts k₁ k₂) (h' : SameContexts k₂ k₃) : SameContexts k₁ k₃ :=
  ⟨h.toSameUsers.trans h'.toSameUsers, fun f hf he => h.entries f (h'.entries f hf he) he⟩

/-- A step that leaves all frames, spaces and saved registers alone. -/
theorem ofThreads (hthreads : ∀ t, (k'.threads t).stack = (k.threads t).stack ∧
      (k'.threads t).space = (k.threads t).space ∧
      (k'.threads t).userRegisters = (k.threads t).userRegisters)
    (hcurrent : k'.currentThread = k.currentThread) (hmachine : k'.machine = k.machine)
    (hlast : k'.history.lastUser = k.history.lastUser) (hfailed : k'.failed = [] → k.failed = []) :
    SameContexts k k' := by
  refine ⟨⟨hcurrent, hmachine, fun t ht => ⟨?_, (hthreads t).2.1, (hthreads t).2.2, by rw [hlast]⟩,
    fun t _ => .inl (hthreads t).1, hfailed⟩, fun f hf _ => ?_⟩
  · unfold Kernel.InUser at ht ⊢
    rw [← (hthreads t).1]
    exact ht
  · unfold Kernel.stack at hf ⊢
    rw [hcurrent, (hthreads _).1] at hf
    exact hf

/-- A step that leaves all threads alone. -/
theorem ofSame (hthreads : k'.threads = k.threads) (hcurrent : k'.currentThread = k.currentThread)
    (hmachine : k'.machine = k.machine) (hlast : k'.history.lastUser = k.history.lastUser)
    (hfailed : k'.failed = [] → k.failed = []) : SameContexts k k' :=
  ofThreads (fun t => by rw [hthreads]; exact ⟨rfl, rfl, rfl⟩) hcurrent hmachine hlast hfailed

theorem setStack {fs : List Frame} (hfs : .userCode ∈ fs → .exit ∉ fs → k.InUser k.currentThread)
    (hentries : ∀ f ∈ fs, f.Entry → f ∈ k.stack) : SameContexts k (k.setStack fs) := by
  refine ⟨.setStack hfs, fun f hf => ?_⟩
  rw [Kernel.setStack_stack] at hf
  exact hentries f hf

/-- The current thread is done with its topmost frame. -/
theorem pop {f : Frame} {rest : List Frame} (hs : k.stack = f :: rest) (hf : f ≠ .exit) :
    SameContexts k (k.setStack rest) := by
  refine setStack (fun huser hexit => ?_) fun g hg _ => hs ▸ List.mem_cons_of_mem f hg
  have hs' : (k.threads k.currentThread).stack = f :: rest := hs
  unfold Kernel.InUser
  rw [hs']
  refine ⟨List.mem_cons_of_mem f huser, fun hmem => ?_⟩
  rcases List.mem_cons.mp hmem with heq | hmem
  · exact hf heq.symm
  · exact hexit hmem

/-- Another frame takes the place of the topmost one. -/
theorem replace {f g : Frame} {rest : List Frame} (hs : k.stack = f :: rest) (hf : f ≠ .exit)
    (hg : g ≠ .userCode ∧ ¬ g.Entry) : SameContexts k (k.setStack (g :: rest)) := by
  have hpop := (pop hs hf).user k.currentThread
  unfold Kernel.InUser at hpop
  rw [show ((k.setStack rest).threads k.currentThread).stack = rest from k.setStack_stack rest]
    at hpop
  refine setStack (fun huser hexit => (hpop ⟨?_, fun h => ?_⟩).1) fun g' hg' he => ?_
  · exact (List.mem_cons.mp huser).resolve_left fun h => hg.1 h.symm
  · exact hexit (List.mem_cons_of_mem g h)
  · rcases List.mem_cons.mp hg' with rfl | hg'
    · exact absurd he hg.2
    · exact hs ▸ List.mem_cons_of_mem f hg'

theorem push {fs : List Frame} (hfs : ∀ f ∈ fs, f ≠ .userCode ∧ ¬ f.Entry) :
    SameContexts k (k.push fs) := by
  refine setStack (fun huser hexit => ⟨?_, fun h => hexit (List.mem_append_right fs h)⟩)
    fun f hf he => ?_
  · exact (List.mem_append.mp huser).resolve_left fun h => (hfs _ h).1 rfl
  · exact (List.mem_append.mp hf).resolve_left fun h => (hfs f h).2 he

/-- A call of the simulator pushes a frame and its return. -/
theorem call (f : Frame) (hf : f ≠ .userCode ∧ ¬ f.Entry) (call : Call) (level : IntStatus)
    (status : MachineStatus) : SameContexts k (k.push [f, .ret call level status]) := by
  refine push fun g hg => ?_
  rcases List.mem_pair.mp hg with rfl | rfl
  · exact hf
  · exact ⟨nofun, not_false⟩

theorem changeLevel (k : Kernel) (now : IntStatus) : SameContexts k (k.changeLevel now) :=
  .ofSame rfl rfl rfl rfl id

theorem setStatus (k : Kernel) (status : MachineStatus) : SameContexts k (k.setStatus status) :=
  .ofSame rfl rfl rfl rfl id

theorem returned (call : Call) (level : IntStatus) (status : MachineStatus) :
    SameContexts k (k.returned call level status) :=
  .ofSame rfl rfl rfl rfl id

theorem nil_of_append {l failed : List Assertion} (h : l ++ failed = []) : l = [] :=
  (List.append_eq_nil_iff.mp h).1

theorem oneTick (k : Kernel) : SameContexts k k.oneTick := by
  have hstats : SameContexts k { k with stats := k.stats.tick k.interrupt.status } :=
    .ofSame rfl rfl rfl rfl id
  have hcall := call (k := { k with stats := k.stats.tick k.interrupt.status })
    (.tickLoop k.interrupt.status) ⟨nofun, not_false⟩ .oneTick k.interrupt.level
    k.interrupt.status
  exact (hstats.trans hcall).trans (changeLevel _ .off)

theorem setLevel (k : Kernel) (now : IntStatus) : SameContexts k (k.setLevel now) := by
  have hcheck : SameContexts k { k with
      failed := k.failed ++ Threads.check
        (now = IntStatus.off ∨ k.interrupt.inHandler = false) .setLevelInHandler } :=
    .ofSame rfl rfl rfl rfl nil_of_append
  unfold Kernel.setLevel
  by_cases hon : now = .on ∧ k.interrupt.level = .off
  · rw [if_pos hon]
    exact (hcheck.trans (changeLevel _ now)).trans (oneTick _)
  · rw [if_neg hon]
    exact hcheck.trans (changeLevel _ now)

theorem checkIfDue (k : Kernel) (advanceClock : Bool) :
    SameContexts k (k.checkIfDue advanceClock).2 :=
  .ofSame rfl rfl rfl rfl nil_of_append

theorem readyToRun (t : ThreadId) : SameContexts k (k.readyToRun t) :=
  .ofThreads (fun u => ⟨update_same (g := Thread.stack) (by rfl) u,
    update_same (g := Thread.space) (by rfl) u,
    update_same (g := Thread.userRegisters) (by rfl) u⟩) rfl rfl rfl id

theorem up (s : SemId) : SameContexts k (k.up s) := by
  cases hq : (k.sems s).queue with
  | nil =>
    rw [Kernel.up_nil hq]
    exact .ofSame rfl rfl rfl rfl nil_of_append
  | cons t queue =>
    rw [Kernel.up_cons hq]
    exact (readyToRun t).trans (.ofSame rfl rfl rfl rfl nil_of_append)

theorem applyEffect (e : Effect) : SameContexts k (k.applyEffect e) := by
  cases e with
  | schedule handler fromNow => exact .ofSame rfl rfl rfl rfl nil_of_append
  | timeSlice =>
    show SameContexts k (ite _ _ _)
    split
    · exact refl k
    · exact .ofSame rfl rfl rfl rfl nil_of_append
  | signal s =>
    have hup := (changeLevel k .off).trans (up s)
    exact hup.trans (.ofSame rfl rfl rfl rfl nil_of_append)

theorem applyEffects (effects : List Effect) :
    SameContexts k (effects.foldl Kernel.applyEffect k) := by
  induction effects generalizing k with
  | nil => exact refl k
  | cons e effects ih => exact (applyEffect e).trans ih

theorem fire (machine : Machine) (effects : List Effect) :
    SameContexts { k with machine := machine } (k.fire machine effects) := by
  have hbegin : SameContexts { k with machine := machine }
      { k with
        machine := machine
        interrupt := { k.interrupt with inHandler := true, status := .system } } :=
    .ofSame rfl rfl rfl rfl id
  exact (hbegin.trans (applyEffects effects)).trans (.ofSame rfl rfl rfl rfl id)

theorem destroy (k : Kernel) : SameContexts k k.destroy := by
  unfold Kernel.destroy
  cases k.threadToBeDestroyed with
  | none => exact refl k
  | some t =>
    exact .ofSame rfl rfl rfl rfl fun h => nil_of_append (nil_of_append h)

theorem callSleep (k : Kernel) : SameContexts k k.callSleep := by
  have hpush : SameContexts k (k.push [.sleep, .ret .sleep k.interrupt.level k.interrupt.status]) :=
    call .sleep ⟨nofun, not_false⟩ _ _ _
  refine hpush.trans (.ofThreads (fun t => ?_) rfl rfl rfl nil_of_append)
  by_cases ht : t = k.currentThread
  · subst ht
    simp [Kernel.callSleep, Kernel.push, Kernel.setStack]
  · simp [Kernel.callSleep, Kernel.push, Kernel.setStack, ht]

theorem pTest (s : SemId) : SameContexts k (k.pTest s) := by
  by_cases hv : (k.sems s).value = 0
  · rw [Kernel.pTest_zero hv]
    have hqueue : SameContexts k { k with
        sems := Function.update k.sems s
          { k.sems s with queue := (k.sems s).queue ++ [k.currentThread] } } :=
      .ofSame rfl rfl rfl rfl id
    refine (hqueue.trans (push fun f hf => ?_)).trans (callSleep _)
    rw [List.mem_singleton.mp hf]
    exact ⟨nofun, not_false⟩
  · rw [Kernel.pTest_nonzero hv]
    exact .ofSame rfl rfl rfl rfl id

theorem p (s : SemId) : SameContexts k (k.p s) := by
  have hcheck : SameContexts k { k.changeLevel .off with
      failed := k.failed ++ Threads.check (0 ≤ (k.sems s).value) .pValue } :=
    .ofSame rfl rfl rfl rfl nil_of_append
  exact (hcheck.trans (call (.setLevel k.interrupt.level) ⟨nofun, not_false⟩ .p _ _)).trans
    (pTest s)

theorem v (s : SemId) : SameContexts k (k.v s) := by
  exact ((changeLevel k .off).trans (up s)).trans
    (call (.setLevel k.interrupt.level) ⟨nofun, not_false⟩ .v _ _)

theorem powerdown (k : Kernel) : SameContexts k k.powerdown := by
  have hhalted : SameContexts k { k with halted := true } := .ofSame rfl rfl rfl rfl id
  refine (hhalted.trans (push fun f hf => ?_)).trans (setLevel _ .on)
  rw [List.mem_singleton.mp hf]
  exact ⟨nofun, not_false⟩

theorem finish (k : Kernel) : SameContexts k k.finish := by
  have hoff := changeLevel k .off
  have hstack : SameContexts (k.changeLevel .off) ((k.changeLevel .off).setStack [.finished]) :=
    setStack (fun h => nomatch List.mem_singleton.mp h)
      fun f hf he => absurd he (List.mem_singleton.mp hf ▸ not_false)
  have hfinished : SameContexts ((k.changeLevel .off).setStack [.finished])
      { (k.changeLevel .off).setStack [.finished] with
        threadToBeDestroyed := some k.currentThread
        failed := k.failed ++ Threads.check (k.threadToBeDestroyed = none) .finishDestroyed
        history := k.history.add (.finished k.currentThread) } :=
    .ofSame rfl rfl rfl rfl nil_of_append
  exact ((hoff.trans hstack).trans hfinished).trans (callSleep _)

/-- A step that gives a thread its first frames. -/
theorem ofThread {t : ThreadId} (ht : (k'.threads t).stack = [] ∨
      (k'.threads t).stack = [.setup, .code] ∧ t ≠ k.currentThread)
    (hothers : ∀ u, u ≠ t → k'.threads u = k.threads u)
    (hcurrent : k'.currentThread = k.currentThread) (hmachine : k'.machine = k.machine)
    (hlast : k'.history.lastUser = k.history.lastUser) (hfailed : k'.failed = [] → k.failed = []) :
    SameContexts k k' := by
  refine ⟨⟨hcurrent, hmachine, fun u hu => ?_, fun u _ => ?_, hfailed⟩, fun f hf _ => ?_⟩
  · unfold Kernel.InUser at hu ⊢
    by_cases hut : u = t
    · rw [hut] at hu
      rcases ht with heq | ⟨heq, _⟩
      · rw [heq] at hu
        exact absurd hu.1 List.not_mem_nil
      · rw [heq] at hu
        exact absurd hu.1 (by decide)
    · rw [hothers u hut] at hu ⊢
      exact ⟨hu, rfl, rfl, congrFun hlast u⟩
  · by_cases hut : u = t
    · rw [hut]
      exact .inr (ht.imp_right And.left)
    · exact .inl (congrArg Thread.stack (hothers u hut))
  · unfold Kernel.stack at hf ⊢
    rw [hcurrent] at hf
    by_cases hct : k.currentThread = t
    · rcases ht with heq | ⟨_, hne⟩
      · rw [hct, heq] at hf
        exact absurd hf List.not_mem_nil
      · exact absurd hct.symm hne
    · rwa [hothers _ hct] at hf

theorem newThread (junk : Registers) : SameContexts k (k.newThread junk) := by
  refine ofThread (t := k.nextThread) (.inl ?_) (fun u hu => Function.update_of_ne hu _ _)
    rfl rfl rfl id
  simp [Kernel.newThread]

theorem setSpace {t : ThreadId} (ht : ¬ k.InUser t) (space : AddrSpace) :
    SameContexts k (k.setSpace t space) := by
  have hstack : ∀ u, ((k.setSpace t space).threads u).stack = (k.threads u).stack :=
    fun u => update_same (g := Thread.stack) (by rfl) u
  refine ⟨⟨rfl, rfl, fun u hu => ?_, fun u _ => .inl (hstack u), id⟩, fun f hf _ => ?_⟩
  · have hu' : k.InUser u := by
      unfold Kernel.InUser at hu ⊢
      rw [hstack] at hu
      exact hu
    have hne : u ≠ t := fun h => ht (h ▸ hu')
    refine ⟨hu', ?_, ?_, rfl⟩
    · exact congrArg Thread.space (Function.update_of_ne hne _ _)
    · exact congrArg Thread.userRegisters (Function.update_of_ne hne _ _)
  · have hf' : f ∈ ((k.setSpace t space).threads k.currentThread).stack := hf
    rw [hstack] at hf'
    exact hf'

theorem start {t : ThreadId} (ht : t ≠ k.currentThread) : SameContexts k (k.start t) := by
  rw [Kernel.start_eq]
  have hthread : SameContexts k { k.changeLevel .off with
      threads := Function.update k.threads t
        { k.threads t with status := .ready, stack := [.setup, .code] }
      readyList := k.readyList ++ [t]
      history := k.history.add (.readied t) } := by
    refine ofThread (t := t) (.inr ⟨?_, ht⟩) (fun u hu => Function.update_of_ne hu _ _) rfl rfl rfl id
    show (Function.update k.threads t _ t).stack = _
    rw [Function.update_self]
  exact hthread.trans (call (.setLevel k.interrupt.level) ⟨nofun, not_false⟩ .start _ _)

end SameContexts

/-! ## What keeps the invariant -/

theorem Active.same (h : Active k) (hsame : SameContexts k k') : Active k' := by
  have hno : ∀ f ∈ k'.stack, ¬ f.Entry :=
    fun f hf he => h.noEntry f (hsame.entries f hf he) he
  have hnot : ¬ Entering k'.stack := by
    rintro ⟨f, rest, hs, hf⟩
    exact hno f (hs ▸ List.mem_cons_self) hf
  have hstart : ∀ t f rest, t ≠ k.currentThread → (k'.threads t).stack = f :: rest →
      f.Entry ∧ ∀ g ∈ rest, ¬ g.Entry := by
    intro t f rest htc hs
    rcases hsame.others t htc with heq | heq | heq
    · rw [heq] at hs
      exact ⟨h.parked t htc f rest hs, h.tails t f rest hs⟩
    · rw [heq] at hs
      cases hs
    · rw [heq] at hs
      cases hs
      exact ⟨trivial, fun g hg => List.mem_singleton.mp hg ▸ not_false⟩
  refine ⟨⟨fun t f rest hs g hg => ?_, fun t ht f rest hs => ?_, fun t ht => ?_,
    fun hnone t ht hentering => ?_, fun hnone ht _ => ?_⟩, hno⟩
  · by_cases htc : t = k.currentThread
    · refine hno g ?_
      rw [htc, ← hsame.currentThread] at hs
      rw [show k'.stack = f :: rest from hs]
      exact List.mem_cons_of_mem f hg
    · exact (hstart t f rest htc hs).2 g hg
  · exact (hstart t f rest (hsame.currentThread ▸ ht) hs).1
  · obtain ⟨ht₀, hspace, _⟩ := hsame.user t ht
    rw [hspace]
    exact h.space t ht₀
  · obtain ⟨ht₀, _, hregs, _⟩ := hsame.user t ht
    rw [hregs]
    refine hsame.saved ht (h.stored (hsame.failed hnone) t ht₀ fun htc => ?_)
    exact absurd (hentering (htc.trans hsame.currentThread.symm)) hnot
  · obtain ⟨ht₀, hspace, _⟩ := hsame.user _ ht
    rw [hsame.currentThread] at ht₀ hspace
    obtain ⟨hsaved, space, hs, hmaps⟩ := h.held (hsame.failed hnone) ht₀ h.not_entering
    refine ⟨?_, space, ?_, ?_⟩
    · rw [hsame.machine]
      refine hsame.saved ht ?_
      rw [hsame.currentThread]
      exact hsaved
    · rw [hsame.currentThread, hspace]
      exact hs
    · unfold Kernel.Maps
      rw [hsame.machine]
      exact hmaps

/-- A pending load is done at most once. -/
theorem loaded_loaded (r : Registers) : loaded (loaded r 0 0) 0 0 = loaded r 0 0 := by
  funext j
  by_cases h0 : j = 0
  · rw [h0]
    rfl
  by_cases hl : j = loadReg
  · rw [hl]
    rfl
  by_cases hv : j = loadValueReg
  · rw [hv]
    rfl
  exact loaded_none rfl 0 0 h0 hl hv

/-- An interrupt may do the pending load. -/
theorem Active.interrupted (h : Active k) {m : Machine} (hm : Interrupted k m) :
    Active { k with machine := m } := by
  have hm' : m = k.machine ∨ m = { k.machine with registers := loaded k.machine.registers 0 0 } := by
    cases hm with
    | kernel hs => exact .inl rfl
    | user hs hrun =>
      have htriple := (delayedLoad_triple k.machine 0 0).ok rfl hrun
      exact .inr htriple
  refine { h with held := fun hnone ht hno => ?_ }
  obtain ⟨⟨r₀, hlast, hr⟩, space, hs, hmaps⟩ := h.held hnone ht hno
  rcases hm' with rfl | rfl
  · exact ⟨⟨r₀, hlast, hr⟩, space, hs, hmaps⟩
  · refine ⟨⟨r₀, hlast, .inr ?_⟩, space, hs, hmaps⟩
    show loaded k.machine.registers 0 0 = loaded r₀ 0 0
    rcases hr with hr | hr
    · rw [hr]
    · rw [hr, loaded_loaded]

theorem Active.fires (h : Active k) {advanceClock : Bool} (hfire : Fires k advanceClock k') :
    Active k' := by
  obtain ⟨hdue, hm, _⟩ := hfire
  have hcheck := SameContexts.checkIfDue k advanceClock
  rw [hdue] at hcheck
  exact ((h.same hcheck).interrupted hm).same (.fire _ _)

/-! ## Switches -/

/-- The first half of a switch to the thread `n`. -/
theorem Active.run (h : Active k) {rest : List Frame}
    (husers : SameUsers k k₁) (hs : k₁.stack = .afterRun :: rest) (hrest : ∀ g ∈ rest, ¬ g.Entry)
    (n : ThreadId) : Contexts (k₁.run n) := by
  have hentry : ∀ t f rest, (k₁.threads t).stack = f :: rest →
      f.Entry ∧ ∀ g ∈ rest, ¬ g.Entry := by
    intro t f fs hstack
    by_cases htc : t = k.currentThread
    · rw [htc, ← husers.currentThread] at hstack
      cases hs.symm.trans hstack
      exact ⟨trivial, hrest⟩
    · rcases husers.others t htc with heq | heq | heq
      · rw [heq] at hstack
        exact ⟨h.parked t htc f fs hstack, h.tails t f fs hstack⟩
      · rw [heq] at hstack
        cases hstack
      · rw [heq] at hstack
        cases hstack
        exact ⟨trivial, fun g hg => List.mem_singleton.mp hg ▸ not_false⟩
  have hstack : ∀ t, ((k₁.run n).threads t).stack = (k₁.threads t).stack :=
    fun t => k₁.runThreads_stack n t
  have huser : ∀ t, (k₁.run n).InUser t → k₁.InUser t := by
    intro t ht
    unfold Kernel.InUser at ht
    rw [hstack] at ht
    exact ht
  have hspace : ∀ t, (k₁.run n).InUser t → ∃ space, (k₁.threads t).space = some space := by
    intro t ht
    obtain ⟨ht₀, hspace, _⟩ := husers.user t (huser t ht)
    rw [hspace]
    exact h.space t ht₀
  refine ⟨fun t f rest hs => ?_, fun t _ f rest hs => ?_, fun t ht => ?_, fun hrun t ht _ => ?_,
    fun _ ht hno => ?_⟩
  · rw [hstack] at hs
    exact (hentry t f rest hs).2
  · rw [hstack] at hs
    exact (hentry t f rest hs).1
  · show ∃ space, (k₁.runThreads n t).space = some space
    rw [k₁.runThreads_space]
    exact hspace t ht
  · obtain ⟨ht₀, _, hregs, hlast⟩ := husers.user t (huser t ht)
    have hnone : k.failed = [] := husers.failed (SameContexts.nil_of_append hrun)
    have hsaved : k.Saved t ((k₁.run n).threads t).userRegisters := by
      have hregisters : ((k₁.run n).threads t).userRegisters =
          if t = k.currentThread then k.machine.registers else (k.threads t).userRegisters := by
        show (k₁.runThreads n t).userRegisters = _
        unfold Kernel.runThreads
        rw [update_same (g := Thread.userRegisters) (by rfl) t, husers.currentThread]
        by_cases htc : t = k.currentThread
        · obtain ⟨space, hs⟩ := hspace t ht
          rw [if_pos htc, ← htc, Function.update_self]
          show (if (k₁.threads t).space.isSome then k₁.machine.registers else _) = _
          rw [hs, if_pos (by rfl), husers.machine]
        · rw [if_neg htc, Function.update_of_ne htc, hregs]
      rw [hregisters]
      by_cases htc : t = k.currentThread
      · rw [if_pos htc, htc]
        exact (h.held hnone (htc ▸ ht₀) h.not_entering).1
      · rw [if_neg htc]
        exact h.stored hnone t ht₀ fun heq => absurd heq htc
    exact husers.saved (huser t ht) hsaved
  · -- The thread that comes to the processor has its entry frame.
    refine absurd ?_ hno
    have hmem : .userCode ∈ (k₁.run n).stack := ht.1
    obtain ⟨f, rest, hcons⟩ := List.exists_cons_of_ne_nil (List.ne_nil_of_mem hmem)
    refine ⟨f, rest, hcons, ?_⟩
    have hcons' : ((k₁.run n).threads n).stack = f :: rest := hcons
    rw [hstack] at hcons'
    exact (hentry n f rest hcons').1

/-- The second half. -/
theorem Contexts.restore (h : Contexts k) {f : Frame} {rest : List Frame}
    (hs : k.stack = f :: rest) (hf : f.Entry) : Active (k.restore.setStack rest) := by
  have hno : ∀ g ∈ rest, ¬ g.Entry := h.tails _ f rest hs
  have hexit : f ≠ .exit := by
    rintro rfl
    exact hf
  have hsame : SameContexts k (k.setStack rest) := .pop hs hexit
  have hstack : (k.restore.setStack rest).stack = rest := Kernel.setStack_stack _ _
  have hothers : ∀ t, t ≠ k.currentThread →
      ((k.restore.setStack rest).threads t).stack = (k.threads t).stack := by
    intro t ht
    show (Function.update k.threads k.currentThread _ t).stack = _
    rw [Function.update_of_ne ht]
  have hnoEntry : ∀ g ∈ (k.restore.setStack rest).stack, ¬ g.Entry := by
    rw [hstack]
    exact hno
  refine ⟨⟨fun t g fs hcons => ?_, fun t ht g fs hcons => ?_, fun t ht => ?_,
    fun hnone t ht _ => ?_, fun hnone ht _ => ?_⟩, hnoEntry⟩
  · by_cases htc : t = k.currentThread
    · intro g' hg'
      refine hnoEntry g' ?_
      rw [htc] at hcons
      rw [show (k.restore.setStack rest).stack = g :: fs from hcons]
      exact List.mem_cons_of_mem g hg'
    · rw [hothers t htc] at hcons
      exact h.tails t g fs hcons
  · have htc : t ≠ k.currentThread := ht
    rw [hothers t htc] at hcons
    exact h.parked t htc g fs hcons
  · obtain ⟨ht₀, hspace, _⟩ := hsame.user t ht
    obtain ⟨space, hs⟩ := h.space t ht₀
    exact ⟨space, hspace.trans hs⟩
  · obtain ⟨ht₀, _, hregs, _⟩ := hsame.user t ht
    show k.Saved t ((k.setStack rest).threads t).userRegisters
    rw [hregs]
    exact h.stored hnone t ht₀ fun _ => ⟨f, rest, hs, hf⟩
  · obtain ⟨ht₀, hspace, _⟩ := hsame.user k.currentThread ht
    obtain ⟨space, hs'⟩ := h.space _ ht₀
    have hmachine : (k.restore.setStack rest).machine =
        (k.threads k.currentThread).restoreState k.machine := rfl
    unfold Thread.restoreState at hmachine
    rw [hs'] at hmachine
    refine ⟨?_, space, hspace.trans hs', ?_⟩
    · rw [hmachine]
      exact h.stored hnone _ ht₀ fun _ => ⟨f, rest, hs, hf⟩
    · unfold Kernel.Maps
      rw [hmachine]
      exact ⟨rfl, rfl⟩

theorem Active.yield (h : Active k) : Contexts k.yield := by
  have hback : ∀ g : Frame, g = .setLevel k.interrupt.level ∨
      g = .ret .yield k.interrupt.level k.interrupt.status → g ≠ .userCode ∧ ¬ g.Entry := by
    rintro g (rfl | rfl) <;> exact ⟨nofun, not_false⟩
  cases hnext : k.findNextToRun with
  | none =>
    rw [Kernel.yield_none hnext]
    refine (h.same ((SameContexts.changeLevel k .off).trans (.push fun f hf => ?_))).toContexts
    exact hback f (List.mem_pair.mp hf)
  | some next =>
    rw [Kernel.yield_some hnext]
    have hready : SameUsers k { k.changeLevel .off with readyList := next.2 } :=
      (SameContexts.ofSame rfl rfl rfl rfl id : SameContexts k
        { k.changeLevel .off with readyList := next.2 }).toSameUsers
    have hpush : SameUsers { k.changeLevel .off with readyList := next.2 }
        (Kernel.push { k.changeLevel .off with readyList := next.2 }
          [.afterRun, .setLevel k.interrupt.level,
            .ret .yield k.interrupt.level k.interrupt.status]) := by
      refine .setStack fun huser hexit => ⟨?_, fun hmem => hexit (List.mem_append_right _ hmem)⟩
      exact (List.mem_append.mp huser).resolve_left (by simp)
    have hstack : (Kernel.readyToRun (Kernel.push { k.changeLevel .off with readyList := next.2 }
        [.afterRun, .setLevel k.interrupt.level,
          .ret .yield k.interrupt.level k.interrupt.status]) k.currentThread).stack
        = .afterRun :: ([.setLevel k.interrupt.level,
          .ret .yield k.interrupt.level k.interrupt.status] ++ k.stack) := by
      rw [(SameControl.readyToRun _).frames, Kernel.push_stack]
      rfl
    have husers := (hready.trans hpush).trans (SameContexts.readyToRun k.currentThread).toSameUsers
    refine h.run husers hstack (fun g hg => ?_) next.1
    rcases List.mem_append.mp hg with hg | hg
    · exact (hback g (List.mem_pair.mp hg)).2
    · exact h.noEntry g hg

/-! ## User code -/

/-- The current thread executes user code with the registers of `m`. -/
theorem Active.enter (h : Active k) {m : Machine} {space : AddrSpace}
    (hspace : (k.threads k.currentThread).space = some space)
    (hm : m.memory.currentPageTable = some space.pageTable ∧
      m.memory.currentPageTableSize = space.numPages) :
    Active { k.setStack [.userCode] with
      machine := m
      history := { k.history with
        lastUser := Function.update k.history.lastUser k.currentThread (some m.registers) } } := by
  have hstack : (k.setStack [.userCode]).stack = [.userCode] := Kernel.setStack_stack _ _
  have hno : ∀ f ∈ [Frame.userCode], ¬ f.Entry :=
    fun f hf => List.mem_singleton.mp hf ▸ not_false
  have hspaces : ∀ t, ((k.setStack [.userCode]).threads t).space = (k.threads t).space :=
    fun t => update_same (g := Thread.space) (by rfl) t
  have hothers : ∀ t, t ≠ k.currentThread →
      (k.setStack [.userCode]).threads t = k.threads t :=
    fun t ht => Function.update_of_ne ht _ _
  refine ⟨⟨fun t f rest hs => ?_, fun t ht f rest hs => ?_, fun t ht => ?_,
    fun hnone t ht hentering => ?_, fun _ _ _ => ?_⟩, ?_⟩
  · by_cases htc : t = k.currentThread
    · rw [htc] at hs
      cases hstack.symm.trans hs
      exact nofun
    · have hs' : ((k.setStack [.userCode]).threads t).stack = f :: rest := hs
      rw [hothers t htc] at hs'
      exact h.tails t f rest hs'
  · have hs' : ((k.setStack [.userCode]).threads t).stack = f :: rest := hs
    rw [hothers t ht] at hs'
    exact h.parked t ht f rest hs'
  · show ∃ space, ((k.setStack [.userCode]).threads t).space = some space
    rw [hspaces]
    by_cases htc : t = k.currentThread
    · exact ⟨space, htc ▸ hspace⟩
    · refine h.space t ?_
      have ht' : (k.setStack [.userCode]).InUser t := ht
      unfold Kernel.InUser at ht'
      rw [hothers t htc] at ht'
      exact ht'
  · by_cases htc : t = k.currentThread
    · obtain ⟨f, rest, hs, hf⟩ := hentering htc
      cases hstack.symm.trans hs
      exact absurd hf not_false
    · have ht' : (k.setStack [.userCode]).InUser t := ht
      unfold Kernel.InUser at ht'
      rw [hothers t htc] at ht'
      obtain ⟨r₀, hlast, hr⟩ := h.stored hnone t ht' fun heq => absurd heq htc
      refine ⟨r₀, (Function.update_of_ne htc _ _).trans hlast, ?_⟩
      show ((k.setStack [.userCode]).threads t).userRegisters = _ ∨ _
      rw [hothers t htc]
      exact hr
  · exact ⟨⟨m.registers, Function.update_self _ _ _, .inl rfl⟩, space, (hspaces _).trans hspace, hm⟩
  · show ∀ f ∈ (k.setStack [.userCode]).stack, _
    rw [hstack]
    exact hno

theorem UserStep.contexts (h : UserStep k k') (hk : Active k) (hnone : k.failed = [])
    (hs : k.stack = [.userCode]) : Contexts k' := by
  have hsame : k.setStack [.userCode] = k := by
    rw [← hs]
    unfold Kernel.setStack Kernel.stack
    rw [Function.update_eq_self]
  cases h with
  | @executed m hrun =>
    have hin : k.InUser k.currentThread := by
      unfold Kernel.InUser
      rw [show (k.threads k.currentThread).stack = [.userCode] from hs]
      decide
    obtain ⟨_, space, hspace, hmaps⟩ := hk.held hnone hin hk.not_entering
    have htables : SameTables k.machine.memory m.memory := by
      obtain ⟨i, n, hexec⟩ := (oneInstruction_triple k.machine).ok rfl hrun
      obtain ⟨m₂, heffect, rfl⟩ := hexec.effect
      rcases heffect.memory with hused | ⟨_, hstored⟩
      · exact hused.toSameTables
      · exact hstored.toSameTables
    have henter := hk.enter (m := m) hspace
      ⟨htables.currentPageTable.trans hmaps.1, htables.currentPageTableSize.trans hmaps.2⟩
    rw [hsame] at henter
    exact (henter.same (.oneTick _)).toContexts
  | @halt m hrun hcall =>
    -- The thread does not come back from `Cleanup`.
    have hexit : Active (k.push [.exit]) := hk.same (.push fun f hf => by
      rw [List.mem_singleton.mp hf]
      exact ⟨nofun, not_false⟩)
    have hgone : ¬ (k.push [.exit]).InUser k.currentThread := by
      unfold Kernel.InUser
      rw [show ((k.push [.exit]).threads k.currentThread).stack = _ from Kernel.push_stack k _]
      exact fun h => h.2 List.mem_cons_self
    have hmachine : Active { k.push [.exit] with machine := m } :=
      { hexit with held := fun _ h => absurd h hgone }
    have hhalted : SameContexts { k.push [.exit] with machine := m }
        (Kernel.push { { k.setStatus .system with machine := m } with halted := true } [.exit]) :=
      .ofSame rfl rfl rfl rfl id
    exact (hmachine.same (hhalted.trans (.setLevel _ .on))).toContexts
  | trap hrun hno =>
    have hfailed : k.failed ++ [.userException] ≠ [] :=
      List.append_ne_nil_of_right_ne_nil _ (List.cons_ne_nil _ _)
    exact { hk.toContexts with
      stored := fun h => absurd h hfailed
      held := fun h => absurd h hfailed }

/-! ## Every step -/

theorem CodeStep.contexts (h : CodeStep k k') (hk : Active k) (hcontrol : Controlled k)
    (hs : k.stack = [.code]) : Contexts k' := by
  have hout : ∀ t, (t = k.currentThread ∨ (k.threads t).status = .justCreated) →
      ¬ k.InUser t := by
    rintro t (rfl | ht) hin
    · exact absurd (show .userCode ∈ k.stack from hin.1) (hs ▸ by decide)
    · exact absurd hin.1 (hcontrol.created t ht ▸ List.not_mem_nil)
  cases h with
  | newThread junk => exact (hk.same (.newThread junk)).toContexts
  | newAddrSpace table program => exact { hk.toContexts with }
  | setSpace t space ht =>
    exact (hk.same (.setSpace (hout t (ht.imp_right And.right)) space)).toContexts
  | start t halive hstatus =>
    refine (hk.same (.start ?_)).toContexts
    rintro rfl
    have hempty := hcontrol.created _ hstatus
    exact absurd (hs.symm.trans hempty) (List.cons_ne_nil _ _)
  | yield => exact hk.yield
  | p s => exact (hk.same (.p s)).toContexts
  | v s => exact (hk.same (.v s)).toContexts
  | setLevel level => exact (hk.same (.setLevel k level)).toContexts
  | schedule handler fromNow =>
    have hsame : SameContexts k (k.schedule handler (fromNow + 1)) :=
      .ofSame rfl rfl rfl rfl SameContexts.nil_of_append
    exact (hk.same hsame).toContexts
  | finish => exact (hk.same (.finish k)).toContexts
  | powerdown => exact (hk.same (.powerdown k)).toContexts
  | enterUser space hspace hlevel =>
    have henter := hk.enter (m :=
      { registers := space.initRegisters
        memory := { k.machine.memory with
          currentPageTable := some space.pageTable
          currentPageTableSize := space.numPages } }) hspace ⟨rfl, rfl⟩
    have hsame : Active (k.enterUser space) := by
      refine henter.same ?_
      exact .ofSame rfl rfl rfl rfl id
    exact hsame.toContexts

theorem Contexts.destroy (h : Contexts k) : Contexts k.destroy ∧ k.destroy.stack = k.stack := by
  unfold Kernel.destroy
  cases k.threadToBeDestroyed with
  | none => exact ⟨h, rfl⟩
  | some t =>
    have hfailed : ∀ {l l' : List Assertion}, k.failed ++ l ++ l' = [] → k.failed = [] :=
      fun h => SameContexts.nil_of_append (SameContexts.nil_of_append h)
    exact ⟨{ h with
      stored := fun hnone => h.stored (hfailed hnone)
      held := fun hnone => h.held (hfailed hnone) }, rfl⟩

theorem FrameStep.contexts (h : FrameStep k k') (hk : Contexts k) (hcontrol : Controlled k)
    (hnone : k.failed = []) : Contexts k' := by
  have hactive : ∀ {f : Frame} {rest : List Frame}, k.stack = f :: rest → ¬ f.Entry → Active k :=
    fun hs hf => hk.active hs hf
  cases h with
  | code hs hcode => exact hcode.contexts (hactive hs not_false) hcontrol hs
  | userCode hs huser => exact huser.contexts (hactive hs not_false) hnone hs
  | ret hs =>
    exact ((hactive hs not_false).same
      ((SameContexts.pop hs nofun).trans (.returned _ _ _))).toContexts
  | setLevel hs =>
    exact ((hactive hs not_false).same
      ((SameContexts.pop hs nofun).trans (.setLevel _ _))).toContexts
  | tickFire hs hfire => exact ((hactive hs not_false).fires hfire).toContexts
  | @tickDone old rest k₁ hs hdue =>
    have hcheck := SameContexts.checkIfDue k false
    rw [hdue] at hcheck
    have hk₁ : Active k₁ := (hactive hs not_false).same hcheck
    have hs₁ : k₁.stack = .tickLoop old :: rest := by
      have hframes : (k.checkIfDue false).2.stack = k.stack := rfl
      rw [hdue] at hframes
      exact hframes.trans hs
    by_cases hy : k₁.interrupt.yieldOnReturn = true
    · rw [Kernel.tickDone_yield hy]
      have hreplace : SameContexts k₁ (k₁.setStack (.tickStatus old :: rest)) :=
        .replace hs₁ nofun ⟨nofun, not_false⟩
      have hsame : SameContexts (k₁.setStack (.tickStatus old :: rest))
          ({ k₁.changeLevel .on with
            interrupt := { (k₁.changeLevel .on).interrupt with
              yieldOnReturn := false, status := .system } }.setStack (.tickStatus old :: rest)) :=
        .ofSame rfl rfl rfl rfl id
      exact (hk₁.same (hreplace.trans hsame)).yield
    · rw [Kernel.tickDone_return hy]
      exact (hk₁.same ((SameContexts.pop hs₁ nofun).trans (.changeLevel _ .on))).toContexts
  | tickStatus hs =>
    exact ((hactive hs not_false).same
      ((SameContexts.pop hs nofun).trans (.setStatus _ _))).toContexts
  | afterRun hs =>
    obtain ⟨hd, hstack⟩ := hk.destroy
    exact (hd.restore (hstack.trans hs) trivial).toContexts
  | setup hs =>
    obtain ⟨hd, hstack⟩ := hk.destroy
    exact ((hd.restore (hstack.trans hs) trivial).same (.setLevel _ .on)).toContexts
  | pLoop hs =>
    exact ((hactive hs not_false).same ((SameContexts.pop hs nofun).trans (.pTest _))).toContexts
  | @sleepRun n rest ready hs hnext =>
    have hsame : SameContexts k { k with readyList := ready } := .ofSame rfl rfl rfl rfl id
    have hready : SameUsers k { k with readyList := ready } := hsame.toSameUsers
    refine (hactive hs not_false).run (hready.trans (.setStack fun huser hexit => ?_))
      (Kernel.setStack_stack _ _) (hk.tails _ _ _ hs) n
    have hpop := (SameContexts.pop hs nofun).user k.currentThread
    refine (hpop ?_).1
    unfold Kernel.InUser
    rw [show ((k.setStack rest).threads k.currentThread).stack = rest from k.setStack_stack rest]
    refine ⟨(List.mem_cons.mp huser).resolve_left nofun, fun h => ?_⟩
    exact hexit (List.mem_cons_of_mem _ h)
  | sleepFire hs hnext hfire =>
    have hidle := (hactive hs not_false).same (.setStatus k .idle)
    refine ((hidle.fires hfire).same (.push fun f hf => ?_)).toContexts
    rw [List.mem_singleton.mp hf]
    exact ⟨nofun, not_false⟩
  | sleepDone hs hnext hdue =>
    have hcheck := SameContexts.checkIfDue (k.setStatus .idle) true
    rw [hdue] at hcheck
    exact ((hactive hs not_false).same
      (((SameContexts.setStatus k .idle).trans hcheck).trans (.powerdown _))).toContexts
  | idleFire hs hfire => exact ((hactive hs not_false).fires hfire).toContexts
  | @idleDone rest k₁ hs hdue =>
    have hcheck := SameContexts.checkIfDue k false
    rw [hdue] at hcheck
    have hs₁ : k₁.stack = .idleLoop :: rest := by
      have hframes : (k.checkIfDue false).2.stack = k.stack := rfl
      rw [hdue] at hframes
      exact hframes.trans hs
    have hsame : SameContexts (k₁.setStack rest) (k₁.idleDone rest) := .ofSame rfl rfl rfl rfl id
    exact (((hactive hs not_false).same hcheck).same
      ((SameContexts.pop hs₁ nofun).trans hsame)).toContexts

/-! ## Every run -/

variable {start : SemId → Int}

theorem Initial.contexts (h : Initial start k) : Contexts k := by
  have hstack : ∀ t, (k.threads t).stack = [.code] ∨ (k.threads t).stack = [] := by
    intro t
    by_cases ht : t = k.currentThread
    · exact .inl (ht ▸ h.mainStack)
    · exact .inr (h.others t ht)
  have hout : ∀ t, ¬ k.InUser t := by
    intro t ht
    rcases hstack t with heq | heq
    · exact absurd (heq ▸ ht.1) (by decide)
    · exact absurd (heq ▸ ht.1) List.not_mem_nil
  refine ⟨fun t f rest hs => ?_, fun t ht f rest hs => ?_, fun t ht => absurd ht (hout t),
    fun _ t ht => absurd ht (hout t), fun _ ht => absurd ht (hout _)⟩
  · rcases hstack t with heq | heq
    · cases heq.symm.trans hs
      exact nofun
    · cases heq.symm.trans hs
  · cases (h.others t ht).symm.trans hs

theorem contexts_of_reachable (h : (system start).Reachable k) : Contexts k :=
  System.InductiveUnder.reachable (S := system start) (J := Controlled) (I := Contexts)
    ⟨fun _ hinit => hinit.contexts,
      fun _ _ hcontrol hk hstep => hstep.2.contexts hk hcontrol hstep.1⟩
    (fun _ => controlled_of_reachable) h

/-- **User contexts.**  Whenever the program of a thread is about to execute an
instruction, the machine has the registers the thread had when it last stopped
executing user code, the pending load done or not, and the page table of its address
space. -/
theorem user_context (h : (system start).Reachable k) (hnone : k.failed = [])
    (huser : k.stack = [.userCode]) :
    ∃ r space, k.history.lastUser k.currentThread = some r ∧
      (k.machine.registers = r ∨ k.machine.registers = loaded r 0 0) ∧
      (k.threads k.currentThread).space = some space ∧
      k.machine.memory.currentPageTable = some space.pageTable ∧
      k.machine.memory.currentPageTableSize = space.numPages := by
  have hin : k.InUser k.currentThread := by
    unfold Kernel.InUser
    rw [show (k.threads k.currentThread).stack = [.userCode] from huser]
    decide
  have hk := (contexts_of_reachable h).active huser not_false
  obtain ⟨⟨r, hlast, hr⟩, space, hspace, hmaps⟩ := hk.held hnone hin hk.not_entering
  exact ⟨r, space, hlast, hr, hspace, hmaps.1, hmaps.2⟩

/-- Pages in the frames of their own numbers, full of `SLL r0, r0, 0`. -/
def noOperations : Machine where
  registers := fun _ => 0
  memory :=
    { mainMemory := fun _ => 0
      tlb := none
      pageTables := fun _ vpn =>
        ⟨BitVec.ofNat 32 vpn, BitVec.ofNat 32 vpn, true, false, false, false⟩
      currentPageTable := none
      currentPageTableSize := 0 }

/-- `main` is back in its program, after the timer has taken the processor from it and then
from the program of thread 1. -/
theorem user_context_preempted : ∃ k, (system fun _ => 0).Reachable k ∧
    k.currentThread = 0 ∧ (k.threads 1).stack.getLast? = some .userCode ∧
    ∃ r space, k.history.lastUser k.currentThread = some r ∧
      (k.machine.registers = r ∨ k.machine.registers = loaded r 0 0) ∧
      (k.threads k.currentThread).space = some space ∧
      k.machine.memory.currentPageTable = some space.pageTable ∧
      k.machine.memory.currentPageTableSize = space.numPages := by
  have hs : (system fun _ => 0).Reachable { boot fun _ => 0 with machine := noOperations } :=
    .of_init { boot_initial fun _ => le_rfl with }
  have hs := hs.step ⟨rfl, .code rfl (.newThread fun _ => 0)⟩
  have hs := hs.step ⟨rfl, .code rfl (.setSpace 1 ⟨1, 2⟩ (.inr ⟨by decide, rfl⟩))⟩
  have hs := hs.step ⟨rfl, .code rfl (.start 1 (by decide) rfl)⟩
  have hs := hs.step ⟨rfl, .setLevel rfl⟩
  have hs := hs.step ⟨rfl, .ret rfl⟩
  have hs := hs.step ⟨rfl, .code rfl (.setSpace 0 ⟨0, 2⟩ (.inl rfl))⟩
  have hs := hs.step ⟨rfl, .code rfl (.setLevel .on)⟩
  have hs := hs.step ⟨rfl, .tickDone rfl rfl⟩
  have hs := hs.step ⟨rfl, .ret rfl⟩
  have hs := hs.step ⟨rfl, .code rfl (.schedule .timerExpired 0)⟩
  have hs := hs.step ⟨rfl, .code rfl (.enterUser ⟨0, 2⟩ rfl rfl)⟩
  -- an instruction of `main`, and the timer
  have hs := hs.step ⟨rfl, .userCode rfl (.executed
    (run_machineAfter (j := pcReg) (v := userStartAddress + 4) (by decide +kernel)))⟩
  have hs := hs.step ⟨rfl, .tickFire rfl (.fire rfl
    (.user rfl (run_machineAfter (j := 0) (v := 0) (by decide +kernel))) (.timerExpired 10))⟩
  have hs := hs.step ⟨rfl, .tickDone rfl rfl⟩
  have hs := hs.step ⟨rfl, .setup rfl⟩
  have hs := hs.step ⟨rfl, .tickDone rfl rfl⟩
  have hs := hs.step ⟨rfl, .ret rfl⟩
  -- the same in thread 1
  have hs := hs.step ⟨rfl, .code rfl (.enterUser ⟨1, 2⟩ rfl rfl)⟩
  have hs := hs.step ⟨rfl, .userCode rfl (.executed
    (run_machineAfter (j := pcReg) (v := userStartAddress + 4) (by decide +kernel)))⟩
  have hs := hs.step ⟨rfl, .tickFire rfl (.fire rfl
    (.user rfl (run_machineAfter (j := 0) (v := 0) (by decide +kernel))) (.timerExpired 100))⟩
  have hs := hs.step ⟨rfl, .tickDone rfl rfl⟩
  -- back to `main`
  have hs := hs.step ⟨by decide +kernel, @FrameStep.afterRun _
    [.setLevel .on, .ret .yield .on .system, .tickStatus .user, .ret .oneTick .on .user, .userCode]
    (by decide +kernel)⟩
  have hs := hs.step ⟨by decide +kernel, @FrameStep.setLevel _ .on
    [.ret .yield .on .system, .tickStatus .user, .ret .oneTick .on .user, .userCode]
    (by decide +kernel)⟩
  have hs := hs.step ⟨by decide +kernel, @FrameStep.tickDone _ .system
    [.ret .oneTick .on .system, .ret .yield .on .system, .tickStatus .user,
      .ret .oneTick .on .user, .userCode] _
    (by decide +kernel) rfl⟩
  have hs := hs.step ⟨by decide +kernel, @FrameStep.ret _ .oneTick .on .system
    [.ret .yield .on .system, .tickStatus .user, .ret .oneTick .on .user, .userCode]
    (by decide +kernel)⟩
  have hs := hs.step ⟨by decide +kernel, @FrameStep.ret _ .yield .on .system
    [.tickStatus .user, .ret .oneTick .on .user, .userCode]
    (by decide +kernel)⟩
  have hs := hs.step ⟨by decide +kernel, @FrameStep.tickStatus _ .user
    [.ret .oneTick .on .user, .userCode]
    (by decide +kernel)⟩
  have hs := hs.step ⟨by decide +kernel, @FrameStep.ret _ .oneTick .on .user [.userCode]
    (by decide +kernel)⟩
  exact ⟨_, hs, by decide +kernel, by decide +kernel,
    user_context hs (by decide +kernel) (by decide +kernel)⟩

end Threads
end Nachos
