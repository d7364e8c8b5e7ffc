import Nachos.Machine.Placement
import Nachos.Threads.UserContext

/-!
# One processor for each program

Instructions of other programs, interrupts and switches come between the instructions
of a program.  As long as the others have no frame of it mapped for writing, and none is
loaded into one, it computes what it computes on a machine of its own.
-/

namespace Nachos
namespace Threads

open Lib Machine

/-! ## The machine of a program -/

/-- A machine that runs one program only.  Interrupts do the load that is pending. -/
inductive Alone (p : Machine) : Machine → Prop
  | instruction {p' : Machine} (hrun : oneInstruction p = .ok () p') : Alone p p'
  | interrupt {p' : Machine} (hload : delayedLoad 0 0 p = .ok () p') : Alone p p'

namespace Kernel

variable (k : Kernel)

/-- Memory with the page table of the address space. -/
def memoryOf (space : AddrSpace) : Memory :=
  { k.machine.memory with
    currentPageTable := some space.pageTable
    currentPageTableSize := space.numPages }

/-- The registers and the memory of a thread in user code.  Its registers are in the
processor, or in its control block until the end of the switch to it. -/
inductive Context (t : ThreadId) (space : AddrSpace) : Machine → Prop
  | processor (ht : t = k.currentThread) (hno : ¬ Entering k.stack) :
      Context t space ⟨k.machine.registers, k.memoryOf space⟩
  | saved (hs : t = k.currentThread → Entering k.stack) :
      Context t space ⟨(k.threads t).userRegisters, k.memoryOf space⟩

/-- Nobody else has a frame of the address space mapped for writing. -/
def Apart (t : ThreadId) (space : AddrSpace) : Prop :=
  ∀ u, u ≠ t → ∀ other, (k.threads u).space = some other →
    ∀ f, (k.memoryOf other).Maps f true → ¬ (k.memoryOf space).InFrame f

end Kernel

/-- A step that does not end the program of `t`. -/
structure Undisturbed (t : ThreadId) (space : AddrSpace) (k k' : Kernel) : Prop where
  step : Step k k'
  failed : k'.failed = []
  inUser : k'.InUser t
  apart : k.Apart t space
  /-- a program that is loaded goes into other frames -/
  loads : k.stack = [.code] → ∀ a : Fin memorySize,
    (k.memoryOf space).InFrame (a.val / pageSize) →
      k'.machine.memory.mainMemory a = k.machine.memory.mainMemory a

variable {k k₁ k₂ k₃ k' : Kernel} {t : ThreadId} {space : AddrSpace}

/-! ## Steps in which no instruction is executed -/

theorem memoryOf_sameTables (h : SameTables k.machine.memory k'.machine.memory)
    (space : AddrSpace) : SameTables (k.memoryOf space) (k'.memoryOf space) :=
  ⟨h.tlb, h.pageTables, rfl, rfl⟩

/-- The program of `t` is where it was, and so are all bytes. -/
structure Kept (t : ThreadId) (k k' : Kernel) : Prop where
  inUser : k.InUser t
  space : (k'.threads t).space = (k.threads t).space
  lastUser : k'.history.lastUser t = k.history.lastUser t
  tables : ∀ space, SameTables (k.memoryOf space) (k'.memoryOf space)
  mainMemory : k'.machine.memory.mainMemory = k.machine.memory.mainMemory

namespace Kept

theorem trans (h : Kept t k₁ k₂) (h' : Kept t k₂ k₃) : Kept t k₁ k₃ :=
  ⟨h.inUser, h'.space.trans h.space, h'.lastUser.trans h.lastUser,
    fun space => (h.tables space).trans (h'.tables space), h'.mainMemory.trans h.mainMemory⟩

theorem ofUsers (h : SameUsers k k') (ht : k'.InUser t) : Kept t k k' := by
  obtain ⟨hin, hspace, _, hlast⟩ := h.user t ht
  refine ⟨hin, hspace, hlast, memoryOf_sameTables ?_, ?_⟩
  · rw [h.machine]
    exact .refl _
  · rw [h.machine]

/-- Before a step that the threads do not notice. -/
theorem before (h : Kept t k₁ k₂) (husers : SameUsers k k₁) : Kept t k k₂ :=
  (ofUsers husers h.inUser).trans h

/-- After one. -/
theorem after (husers : SameUsers k₁ k₂) (ht : k₂.InUser t)
    (h : k₁.InUser t → Kept t k k₁) : Kept t k k₂ := by
  have hkept := ofUsers husers ht
  exact (h hkept.inUser).trans hkept

/-- The machine has changed, but for main memory and the mappings. -/
theorem machine {m : Machine} (ht : k.InUser t) (htables : SameTables k.machine.memory m.memory)
    (hbytes : m.memory.mainMemory = k.machine.memory.mainMemory) :
    Kept t k { k with machine := m } :=
  ⟨ht, rfl, rfl, memoryOf_sameTables htables, hbytes⟩

theorem interrupted {m : Machine} (ht : k.InUser t) (hm : Interrupted k m) :
    Kept t k { k with machine := m } := by
  have hmemory : m.memory = k.machine.memory := by
    cases hm with
    | kernel _ => rfl
    | user _ hrun => rw [(delayedLoad_triple k.machine 0 0).ok rfl hrun]
  refine machine ht ?_ ?_
  · rw [hmemory]
    exact .refl _
  · rw [hmemory]

theorem fires {advanceClock : Bool} (hfire : Fires k advanceClock k') (ht : k'.InUser t) :
    Kept t k k' := by
  cases hfire with
  | @fire _ k₁ _ _ hdue hm _ =>
    have hcheck := SameContexts.checkIfDue k advanceClock
    rw [hdue] at hcheck
    refine after (SameContexts.fire _ _).toSameUsers ht fun ht => ?_
    have hin : k₁.InUser t := ht
    exact (interrupted hin hm).before hcheck.toSameUsers

/-- The first half of a switch. -/
theorem run {n : ThreadId} (ht : (k.run n).InUser t) : Kept t k (k.run n) := by
  refine ⟨?_, k.runThreads_space n t, rfl, fun _ => .refl _, rfl⟩
  unfold Kernel.InUser at ht
  rw [show ((k.run n).threads t).stack = (k.threads t).stack from k.runThreads_stack n t] at ht
  exact ht

/-- The second half. -/
theorem restore {f : Frame} {rest : List Frame} (hs : k.stack = f :: rest) (hf : f.Entry)
    (ht : (k.destroy.restore.setStack rest).InUser t) :
    Kept t k (k.destroy.restore.setStack rest) := by
  have hdestroy := SameContexts.destroy k
  have hstack : k.destroy.stack = f :: rest := by
    unfold Kernel.stack
    rw [hdestroy.currentThread]
    unfold Kernel.destroy
    cases k.threadToBeDestroyed <;> exact hs
  have hrestore : ∀ k₁ : Kernel, k₁.InUser t → Kept t k₁ k₁.restore := by
    intro k₁ ht
    unfold Kernel.restore Thread.restoreState
    cases (k₁.threads k₁.currentThread).space with
    | none => exact machine ht (.refl _) rfl
    | some space => exact ⟨ht, rfl, rfl, fun _ => .refl _, rfl⟩
  have hexit : f ≠ .exit := by
    rintro rfl
    exact hf
  refine after (SameContexts.pop (k := k.destroy.restore) hstack hexit).toSameUsers ht fun ht => ?_
  exact (hrestore k.destroy ht).before hdestroy.toSameUsers

end Kept

namespace Kept

theorem yield (ht : k.yield.InUser t) : Kept t k k.yield := by
  have hback : ∀ g : Frame, g = .setLevel k.interrupt.level ∨
      g = .ret .yield k.interrupt.level k.interrupt.status → g ≠ .userCode ∧ ¬ g.Entry := by
    rintro g (rfl | rfl) <;> exact ⟨nofun, not_false⟩
  cases hnext : k.findNextToRun with
  | none =>
    rw [Kernel.yield_none hnext] at ht ⊢
    refine ofUsers ((SameContexts.changeLevel k .off).trans (.push fun f hf => ?_)).toSameUsers ht
    exact hback f (List.mem_pair.mp hf)
  | some next =>
    rw [Kernel.yield_some hnext] at ht ⊢
    have hready : SameUsers k { k.changeLevel .off with readyList := next.2 } :=
      (SameContexts.ofSame rfl rfl rfl rfl id : SameContexts k
        { k.changeLevel .off with readyList := next.2 }).toSameUsers
    refine (run ht).before ((hready.trans (.setStack fun huser hexit => ?_)).trans
      (SameContexts.readyToRun k.currentThread).toSameUsers)
    refine ⟨?_, fun hmem => hexit (List.mem_append_right _ hmem)⟩
    exact (List.mem_append.mp huser).resolve_left (by simp)

theorem codeStep (h : CodeStep k k') (hs : k.stack = [.code]) (hcontrol : Controlled k)
    (hin : k.InUser t) (ht : k'.InUser t) : Kept t k k' ∨
      ∃ table program, k.NewTable table ∧ k' = k.newAddrSpace table program := by
  have hout : ∀ u, (u = k.currentThread ∨ (k.threads u).status = .justCreated) →
      ¬ k.InUser u := by
    rintro u (rfl | hu) hin
    · exact absurd (show .userCode ∈ k.stack from hin.1) (hs ▸ by decide)
    · exact absurd hin.1 (hcontrol.created u hu ▸ List.not_mem_nil)
  cases h with
  | newThread junk => exact .inl (ofUsers (SameContexts.newThread junk).toSameUsers ht)
  | newAddrSpace table program hnew _ => exact .inr ⟨table, program, hnew, rfl⟩
  | setSpace u space hu =>
    have hsame := SameContexts.setSpace (hout u (hu.imp_right And.right)) space
    exact .inl (ofUsers hsame.toSameUsers ht)
  | start u halive hstatus =>
    refine .inl (ofUsers (SameContexts.start ?_).toSameUsers ht)
    rintro rfl
    have hempty := hcontrol.created _ hstatus
    exact absurd (hs.symm.trans hempty) (List.cons_ne_nil _ _)
  | yield => exact .inl (yield ht)
  | p s => exact .inl (ofUsers (SameContexts.p s).toSameUsers ht)
  | v s => exact .inl (ofUsers (SameContexts.v s).toSameUsers ht)
  | setLevel level => exact .inl (ofUsers (SameContexts.setLevel k level).toSameUsers ht)
  | schedule handler fromNow =>
    have hsame : SameContexts k (k.schedule handler (fromNow + 1)) :=
      .ofSame rfl rfl rfl rfl SameContexts.nil_of_append
    exact .inl (ofUsers hsame.toSameUsers ht)
  | finish => exact .inl (ofUsers (SameContexts.finish k).toSameUsers ht)
  | powerdown => exact .inl (ofUsers (SameContexts.powerdown k).toSameUsers ht)
  | enterUser space hspace hlevel =>
    -- Another thread starts its program.
    have hne : t ≠ k.currentThread := fun heq => hout t (.inl heq) hin
    have hthread : (k.enterUser space).threads t = k.threads t := Function.update_of_ne hne _ _
    refine .inl ⟨hin, by rw [hthread], Function.update_of_ne hne _ _, fun _ => ?_, rfl⟩
    exact .refl _

/-- The system call of another program that halts the machine. -/
theorem halt {m : Machine} (hrun : oneInstruction k.machine = .error (.exception .syscall) m)
    (ht : (Kernel.powerdown { k.setStatus .system with machine := m }).InUser t) :
    Kept t k (Kernel.powerdown { k.setStatus .system with machine := m }) := by
  have hused : Used k.machine.memory m.memory :=
    ((oneInstruction_triple k.machine).error rfl hrun).2
  have hpush : SameContexts k (k.push [.exit]) := .push fun f hf => by
    rw [List.mem_singleton.mp hf]
    exact ⟨nofun, not_false⟩
  have hhalted : SameContexts { k.push [.exit] with machine := m }
      (Kernel.push { { k.setStatus .system with machine := m } with halted := true } [.exit]) :=
    .ofSame rfl rfl rfl rfl id
  refine after (hhalted.trans (.setLevel _ .on)).toSameUsers ht fun ht => ?_
  have hin : (k.push [.exit]).InUser t := ht
  have hmachine : Kept t (k.push [.exit]) { k.push [.exit] with machine := m } :=
    machine hin hused.toSameTables hused.mainMemory
  exact hmachine.before hpush.toSameUsers

end Kept

/-- In each step the program of `t` is left alone, or a program is loaded, or somebody
executes an instruction. -/
theorem FrameStep.kept_or_executed (h : FrameStep k k') (hcontrol : Controlled k)
    (hin : k.InUser t) (ht : k'.InUser t) (hfailed : k'.failed = []) :
    Kept t k k' ∨
      (k.stack = [.code] ∧
        ∃ table program, k.NewTable table ∧ k' = k.newAddrSpace table program) ∨
      k.stack = [.userCode] ∧ ∃ m, oneInstruction k.machine = .ok () m ∧ k' = k.executed m := by
  cases h with
  | code hs hcode =>
    rcases Kept.codeStep hcode hs hcontrol hin ht with hkept | hloaded
    · exact .inl hkept
    · exact .inr (.inl ⟨hs, hloaded⟩)
  | userCode hs huser =>
    cases huser with
    | executed hrun => exact .inr (.inr ⟨hs, _, hrun, rfl⟩)
    | halt hrun _ => exact .inl (.halt hrun ht)
    | trap hrun hno => exact absurd hfailed (List.append_ne_nil_of_right_ne_nil _ nofun)
  | ret hs =>
    exact .inl (.ofUsers ((SameContexts.pop hs nofun).trans (.returned _ _ _)).toSameUsers ht)
  | setLevel hs =>
    exact .inl (.ofUsers ((SameContexts.pop hs nofun).trans (.setLevel _ _)).toSameUsers ht)
  | tickFire hs hfire => exact .inl (.fires hfire ht)
  | @tickDone old rest k₁ hs hdue =>
    have hcheck := SameContexts.checkIfDue k false
    rw [hdue] at hcheck
    have hs₁ : k₁.stack = .tickLoop old :: rest := by
      have hframes : (k.checkIfDue false).2.stack = k.stack := rfl
      rw [hdue] at hframes
      exact hframes.trans hs
    refine .inl ?_
    by_cases hy : k₁.interrupt.yieldOnReturn = true
    · rw [Kernel.tickDone_yield hy] at ht ⊢
      have hreplace : SameContexts k₁ (k₁.setStack (.tickStatus old :: rest)) :=
        .replace hs₁ nofun ⟨nofun, not_false⟩
      have hsame : SameContexts (k₁.setStack (.tickStatus old :: rest))
          ({ k₁.changeLevel .on with
            interrupt := { (k₁.changeLevel .on).interrupt with
              yieldOnReturn := false, status := .system } }.setStack (.tickStatus old :: rest)) :=
        .ofSame rfl rfl rfl rfl id
      exact (Kept.yield ht).before (hcheck.trans (hreplace.trans hsame)).toSameUsers
    · rw [Kernel.tickDone_return hy] at ht ⊢
      exact .ofUsers (hcheck.trans ((SameContexts.pop hs₁ nofun).trans
        (.changeLevel _ .on))).toSameUsers ht
  | tickStatus hs =>
    exact .inl (.ofUsers ((SameContexts.pop hs nofun).trans (.setStatus _ _)).toSameUsers ht)
  | afterRun hs => exact .inl (.restore hs trivial ht)
  | setup hs =>
    exact .inl (.after (SameContexts.setLevel _ .on).toSameUsers ht fun ht =>
      .restore hs trivial ht)
  | pLoop hs =>
    exact .inl (.ofUsers ((SameContexts.pop hs nofun).trans (.pTest _)).toSameUsers ht)
  | @sleepRun n rest ready hs hnext =>
    have hready : SameContexts k { k with readyList := ready } := .ofSame rfl rfl rfl rfl id
    refine .inl ((Kept.run ht).before (hready.toSameUsers.trans (.setStack fun huser hexit => ?_)))
    have hpop := (SameContexts.pop hs nofun).user k.currentThread
    refine (hpop ?_).1
    unfold Kernel.InUser
    rw [show ((k.setStack rest).threads k.currentThread).stack = rest from k.setStack_stack rest]
    refine ⟨(List.mem_cons.mp huser).resolve_left nofun, fun h => ?_⟩
    exact hexit (List.mem_cons_of_mem _ h)
  | @sleepFire rest k₁ hs hnext hfire =>
    have hpush : SameContexts k₁ (k₁.push [.idleLoop]) := .push fun f hf => by
      rw [List.mem_singleton.mp hf]
      exact ⟨nofun, not_false⟩
    exact .inl (.after hpush.toSameUsers ht fun ht =>
      (Kept.fires hfire ht).before (SameContexts.setStatus k .idle).toSameUsers)
  | sleepDone hs hnext hdue =>
    have hcheck := SameContexts.checkIfDue (k.setStatus .idle) true
    rw [hdue] at hcheck
    exact .inl (.ofUsers (((SameContexts.setStatus k .idle).trans hcheck).trans
      (.powerdown _)).toSameUsers ht)
  | idleFire hs hfire => exact .inl (.fires hfire ht)
  | @idleDone rest k₁ hs hdue =>
    have hcheck := SameContexts.checkIfDue k false
    rw [hdue] at hcheck
    have hs₁ : k₁.stack = .idleLoop :: rest := by
      have hframes : (k.checkIfDue false).2.stack = k.stack := rfl
      rw [hdue] at hframes
      exact hframes.trans hs
    have hsame : SameContexts (k₁.setStack rest) (k₁.idleDone rest) := .ofSame rfl rfl rfl rfl id
    exact .inl (.ofUsers ((hcheck.trans (SameContexts.pop hs₁ nofun)).trans hsame).toSameUsers ht)

/-! ## A step of the program and a step beside it -/

theorem memoryOf_of_maps (h : k.Maps space) : k.memoryOf space = k.machine.memory := by
  unfold Kernel.memoryOf
  rw [← h.1, ← h.2]

theorem loadReg_lt_of_oneInstruction {m m' : Machine} (hrun : oneInstruction m = .ok () m') :
    (m'.registers loadReg).toNat < numTotalRegs := by
  obtain ⟨i, n, hexec⟩ := (oneInstruction_triple m).ok rfl hrun
  obtain ⟨m₂, heffect, rfl⟩ := hexec.effect
  have hload : retired m₂.registers n loadReg = n.nextLoadReg := rfl
  show (retired m₂.registers n loadReg).toNat < numTotalRegs
  rw [hload]
  rcases heffect.load with h0 | ⟨_, hrt⟩
  · rw [h0]
    decide
  · rw [hrt, regNo_toNat]
    exact i.rt.isLt.trans (by decide)

/-- The machine that runs the program of `t` alone has come as far as the program. -/
structure Matches (π : Nat → Nat) (t : ThreadId) (space : AddrSpace) (k : Kernel) (p : Machine) :
    Prop where
  inUser : k.InUser t
  hasSpace : (k.threads t).space = some space
  lastUser : k.history.lastUser t = some p.registers
  memory : Placed π (k.memoryOf space) p.memory
  loadReg : (p.registers loadReg).toNat < numTotalRegs

namespace Matches

variable {π : Nat → Nat} {p : Machine}

/-- The pages of the program have the same bytes as before. -/
theorem still (h : Matches π t space k p) (ht : k'.InUser t)
    (hspace : (k'.threads t).space = (k.threads t).space)
    (hlast : k'.history.lastUser t = k.history.lastUser t)
    (htables : SameTables (k.memoryOf space) (k'.memoryOf space))
    (hbytes : ∀ a : Fin memorySize, (k.memoryOf space).InFrame (a.val / pageSize) →
      k'.machine.memory.mainMemory a = k.machine.memory.mainMemory a) :
    Matches π t space k' p := by
  exact ⟨ht, hspace.trans h.hasSpace, hlast.trans h.lastUser,
    h.memory.sameBytes htables hbytes, h.loadReg⟩

theorem kept (h : Matches π t space k p) (hkept : Kept t k k') (ht : k'.InUser t) :
    Matches π t space k' p :=
  h.still ht hkept.space hkept.lastUser (hkept.tables space)
    fun a _ => congrFun hkept.mainMemory a

/-- A program is loaded into other frames. -/
theorem loaded (h : Matches π t space k p) {table : TableId} {program : UserProg.AddrSpace}
    (hnew : k.NewTable table)
    (hbytes : ∀ a : Fin memorySize, (k.memoryOf space).InFrame (a.val / pageSize) →
      (k.newAddrSpace table program).machine.memory.mainMemory a =
        k.machine.memory.mainMemory a) :
    Matches π t space (k.newAddrSpace table program) p := by
  have hne : (k.memoryOf space).currentPageTable ≠ some table := fun heq =>
    hnew.1 t space h.hasSpace (Option.some.inj heq)
  refine ⟨h.inUser, h.hasSpace, h.lastUser, ?_, h.loadReg⟩
  exact (h.memory.setTable hne _).sameBytes ⟨rfl, fun _ _ => rfl, rfl, rfl⟩ fun a ha =>
    hbytes a ((inFrame_setTable hne).mp ha)

/-- The page table of the address space is current when its program runs. -/
theorem held (hk : Contexts k) (hnone : k.failed = []) (hs : k.stack = [.userCode]) : k.Holds := by
  have hin : k.InUser k.currentThread := by
    unfold Kernel.InUser
    rw [show (k.threads k.currentThread).stack = [.userCode] from hs]
    decide
  exact hk.held hnone hin (hk.active hs not_false).not_entering

/-- Another program executes an instruction. -/
theorem other (h : Matches π t space k p) {m : Machine} (hholds : k.Holds)
    (hne : t ≠ k.currentThread) (hrun : oneInstruction k.machine = .ok () m)
    (hapart : k.Apart t space) : Matches π t space (k.executed m) p := by
  have hconfined : Confined k.machine.memory m.memory := confined_of_step (.executed hrun)
  obtain ⟨_, other, hother, hmaps⟩ := hholds
  have hthread : ((k.executed m).threads t) = k.threads t := Function.update_of_ne hne _ _
  have hin : (k.executed m).InUser t := by
    unfold Kernel.InUser
    rw [hthread]
    exact h.inUser
  have htables : SameTables (k.memoryOf space) ((k.executed m).memoryOf space) :=
    memoryOf_sameTables hconfined.toSameTables space
  refine h.still hin (by rw [hthread]) (Function.update_of_ne hne _ _) htables fun a ha => ?_
  by_contra hchanged
  have hwrites := hconfined.bytes a hchanged
  rw [← memoryOf_of_maps hmaps] at hwrites
  exact hapart _ hne.symm other hother _ hwrites ha

/-- The program itself executes one. -/
theorem own (h : Matches π t space k p) {m : Machine} (hholds : k.Holds)
    (ht : t = k.currentThread) (hrun : oneInstruction k.machine = .ok () m)
    (hin : (k.executed m).InUser t) :
    ∃ p', Relation.ReflTransGen Alone p p' ∧ Matches π t space (k.executed m) p' := by
  subst ht
  obtain ⟨⟨r₀, hlast, hr⟩, space', hspace, hmaps⟩ := hholds
  obtain rfl := Option.some.inj (h.hasSpace.symm.trans hspace)
  obtain rfl := Option.some.inj (h.lastUser.symm.trans hlast)
  have hmemory := h.memory
  rw [memoryOf_of_maps hmaps] at hmemory
  obtain ⟨q, hq, hsame⟩ : ∃ q, Relation.ReflTransGen Alone p q ∧ SameProgram π k.machine q := by
    rcases hr with hr | hr
    · exact ⟨p, .refl, hr.symm, hmemory⟩
    · exact ⟨_, .single (.interrupt (delayedLoad_run h.loadReg 0 0)), hr.symm, hmemory⟩
  obtain ⟨p', hrun', hsame'⟩ := placed_respected.oneInstruction.ok hsame hrun
  have htables : SameTables k.machine.memory m.memory :=
    (confined_of_step (.executed hrun)).toSameTables
  have hmaps' : (k.executed m).Maps space :=
    ⟨htables.currentPageTable.trans hmaps.1, htables.currentPageTableSize.trans hmaps.2⟩
  refine ⟨p', hq.tail (.instruction hrun'), hin, ?_, ?_, ?_, loadReg_lt_of_oneInstruction hrun'⟩
  · rw [← h.hasSpace]
    exact update_same (g := Thread.space) (by rfl) _
  · rw [hsame'.registers]
    exact Function.update_self _ _ _
  · rw [memoryOf_of_maps hmaps']
    exact hsame'.memory

theorem step (h : Matches π t space k p) (hk : Contexts k) (hcontrol : Controlled k)
    (hstep : Undisturbed t space k k') :
    ∃ p', Relation.ReflTransGen Alone p p' ∧ Matches π t space k' p' := by
  rcases hstep.step.2.kept_or_executed hcontrol h.inUser hstep.inUser hstep.failed with
    hkept | ⟨hs, table, program, hnew, rfl⟩ | ⟨hs, m, hrun, rfl⟩
  · exact ⟨p, .refl, h.kept hkept hstep.inUser⟩
  · exact ⟨p, .refl, h.loaded hnew (hstep.loads hs)⟩
  · have hholds := held hk hstep.step.1 hs
    by_cases ht : t = k.currentThread
    · exact h.own hholds ht hrun hstep.inUser
    · exact ⟨p, .refl, h.other hholds ht hrun hstep.apart⟩

end Matches

/-! ## Whole runs -/

section Runs

variable {start : SemId → Int} {π : Nat → Nat} {p : Machine}

theorem matches_enterUser (hspace : (k.threads k.currentThread).space = some space)
    (hp : SameProgram π ⟨space.initRegisters, k.memoryOf space⟩ p) :
    Matches π k.currentThread space (k.enterUser space) p := by
  have hthread : (k.enterUser space).threads k.currentThread =
      { k.threads k.currentThread with stack := [.userCode] } := Function.update_self _ _ _
  refine ⟨?_, by rw [hthread]; exact hspace, ?_, hp.memory, ?_⟩
  · unfold Kernel.InUser
    rw [hthread]
    exact ⟨List.mem_cons_self, fun hexit => absurd (List.mem_singleton.mp hexit) nofun⟩
  · rw [hp.registers]
    exact Function.update_self _ _ _
  · rw [hp.registers]
    show (space.initRegisters loadReg).toNat < numTotalRegs
    have hzero : space.initRegisters loadReg = 0 := rfl
    rw [hzero]
    decide

theorem reachable_of_undisturbed (hk : (system start).Reachable k)
    (hrun : Relation.ReflTransGen (Undisturbed t space) k k') : (system start).Reachable k' := by
  induction hrun with
  | refl => exact hk
  | tail _ hstep ih => exact ih.step hstep.step

theorem matches_of_run (hk : (system start).Reachable k) (hmatches : Matches π t space k p)
    (hrun : Relation.ReflTransGen (Undisturbed t space) k k') :
    ∃ p', Relation.ReflTransGen Alone p p' ∧ Matches π t space k' p' := by
  induction hrun with
  | refl => exact ⟨p, .refl, hmatches⟩
  | tail hpre hstep ih =>
    obtain ⟨p₁, hp₁, h₁⟩ := ih
    have hreach := reachable_of_undisturbed hk hpre
    obtain ⟨p₂, hp₂, h₂⟩ := h₁.step (contexts_of_reachable hreach)
      (controlled_of_reachable hreach) hstep
    exact ⟨p₂, hp₁.trans hp₂, h₂⟩

/-- The registers of the program are those of the machine that runs it alone, once an
interrupt has done the load there too. -/
theorem Matches.context (h : Matches π t space k p) (hk : Contexts k) (hnone : k.failed = [])
    {m : Machine} (hm : k.Context t space m) :
    ∃ p', Relation.ReflTransGen Alone p p' ∧ SameProgram π m p' := by
  obtain ⟨hmemory, r₀, hlast, hr⟩ : m.memory = k.memoryOf space ∧ k.Saved t m.registers := by
    cases hm with
    | processor ht hno => exact ⟨rfl, ht ▸ (hk.held hnone (ht ▸ h.inUser) hno).1⟩
    | saved hs => exact ⟨rfl, hk.stored hnone t h.inUser hs⟩
  obtain rfl := Option.some.inj (h.lastUser.symm.trans hlast)
  have hplaced : Placed π m.memory p.memory := hmemory ▸ h.memory
  rcases hr with hr | hr
  · exact ⟨p, .refl, hr.symm, hplaced⟩
  · exact ⟨_, .single (.interrupt (delayedLoad_run h.loadReg 0 0)), hr.symm, hplaced⟩

/-- **One processor for each program.**  From the time a thread enters its program until
the program ends, its registers and the bytes of its pages are always those that a
machine gets to on which the program runs alone, whatever frames its pages have there.
The exception that ends the program is raised there too. -/
theorem virtual_processor (hk : (system start).Reachable k) (hnone : k.failed = [])
    (hs : k.stack = [.code]) (hlevel : k.interrupt.level = .on)
    (hspace : (k.threads k.currentThread).space = some space)
    (hp : SameProgram π ⟨space.initRegisters, k.memoryOf space⟩ p)
    (hrun : Relation.ReflTransGen (Undisturbed k.currentThread space) (k.enterUser space) k') :
    (∀ m, k'.Context k.currentThread space m →
      ∃ p', Relation.ReflTransGen Alone p p' ∧ SameProgram π m p') ∧
    (k'.currentThread = k.currentThread → k'.stack = [.userCode] →
      ∀ stop m, oneInstruction k'.machine = .error stop m →
        ∃ p' q, Relation.ReflTransGen Alone p p' ∧ oneInstruction p' = .error stop q ∧
          SameProgram π m q) := by
  have hentered := hk.step ⟨hnone, .code hs (.enterUser space hspace hlevel)⟩
  have hk' := reachable_of_undisturbed hentered hrun
  have hnone' : k'.failed = [] := by
    cases hrun with
    | refl => exact hnone
    | tail _ hstep => exact hstep.failed
  obtain ⟨p₁, hp₁, hmatches⟩ := matches_of_run hentered (matches_enterUser hspace hp) hrun
  have hcontexts := contexts_of_reachable hk'
  have hreaches : ∀ m, k'.Context k.currentThread space m →
      ∃ p', Relation.ReflTransGen Alone p p' ∧ SameProgram π m p' := by
    intro m hm
    obtain ⟨p', hp', hsame⟩ := hmatches.context hcontexts hnone' hm
    exact ⟨p', hp₁.trans hp', hsame⟩
  refine ⟨hreaches, fun hcurrent huser stop m hstop => ?_⟩
  have hno : ¬ Entering k'.stack := (hcontexts.active huser not_false).not_entering
  obtain ⟨_, space', hspace', hmaps⟩ := Matches.held hcontexts hnone' huser
  rw [hcurrent] at hspace'
  obtain rfl := Option.some.inj (hmatches.hasSpace.symm.trans hspace')
  obtain ⟨p', hp', hsame⟩ := hreaches _ (.processor hcurrent.symm hno)
  rw [memoryOf_of_maps hmaps] at hsame
  obtain ⟨q, hq, hsame'⟩ := placed_respected.oneInstruction.error hsame hstop
  exact ⟨p', q, hp', hq, hsame'⟩

end Runs

/-- `main` has got an address space of two pages. -/
def loadedProgram : Kernel :=
  let k := ({ boot fun _ => 0 with machine := noOperations }.setSpace 0 ⟨0, 2⟩).setLevel .on
  let k := (k.checkIfDue false).2.tickDone .system [.ret .oneTick .on .system, .code]
  (k.setStack [.code]).returned .oneTick .on .system

theorem loadedProgram_reachable : (system fun _ => 0).Reachable loadedProgram := by
  have hinit : Initial (fun _ => 0) { boot fun _ => 0 with machine := noOperations } :=
    { boot_initial fun _ => le_rfl with }
  have hboot : (system fun _ => 0).Reachable { boot fun _ => 0 with machine := noOperations } :=
    .of_init hinit
  have hspace := hboot.step ⟨rfl, .code rfl (.setSpace 0 ⟨0, 2⟩ (.inl rfl))⟩
  have hlevel := hspace.step ⟨rfl, .code rfl (.setLevel .on)⟩
  have htick := hlevel.step ⟨rfl, .tickDone rfl rfl⟩
  exact htick.step ⟨rfl, .ret rfl⟩

/-- It enters its program and executes an instruction. -/
theorem virtual_processor_loadedProgram :
    ∃ p', Relation.ReflTransGen Alone
        ⟨AddrSpace.initRegisters ⟨0, 2⟩, loadedProgram.memoryOf ⟨0, 2⟩⟩ p' ∧
      p'.registers pcReg = userStartAddress + 4 := by
  have hpc : registerAfter oneInstruction (loadedProgram.enterUser ⟨0, 2⟩).machine pcReg =
      some (userStartAddress + 4) := by decide +kernel
  unfold registerAfter at hpc
  cases hrun : oneInstruction (loadedProgram.enterUser ⟨0, 2⟩).machine with
  | error e m =>
    rw [hrun] at hpc
    cases hpc
  | ok a m =>
    rw [hrun] at hpc
    have hstack : ((loadedProgram.enterUser ⟨0, 2⟩).executed m).stack =
        [.tickLoop .user, .ret .oneTick .on .user, .userCode] := rfl
    have hin : ((loadedProgram.enterUser ⟨0, 2⟩).executed m).InUser 0 := by
      unfold Kernel.InUser
      rw [show (((loadedProgram.enterUser ⟨0, 2⟩).executed m).threads 0).stack = _ from hstack]
      decide
    have hapart : (loadedProgram.enterUser ⟨0, 2⟩).Apart 0 ⟨0, 2⟩ := by
      intro u hu other hother
      have hnone : ((loadedProgram.enterUser ⟨0, 2⟩).threads u).space = none := by
        cases u with
        | zero => exact absurd rfl hu
        | succ n => rfl
      rw [hnone] at hother
      cases hother
    have hstep : Undisturbed 0 ⟨0, 2⟩ (loadedProgram.enterUser ⟨0, 2⟩)
        ((loadedProgram.enterUser ⟨0, 2⟩).executed m) :=
      ⟨⟨rfl, .userCode rfl (.executed hrun)⟩, rfl, hin, hapart, fun hs =>
        absurd (show ([.userCode] : List Frame) = [.code] from hs) (by decide)⟩
    have hno : ¬ Entering ((loadedProgram.enterUser ⟨0, 2⟩).executed m).stack := by
      rintro ⟨f, rest, hs, hf⟩
      cases hstack.symm.trans hs
      exact hf
    obtain ⟨p', hp', hsame⟩ := (virtual_processor loadedProgram_reachable rfl rfl rfl rfl
      ⟨rfl, .refl rfl⟩ (.single hstep)).1 _ (.processor rfl hno)
    refine ⟨p', hp', ?_⟩
    rw [hsame.registers]
    exact Option.some.inj hpc

end Threads
end Nachos
