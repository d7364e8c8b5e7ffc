import Nachos.Threads.KernelContext

/-!
# Context switches between threads

Each step keeps the contexts of all the threads, so `SWITCH` returns with that of the new
one.  A thread that has none starts in `ThreadRoot`, which makes its three calls.
-/

namespace Nachos
namespace Threads
namespace Switching

open Lib Assembly

section

variable {L : Layout} {s s' : State} {t u new : ThreadId} {func arg a pc k : Nat} {c : Cpu}

/-! ## A call of `SWITCH` -/

/-- The processor at the start of `SWITCH`. -/
def entry (s : State) (pc : Nat) : Cpu :=
  { s.cpu with
    regs := Function.update s.cpu.regs .rsp (s.cpu.regs .rsp - 8)
    mem := Function.update s.cpu.mem (s.cpu.regs .rsp - 8) pc }

theorem Sound.entered (hs : Sound L s) (hcode : L.Cxx s.cpu.rip) :
    (s.starts s.running).isSome → (s.entries s.running).isSome := by
  cases hs.running with
  | code _ entered => exact entered
  | start _ _ _ rip => exact absurd rip (hcode 0)
  | returned _ _ _ rip => exact absurd rip (hcode _)

theorem Sound.pushes (hs : Sound L s) (can : CanSwitch L s new pc) :
    Writable L s s.running (s.cpu.regs .rsp - 8) :=
  (hs.threads s.running).writable (hs.entered can.code) can.room can.below

/-- What is saved leaves alone what is not the object of the running thread, nor its part
of the stack. -/
theorem saved_kept (can : CanSwitch L s new pc)
    (hpush : Writable L s s.running (s.cpu.regs .rsp - 8))
    (hrax : a ≠ L.raxSave) (hout : Outside (L.thread s.running) a)
    (hwritable : ¬ Writable L s s.running a) :
    saved L.raxSave (entry s pc) a = s.cpu.mem a := by
  have hobject : Outside ((entry s pc).regs .rdi) a := by
    show Outside (s.cpu.regs .rdi) a
    rw [can.rdi]
    exact hout
  have hne : a ≠ s.cpu.regs .rsp - 8 := fun heq => hwritable (heq ▸ hpush)
  rw [saved_outside hobject hrax]
  exact Function.update_of_ne hne _ _

/-- The words of the other threads are kept. -/
theorem saved_own (can : CanSwitch L s new pc)
    (hpush : Writable L s s.running (s.cpu.regs .rsp - 8)) (h : Own L s t a)
    (hne : t ≠ s.running) : saved L.raxSave (entry s pc) a = s.cpu.mem a :=
  saved_kept can hpush (own_ne_raxSave h) (own_outside h hne) (own_not_writable h _)

theorem saved_running (can : CanSwitch L s new pc) {r : Register} {d : Nat}
    (hs : (r, d) ∈ slots) :
    saved L.raxSave (entry s pc) (L.thread s.running + d) = (entry s pc).regs r := by
  rw [← can.rdi]
  exact saved_slot hs

theorem saved_running_pc (can : CanSwitch L s new pc)
    (hpush : Writable L s s.running (s.cpu.regs .rsp - 8)) :
    saved L.raxSave (entry s pc) (L.thread s.running + Slot.pc) = pc := by
  have hout : Outside ((entry s pc).regs .rdi) ((entry s pc).regs .rsp) := by
    show Outside (s.cpu.regs .rdi) (s.cpu.regs .rsp - 8)
    rw [can.rdi]
    exact stack_outside hpush.1 hpush.2.1
  rw [← can.rdi]
  refine (saved_pc hout hpush.ne_raxSave).trans ?_
  exact Function.update_self _ _ _

/-- The object of the running thread holds its context. -/
theorem holds_saved (can : CanSwitch L s new pc)
    (hpush : Writable L s s.running (s.cpu.regs .rsp - 8)) :
    Holds (saved L.raxSave (entry s pc)) (L.thread s.running) (contextOf s.cpu.regs pc) where
  rbx := saved_running (r := .rbx) (d := Slot.rbx) can (by decide)
  rbp := saved_running (r := .rbp) (d := Slot.rbp) can (by decide)
  r12 := saved_running (r := .r12) (d := Slot.r12) can (by decide)
  r13 := saved_running (r := .r13) (d := Slot.r13) can (by decide)
  r14 := saved_running (r := .r14) (d := Slot.r14) can (by decide)
  r15 := saved_running (r := .r15) (d := Slot.r15) can (by decide)
  rsp := by
    have hroom := can.room
    rw [saved_running (r := .rsp) (d := Slot.rsp) can (by decide)]
    show s.cpu.regs .rsp - 8 + 8 = s.cpu.regs .rsp
    omega
  pc := saved_running_pc can hpush

/-- Where the new thread goes on. -/
inductive Target (L : Layout) (s : State) (new : ThreadId) (pc : Nat) : Prop
  | resumes {ctx : Context}
      (context : Function.update s.contexts s.running (some (contextOf s.cpu.regs pc)) new =
        some ctx)
      (object : Holds (saved L.raxSave (entry s pc)) (L.thread new) ctx)
      (resumable : Resumable L s new ctx)
  | dispatches {func arg : Nat}
      (context : Function.update s.contexts s.running (some (contextOf s.cpu.regs pc)) new = none)
      (started : s.starts new = some (func, arg))
      (prepared : Prepared L.text L.setupThreadState L.threadFinish (L.thread new) (L.stack new)
        func arg (saved L.raxSave (entry s pc)))
      (calls : s.calls new = []) (entries : s.entries new = none)

theorem Sound.resumable (hs : Sound L s) (can : CanSwitch L s new pc) :
    Resumable L s s.running (contextOf s.cpu.regs pc) :=
  ⟨can.room, can.below, can.returns, hs.entered can.code⟩

theorem Sound.target (hs : Sound L s) (can : CanSwitch L s new pc) : Target L s new pc := by
  have hpush := hs.pushes can
  by_cases hne : new = s.running
  · subst hne
    exact .resumes (Function.update_self _ _ _) (holds_saved can hpush) (hs.resumable can)
  · have hthread := hs.threads new
    have hobject : ∀ d < 264, saved L.raxSave (entry s pc) (L.thread new + d) =
        s.cpu.mem (L.thread new + d) :=
      fun d hd => saved_own can hpush (own_slot can.known hd) hne
    cases hctx : s.contexts new with
    | some ctx =>
      have hsuspended := hthread.suspended ctx hne hctx
      exact .resumes ((Function.update_of_ne hne _ _).trans hctx)
        (hsuspended.object.congr hobject) hsuspended.resumable
    | none =>
      obtain ⟨⟨func, arg⟩, hstart⟩ : ∃ start, s.starts new = some start := by
        rcases can.known with heq | hsome | hsome
        · exact absurd heq hne
        · rw [hctx] at hsome
          cases hsome
        · exact Option.isSome_iff_exists.mp hsome
      have hfresh := hthread.fresh func arg hne hctx hstart
      exact .dispatches ((Function.update_of_ne hne _ _).trans hctx) hstart
        (hfresh.prepared.congr hobject) hfresh.calls hfresh.entries

/-- `SWITCH` finds the stack of the new thread. -/
theorem Sound.loads (hs : Sound L s) (can : CanSwitch L s new pc) :
    Writable L s new (saved L.raxSave (entry s pc) (L.thread new + Slot.rsp)) := by
  have hthread := hs.threads new
  cases hs.target can with
  | resumes _ object resumable =>
    have hwritable := hthread.writable resumable.entered resumable.room resumable.below
    rw [← object.rsp, Nat.add_sub_cancel] at hwritable
    exact hwritable
  | dispatches _ started prepared calls _ =>
    have hend := (hthread.started _ _ started).frame_stack
    have htop := top_eq L new
    rw [prepared.stackTop]
    show Writable L s new (L.top new)
    exact ⟨by omega, by omega, fun hne => absurd calls hne⟩

theorem Sound.exec_switch (hs : Sound L s) (can : CanSwitch L s new pc) :
    ∃ c, (s.cpu.push pc).bind (exec L.text switchLabel (switch L.raxSave)) = some c ∧
      Loaded L.raxSave (L.thread new) (saved L.raxSave (entry s pc)) c := by
  have hpush := hs.pushes can
  have hrdi : (entry s pc).regs .rdi = L.thread s.running := can.rdi
  have hrsi : (entry s pc).regs .rsi = L.thread new := can.rsi
  have hpushed : s.cpu.push pc = some (entry s pc) := push_mapped hpush.ne_zero pc
  rw [hpushed, ← hrsi]
  refine Threads.exec_switch (c := entry s pc) L.raxSave_mapped ?_ ?_ hpush.ne_zero ?_ ?_
  · rw [hrdi]
    exact L.thread_mapped _
  · rw [hrsi]
    exact L.thread_mapped _
  · rw [hrsi]
    exact L.raxSave_thread _
  · rw [hrsi]
    exact (hs.loads can).ne_zero

/-! ## The new thread -/

theorem Holds.loaded {m : Mem} {ctx : Context} (h : Holds m (L.thread new) ctx)
    (hl : Loaded L.raxSave (L.thread new) m c) : contextOf c.regs c.rip = ctx := by
  have hrbx := (hl.slot (.rbx, Slot.rbx) (by decide) (by decide)).trans h.rbx
  have hrbp := (hl.slot (.rbp, Slot.rbp) (by decide) (by decide)).trans h.rbp
  have hr12 := (hl.slot (.r12, Slot.r12) (by decide) (by decide)).trans h.r12
  have hr13 := (hl.slot (.r13, Slot.r13) (by decide) (by decide)).trans h.r13
  have hr14 := (hl.slot (.r14, Slot.r14) (by decide) (by decide)).trans h.r14
  have hr15 := (hl.slot (.r15, Slot.r15) (by decide) (by decide)).trans h.r15
  have hrsp := hl.rsp.trans h.rsp
  have hpc := hl.rip.trans h.pc
  unfold contextOf
  rw [hrbx, hrbp, hr12, hr13, hr14, hr15, hrsp, hpc]

theorem Target.running (h : Target L s new pc)
    (hl : Loaded L.raxSave (L.thread new) (saved L.raxSave (entry s pc)) c) :
    Running L (s.switched new pc c) := by
  cases h with
  | resumes context object resumable =>
    have hpc : c.rip = _ := hl.rip.trans object.pc
    refine .code ?_ resumable.entered
    intro k hk
    exact resumable.returns k (hpc.symm.trans hk)
  | dispatches context started prepared calls entries =>
    refine .start started calls entries (hl.rip.trans prepared.pc) ?_ ?_ ?_ ?_ ?_
    · show c.regs .rsp = stackTop (L.stack new) + 8
      rw [hl.rsp, prepared.stackTop]
    · exact (hl.slot (.rcx, Slot.rcx) (by decide) (by decide)).trans prepared.startup
    · exact (hl.slot (.rsi, Slot.rsi) (by decide) (by decide)).trans prepared.initialPC
    · exact (hl.slot (.rdx, Slot.rdx) (by decide) (by decide)).trans prepared.initialArg
    · exact (hl.slot (.rdi, Slot.rdi) (by decide) (by decide)).trans prepared.whenDone

/-! ## The other threads -/

/-- The new thread gets its return address in its part of the stack. -/
theorem Sound.loaded_own (hs : Sound L s) (can : CanSwitch L s new pc)
    (hl : Loaded L.raxSave (L.thread new) (saved L.raxSave (entry s pc)) c) (h : Own L s t a) :
    c.mem a = saved L.raxSave (entry s pc) a := by
  rw [hl.mem a (own_ne_raxSave h)]
  refine Function.update_of_ne ?_ _ _
  rintro rfl
  exact own_not_writable h new (hs.loads can)

theorem Sound.loaded_frame (hs : Sound L s) (can : CanSwitch L s new pc)
    (hl : Loaded L.raxSave (L.thread new) (saved L.raxSave (entry s pc)) c)
    (hne : s.calls t ≠ []) {d : Nat} (hd : 8 ≤ d) (hd' : d ≤ 32) :
    c.mem (L.top t - d) = s.cpu.mem (L.top t - d) := by
  have hown := (hs.threads t).own_frame hne hd hd'
  obtain ⟨func, arg, -, hstarted⟩ := (hs.threads t).start hne
  have hend := hstarted.frame_stack
  have htop := top_eq L t
  rw [hs.loaded_own can hl hown]
  refine saved_kept can (hs.pushes can) (own_ne_raxSave hown) ?_ (own_not_writable hown _)
  exact stack_outside (t := t) (by omega) (by omega)

theorem Sound.switched_thread (hs : Sound L s) (can : CanSwitch L s new pc)
    (hl : Loaded L.raxSave (L.thread new) (saved L.raxSave (entry s pc)) c) (t : ThreadId) :
    Thread L (s.switched new pc c) t := by
  have hthread := hs.threads t
  have hpush := hs.pushes can
  have hobject : s.Known t → t ≠ s.running → ∀ d < 264,
      c.mem (L.thread t + d) = s.cpu.mem (L.thread t + d) := by
    intro hknown hne d hd
    have hown := own_slot (L := L) hknown hd
    rw [hs.loaded_own can hl hown]
    exact saved_own can hpush hown hne
  constructor
  · exact hthread.unstarted
  · intro func arg hstart
    exact (hthread.started func arg hstart).congr rfl fun hne _ hd hd' =>
      hs.loaded_frame can hl hne hd hd'
  · intro regs hregs
    have hentered := hthread.entered regs hregs
    exact hentered.congr rfl (hs.loaded_frame can hl hentered.called (by omega) (by omega))
  · intro ctx _ hctx
    by_cases hrun : t = s.running
    · subst hrun
      have hsame : contextOf s.cpu.regs pc = ctx := by
        have hupdate := (Function.update_self _ _ _).symm.trans hctx
        exact Option.some.inj hupdate
      subst hsame
      refine ⟨(holds_saved can hpush).congr ?_, (hs.resumable can).congr rfl rfl⟩
      exact fun d hd => hs.loaded_own can hl (own_slot (.inl rfl) hd)
    · have hctx' : s.contexts t = some ctx := (Function.update_of_ne hrun _ _).symm.trans hctx
      exact (hthread.suspended ctx hrun hctx').congr rfl rfl
        (hobject (.inr (.inl (by rw [hctx']; rfl))) hrun)
  · intro func arg _ hctx hstart
    have hrun : t ≠ s.running := by
      rintro rfl
      have hupdate := (Function.update_self _ _ _).symm.trans hctx
      cases hupdate
    have hctx' : s.contexts t = none := (Function.update_of_ne hrun _ _).symm.trans hctx
    have hknown : s.Known t := .inr (.inr (by rw [show s.starts t = _ from hstart]; rfl))
    exact (hthread.fresh func arg hrun hctx' hstart).congr rfl rfl (hobject hknown hrun)

theorem Sound.switches (hs : Sound L s) (h : Switches L s new pc s') : Sound L s' := by
  obtain ⟨can, exec⟩ := h
  obtain ⟨c, hrun, hl⟩ := hs.exec_switch can
  cases Option.some.inj (hrun.symm.trans exec)
  exact ⟨hs.switched_thread can hl, (hs.target can).running hl⟩

/-! ## The calls of `ThreadRoot` -/

/-- The running thread makes the next of its calls. -/
structure Made (L : Layout) (s : State) (func arg : Nat) (c : Cpu) : Prop where
  next : s.calls s.running ++ [⟨c.rip, c.regs .rdi⟩] =
    (L.body func arg).take ((s.calls s.running).length + 1)
  rsp : c.regs .rsp = L.top s.running - 32
  rbp : c.regs .rbp = 0
  returns : c.mem (L.top s.running - 32) = L.text (rootLabel ((s.calls s.running).length + 1))
  frame : Frame L c.mem s.running func arg
  mem : ∀ a, a < L.top s.running - 32 ∨ L.top s.running ≤ a → c.mem a = s.cpu.mem a

theorem rootLabel_lt {n : Nat} : rootLabel n < 11 ↔ n < 3 := by
  match n with
  | 0 | 1 | 2 => decide
  | n + 3 =>
    show 11 < 11 ↔ n + 3 < 3
    omega

/-- A thread in `ThreadRoot` is at the beginning or behind one of its calls. -/
theorem Sound.root (hs : Sound L s) (label : s.cpu.rip = L.text k) :
    ∃ func arg, s.starts s.running = some (func, arg) ∧ s.entries s.running = none ∧
      k = rootLabel (s.calls s.running).length := by
  cases hs.running with
  | code code => exact absurd label (code k)
  | start started calls entries rip =>
    refine ⟨_, _, started, entries, ?_⟩
    rw [calls]
    exact L.text_injective (label.symm.trans rip)
  | returned started _ entries rip =>
    exact ⟨_, _, started, entries, L.text_injective (label.symm.trans rip)⟩

theorem Called.made {m : Mem} {n target v : Nat}
    (h : Called m (L.top s.running) (L.text (rootLabel (n + 1))) target v c)
    (hn : (s.calls s.running).length = n)
    (hnext : s.calls s.running ++ [⟨target, v⟩] = (L.body func arg).take (n + 1))
    (hframe : Frame L m s.running func arg)
    (hmem : ∀ a, a < L.top s.running - 32 ∨ L.top s.running ≤ a → m a = s.cpu.mem a) :
    Made L s func arg c := by
  have htop := top_eq L s.running
  subst hn
  refine ⟨?_, h.rsp, h.rbp, ?_, hframe.congr ?_, ?_⟩
  · rw [h.rip, h.rdi]
    exact hnext
  · rw [h.mem]
    exact Function.update_self _ _ _
  · intro d hd hd'
    rw [h.mem]
    exact Function.update_of_ne (by omega) _ _
  · intro a ha
    rw [h.mem, ← hmem a ha]
    exact Function.update_of_ne (by omega) _ _

/-- The words that `ThreadRoot` pushes. -/
theorem frame_pushed (m : Mem) :
    Frame L (assign m [(L.top t - 8, L.threadFinish), (L.top t - 16, func), (L.top t - 24, arg)])
      t func arg := by
  have htop := top_eq L t
  have hnodup : [L.top t - 8, L.top t - 16, L.top t - 24].Nodup := by
    simp only [List.nodup_cons, List.mem_cons, List.not_mem_nil, or_false, not_false_eq_true,
      List.nodup_nil, and_true]
    omega
  constructor
  · exact assign_of_mem hnodup (by simp)
  · exact assign_of_mem hnodup (by simp)
  · exact assign_of_mem hnodup (by simp)

/-- A thread that is not in a function called by `ThreadRoot` makes its next call. -/
theorem Sound.makes (hs : Sound L s) (hstart : s.starts s.running = some (func, arg))
    (hentries : s.entries s.running = none) (hlt : (s.calls s.running).length < 3) :
    ∃ c, s.cpu.rip = L.text (rootLabel (s.calls s.running).length) ∧
      exec L.text (rootLabel (s.calls s.running).length)
        (threadRoot.drop (rootLabel (s.calls s.running).length)) s.cpu = some c ∧
      Made L s func arg c := by
  have htop := top_eq L s.running
  have hlow : 32 < L.top s.running := by omega
  have hstarted := (hs.threads s.running).started func arg hstart
  cases hs.running with
  | code _ entered =>
    have hsome := entered (by rw [hstart]; rfl)
    rw [hentries] at hsome
    cases hsome
  | start started calls _ rip rsp rcx rsi rdx rdi =>
    cases Option.some.inj (hstart.symm.trans started)
    obtain ⟨c, hexec, hcalled⟩ := @exec_startup L.text _ _ hlow rsp
    rw [calls]
    refine ⟨c, rip, hexec, Called.made (n := 0) hcalled (by rw [calls]; rfl) ?_ ?_ ?_⟩
    · rw [calls, rcx, rdi]
      rfl
    · rw [rdi, rsi, rdx]
      exact frame_pushed _
    · intro a ha
      refine assign_of_notMem ?_
      simp only [List.map_cons, List.map_nil, List.mem_cons, List.not_mem_nil, or_false]
      omega
  | returned started calls _ rip rsp rbp =>
    have hframe := hstarted.frame calls
    have hpos := List.length_pos_iff.mpr calls
    have htake := List.prefix_iff_eq_take.mp hstarted.calls
    obtain hn | hn : (s.calls s.running).length = 1 ∨ (s.calls s.running).length = 2 := by omega
    · obtain ⟨c, hexec, hcalled⟩ := @exec_initial L.text _ _ hlow rsp rbp
      rw [hn] at rip htake ⊢
      refine ⟨c, rip, hexec, Called.made hcalled hn ?_ hframe fun _ _ => rfl⟩
      rw [hframe.initialPC, hframe.initialArg, htake]
      rfl
    · obtain ⟨c, hexec, hcalled⟩ := @exec_whenDone L.text _ _ hlow rsp rbp
      rw [hn] at rip htake ⊢
      refine ⟨c, rip, hexec, Called.made hcalled hn ?_ hframe fun _ _ => rfl⟩
      rw [hframe.whenDone, htake]
      rfl

theorem body_code (hfunc : L.Cxx func) {call : Call} (h : call ∈ L.body func arg) :
    L.Cxx call.function := by
  rcases List.mem_cons.mp h with rfl | h
  · exact L.setup_code
  rcases List.mem_cons.mp h with rfl | h
  · exact hfunc
  cases List.mem_singleton.mp h
  exact L.finish_code

theorem Made.code (h : Made L s func arg c) (hfunc : L.Cxx func) : L.Cxx c.rip := by
  have hmem : ⟨c.rip, c.regs .rdi⟩ ∈ (L.body func arg).take ((s.calls s.running).length + 1) := by
    rw [← h.next]
    exact List.mem_append_right _ List.mem_cons_self
  exact body_code hfunc (List.mem_of_mem_take hmem)

theorem Made.thread (h : Made L s func arg c) (hs : Sound L s)
    (hstart : s.starts s.running = some (func, arg)) (t : ThreadId) :
    Thread L (s.called c) t := by
  have htop := top_eq L s.running
  have hstarted := (hs.threads s.running).started func arg hstart
  have hend := hstarted.frame_stack
  have hcalls : (s.called c).calls s.running = s.calls s.running ++ [⟨c.rip, c.regs .rdi⟩] :=
    Function.update_self _ _ _
  have hentries : (s.called c).entries s.running = some c.regs := Function.update_self _ _ _
  by_cases ht : t = s.running
  · subst ht
    refine .of_running rfl hstart ?_ ?_
    · refine ⟨hstarted.size, hstarted.func_code, ?_, fun _ => h.frame⟩
      rw [hcalls, h.next]
      exact List.take_prefix _ _
    · intro regs hregs
      cases Option.some.inj (hentries.symm.trans hregs)
      refine ⟨?_, h.rsp, h.rbp, ?_⟩
      · rw [hcalls]
        exact List.append_ne_nil_of_right_ne_nil _ (List.cons_ne_nil _ _)
      · rw [hcalls, List.length_append]
        exact h.returns
  · refine (hs.threads t).congr Iff.rfl rfl rfl (Function.update_of_ne ht _ _)
      (Function.update_of_ne ht _ _) ?_
    intro a hown
    have hapart := own_apart hown ht
    exact h.mem a (by omega)

theorem Sound.calls (hs : Sound L s) (h : Calls L s s') : Sound L s' := by
  obtain ⟨label, before, exec⟩ := h
  obtain ⟨func, arg, hstart, hentries, rfl⟩ := hs.root label
  obtain ⟨c, -, hexec, hmade⟩ := hs.makes hstart hentries (rootLabel_lt.mp before)
  cases Option.some.inj (hexec.symm.trans exec)
  have hstarted := (hs.threads s.running).started func arg hstart
  refine ⟨hmade.thread hs hstart, .code (hmade.code hstarted.func_code) fun _ => ?_⟩
  exact Option.isSome_iff_exists.mpr ⟨_, Function.update_self _ _ _⟩

/-! ## The other steps -/

/-- What is behind the last call is not reached. -/
theorem Sound.not_behind (hs : Sound L s) (label : s.cpu.rip = L.text k) (behind : 11 ≤ k) :
    exec L.text k (threadRoot.drop k) s.cpu = none := by
  have htop := top_eq L s.running
  obtain ⟨func, arg, -, -, hk⟩ := hs.root label
  have hlt := rootLabel_lt (n := (s.calls s.running).length)
  cases hs.running with
  | code code => exact absurd label (code k)
  | start _ calls =>
    rw [calls] at hk
    rw [hk] at behind
    exact absurd behind (by decide)
  | returned _ _ _ _ rsp rbp =>
    have hlast : k = 11 := by
      rw [hk]
      unfold rootLabel at hk ⊢
      split at hk <;> omega
    rw [hlast]
    exact exec_notReached (by omega) rbp

theorem Sound.code (hs : Sound L s) (code : L.Cxx s.cpu.rip) (code' : L.Cxx c.rip)
    (kept : ∀ t a, Own L s t a → c.mem a = s.cpu.mem a) : Sound L { s with cpu := c } where
  threads t := (hs.threads t).congr Iff.rfl rfl rfl rfl rfl (kept t)
  running := .code code' (hs.entered code)

theorem Sound.unknown (hs : Sound L s) (new : ¬ s.Known t) :
    s.contexts t = none ∧ s.calls t = [] ∧ s.entries t = none := by
  have hcontext : s.contexts t = none := by
    rw [Option.eq_none_iff_forall_ne_some]
    intro ctx hctx
    exact new (.inr (.inl (by rw [hctx]; rfl)))
  have hstart : s.starts t = none := by
    rw [Option.eq_none_iff_forall_ne_some]
    intro start hstart
    exact new (.inr (.inr (by rw [hstart]; rfl)))
  exact ⟨hcontext, (hs.threads t).unstarted hstart⟩

/-- The new thread has a prepared object. -/
theorem Sound.allocated_new (hs : Sound L s) (new : ¬ s.Known t)
    (size : L.stackBytes t = 8 * stackSize) (func_code : L.Cxx func) :
    Thread L (s.allocated L t func arg) t := by
  have hstack : L.stackBytes t = 65536 := size
  obtain ⟨hcontext, hcalls, hentries⟩ := hs.unknown new
  have hstart : (s.allocated L t func arg).starts t = some (func, arg) :=
    Function.update_self _ _ _
  constructor
  · intro hnone
    cases hstart.symm.trans hnone
  · intro func' arg' hstart'
    cases hstart.symm.trans hstart'
    exact ⟨size, func_code, hcalls ▸ List.nil_prefix, fun hne => absurd hcalls hne⟩
  · intro regs hregs
    cases hentries.symm.trans hregs
  · intro ctx _ hctx
    cases hcontext.symm.trans hctx
  · intro func' arg' _ _ hstart'
    cases hstart.symm.trans hstart'
    refine ⟨stackAllocate_prepared ?_, hcalls, hentries⟩
    exact stack_outside (t := t) (by omega) (by omega)

theorem Sound.allocate (hs : Sound L s) (code : L.Cxx s.cpu.rip) (new : ¬ s.Known t)
    (size : L.stackBytes t = 8 * stackSize) (func_code : L.Cxx func) :
    Sound L (s.allocated L t func arg) := by
  have hstack : L.stackBytes t = 65536 := size
  have hrunning : s.running ≠ t := fun heq => new (.inl heq.symm)
  constructor
  · intro u
    by_cases hu : u = t
    · subst hu
      exact hs.allocated_new new size func_code
    · refine (hs.threads u).congr Iff.rfl rfl (Function.update_of_ne hu _ _) rfl rfl ?_
      intro a hown
      have hapart := own_apart hown hu
      exact stackAllocate_outside (own_outside hown hu) (by omega)
  · refine .code code ?_
    show (Function.update s.starts t (some (func, arg)) s.running).isSome → _
    rw [Function.update_of_ne hrunning]
    exact hs.entered code

theorem Sound.return_ {regs : Registers} (hs : Sound L s)
    (entry : s.entries s.running = some regs) (pc : c.rip = s.cpu.mem (regs .rsp))
    (rsp : c.regs .rsp = regs .rsp + 8) (saved : ∀ r ∈ calleeSaved, c.regs r = regs r)
    (mem : c.mem = s.cpu.mem) :
    Sound L { s with cpu := c, entries := Function.update s.entries s.running none } := by
  have htop := top_eq L s.running
  have hentered := (hs.threads s.running).entered regs entry
  obtain ⟨func, arg, hstart, hstarted⟩ := (hs.threads s.running).start hentered.called
  constructor
  · intro t
    by_cases ht : t = s.running
    · subst ht
      refine .of_running rfl hstart ?_ ?_
      · exact hstarted.congr rfl fun _ _ _ _ => congrFun mem _
      · intro regs' hregs
        cases (Function.update_self _ _ _).symm.trans hregs
    · exact (hs.threads t).congr Iff.rfl rfl rfl rfl (Function.update_of_ne ht _ _)
        fun a _ => congrFun mem a
  · refine .returned hstart hentered.called (Function.update_self _ _ _) ?_ ?_ ?_
    · show c.rip = _
      rw [pc, hentered.rsp]
      exact hentered.returns
    · show c.regs .rsp = L.top s.running - 24
      rw [rsp, hentered.rsp]
      omega
    · exact (saved .rbp (by decide)).trans hentered.rbp

/-- Each step keeps the contexts of all the threads. -/
theorem Sound.step (hs : Sound L s) (h : Step L s s') : Sound L s' := by
  cases h with
  | code code code' kept => exact hs.code code code' kept
  | allocate code new size func_code => exact hs.allocate code new size func_code
  | switch h => exact hs.switches h
  | call h => exact hs.calls h
  | notReached label behind exec =>
    rw [hs.not_behind label behind] at exec
    cases exec
  | return_ _ entry pc rsp saved mem => exact hs.return_ entry pc rsp saved mem

theorem Initial.sound (h : Initial L s) : Sound L s where
  threads t :=
    { unstarted := fun _ => ⟨h.calls t, h.entries t⟩
      started := fun _ _ hstart => by cases (h.starts t).symm.trans hstart
      entered := fun _ hregs => by cases (h.entries t).symm.trans hregs
      suspended := fun _ _ hctx => by cases (h.contexts t).symm.trans hctx
      fresh := fun _ _ _ _ hstart => by cases (h.starts t).symm.trans hstart }
  running := .code h.code fun hsome => by
    rw [h.starts] at hsome
    cases hsome

theorem sound (hs : (system L).Reachable s) : Sound L s :=
  hs.induct (fun _ => Initial.sound) fun _ _ => Sound.step

theorem Sound.next_call (hs : Sound L s) (hstart : s.starts s.running = some (func, arg))
    (hentries : s.entries s.running = none) (hlt : (s.calls s.running).length < 3) :
    ∃ s', Calls L s s' ∧
      s'.calls s.running = (L.body func arg).take ((s.calls s.running).length + 1) := by
  obtain ⟨c, label, hexec, hmade⟩ := hs.makes hstart hentries hlt
  refine ⟨_, .run label (rootLabel_lt.mpr hlt) hexec, ?_⟩
  exact (Function.update_self _ _ _).trans hmade.next

theorem Target.returns (h : Target L s new pc)
    (hl : Loaded L.raxSave (L.thread new) (saved L.raxSave (entry s pc)) c) :
    match (s.switched new pc c).contexts new with
    | some ctx => contextOf c.regs c.rip = ctx
    | none => (s.starts new).isSome ∧ c.rip = L.text 0 ∧ s.calls new = [] ∧
      s.entries new = none := by
  cases h with
  | resumes context object _ =>
    have hcontext : (s.switched new pc c).contexts new = _ := context
    rw [hcontext]
    exact object.loaded hl
  | dispatches context started prepared calls entries =>
    have hcontext : (s.switched new pc c).contexts new = _ := context
    rw [hcontext]
    exact ⟨by rw [started]; rfl, hl.rip.trans prepared.pc, calls, entries⟩

end

/-- **Context switches.**  In every run of threads whose objects and stacks are apart, a call
of `SWITCH` returns, in the new thread and with the context of its own call.  A thread that
has not called `SWITCH` starts in `ThreadRoot`, which makes its three calls in this order:
whenever it is not in one of them, it makes the next. -/
theorem context_switch (L : Layout) {s : State} (hs : (system L).Reachable s) :
    (∀ new pc, CanSwitch L s new pc → ∃ s', Switches L s new pc s') ∧
    (∀ new pc s', Switches L s new pc s' →
      match s'.contexts new with
      | some ctx => contextOf s'.cpu.regs s'.cpu.rip = ctx
      | none => (s'.starts new).isSome ∧ s'.cpu.rip = L.text 0 ∧ s'.calls new = [] ∧
        s'.entries new = none) ∧
    ∀ t func arg, s.starts t = some (func, arg) →
      s.calls t <+: L.body func arg ∧
      (t = s.running → s.entries t = none → (s.calls t).length < 3 →
        ∃ s', Calls L s s' ∧
          s'.calls t = (L.body func arg).take ((s.calls t).length + 1)) := by
  have hsound := sound hs
  refine ⟨?_, ?_, ?_⟩
  · intro new pc can
    obtain ⟨c, hrun, -⟩ := hsound.exec_switch can
    exact ⟨_, .run can hrun⟩
  · intro new pc s' hswitch
    obtain ⟨can, exec⟩ := hswitch
    obtain ⟨c, hrun, hl⟩ := hsound.exec_switch can
    cases Option.some.inj (hrun.symm.trans exec)
    exact (hsound.target can).returns hl
  · intro t func arg hstart
    refine ⟨((hsound.threads t).started func arg hstart).calls, ?_⟩
    rintro rfl hentries hlt
    exact hsound.next_call hstart hentries hlt

/-- Two threads, a million bytes apart. -/
def twoThreads : Layout where
  text k := 2 * k + 1
  setupThreadState := 2
  threadFinish := 4
  raxSave := 8
  thread t := 1000000 * (t + 1)
  stack t := 1000000 * (t + 1) + 1000
  stackBytes _ := 65536
  text_injective k l h := by
    have heq : 2 * k + 1 = 2 * l + 1 := h
    omega
  setup_code k := by omega
  finish_code k := by omega
  threads_apart t u h := by
    have hsize : contextSize = 264 := rfl
    rcases Nat.lt_or_gt_of_ne h with h | h
    · exact .inl (by omega)
    · exact .inr (by omega)
  stacks_apart t u h := by
    rcases Nat.lt_or_gt_of_ne h with h | h
    · exact .inl (by omega)
    · exact .inr (by omega)
  apart t u := by
    have hsize : contextSize = 264 := rfl
    rcases Nat.lt_or_ge u t with h | h
    · exact .inr (by omega)
    · exact .inl (by omega)
  raxSave_thread t := .inl (by omega)
  raxSave_stack t := .inl (by omega)
  raxSave_mapped := by omega
  thread_mapped t := by omega
  stack_mapped t := by omega

/-- The main thread is about to call `SWITCH` for the other one. -/
def mainThread : State where
  cpu :=
    { regs := fun
        | .rdi => 1000000
        | .rsi => 2000000
        | .rsp => 1001100
        | _ => 0
      rip := 6
      mem := fun _ => 0 }
  running := 0
  contexts _ := none
  starts _ := none
  calls _ := []
  entries _ := none

/-- The other thread starts when it is dispatched. -/
theorem context_switch_dispatches :
    ∃ s s', (system twoThreads).Reachable s ∧ Switches twoThreads s 1 12 s' ∧
      s'.cpu.rip = twoThreads.text 0 := by
  have hcode : ∀ n, twoThreads.Cxx (2 * n) := by
    intro n k h
    have heq : 2 * n = 2 * k + 1 := h
    omega
  have hinit : (system twoThreads).init mainThread :=
    ⟨hcode 3, fun _ => rfl, fun _ => rfl, fun _ => rfl, fun _ => rfl⟩
  have hnew : ¬ mainThread.Known 1 := by
    rintro (h | h | h) <;> cases h
  have hallocate := @Step.allocate twoThreads mainThread 1 10 7 (hcode 3) hnew rfl (hcode 5)
  have hreach := (Lib.System.Reachable.of_init hinit).step hallocate
  obtain ⟨hreturns, hcontexts, -⟩ := context_switch twoThreads hreach
  obtain ⟨s', hswitch⟩ := hreturns 1 12
    ⟨hcode 3, hcode 6, rfl, rfl, .inr (.inr rfl), by decide, by decide⟩
  have hdispatched := hcontexts 1 12 s' hswitch
  refine ⟨_, s', hreach, hswitch, ?_⟩
  obtain ⟨can, exec⟩ := hswitch
  exact hdispatched.2.1

end Switching
end Threads
end Nachos
