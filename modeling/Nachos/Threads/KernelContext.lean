import Nachos.Lib.System
import Nachos.Threads.Switch

/-!
# Kernel contexts

Threads on one processor, which go from one to another by calls of `SWITCH`.  Between these
calls they run C++ code.  It obeys the calling convention: it does not write to what
`SWITCH` has saved in the thread objects, nor to the stack frame of `ThreadRoot`, it runs
below its own return address, and it returns with the registers that a function preserves.
-/

namespace Nachos
namespace Threads
namespace Switching

open Lib Assembly

/-- Where things are in memory.  The objects and the stacks are apart from each other. -/
structure Layout where
  text : Nat → Nat
  setupThreadState : Nat
  threadFinish : Nat
  raxSave : Nat
  thread : ThreadId → Nat
  stack : ThreadId → Nat
  stackBytes : ThreadId → Nat
  text_injective : Function.Injective text
  setup_code : ∀ k, setupThreadState ≠ text k
  finish_code : ∀ k, threadFinish ≠ text k
  threads_apart : ∀ t u, t ≠ u →
    thread t + contextSize ≤ thread u ∨ thread u + contextSize ≤ thread t
  stacks_apart : ∀ t u, t ≠ u →
    stack t + stackBytes t ≤ stack u ∨ stack u + stackBytes u ≤ stack t
  apart : ∀ t u, thread t + contextSize ≤ stack u ∨ stack u + stackBytes u ≤ thread t
  raxSave_thread : ∀ t, Outside (thread t) raxSave
  raxSave_stack : ∀ t, raxSave < stack t ∨ stack t + stackBytes t ≤ raxSave
  raxSave_mapped : raxSave ≠ 0
  thread_mapped : ∀ t, thread t ≠ 0
  stack_mapped : ∀ t, stack t ≠ 0

/-- What a function preserves, and where it returns to. -/
structure Context where
  rbx : Nat
  rbp : Nat
  r12 : Nat
  r13 : Nat
  r14 : Nat
  r15 : Nat
  rsp : Nat
  pc : Nat
  deriving DecidableEq

def contextOf (regs : Registers) (pc : Nat) : Context :=
  ⟨regs .rbx, regs .rbp, regs .r12, regs .r13, regs .r14, regs .r15, regs .rsp, pc⟩

/-- A call that `ThreadRoot` makes. -/
structure Call where
  function : Nat
  arg : Nat
  deriving DecidableEq

/-- The processor, and what has happened: the context of each thread at its latest call of
`SWITCH`, the arguments of `StackAllocate`, the calls by `ThreadRoot`, and the registers at
the start of the called function until it returns. -/
structure State where
  cpu : Cpu
  running : ThreadId
  contexts : ThreadId → Option Context
  starts : ThreadId → Option (Nat × Nat)
  calls : ThreadId → List Call
  entries : ThreadId → Option Registers

namespace Layout

variable (L : Layout)

/-- The address is one of C++ code. -/
def Cxx (pc : Nat) : Prop := ∀ k, pc ≠ L.text k

/-- The stack pointer that a new thread starts with. -/
def top (t : ThreadId) : Nat := stackTop (L.stack t)

/-- What a thread does from its first dispatch on.  The first and the last function have no
argument, and find the address of the last in the register for it. -/
def body (func arg : Nat) : List Call :=
  [⟨L.setupThreadState, L.threadFinish⟩, ⟨func, arg⟩, ⟨L.threadFinish, L.threadFinish⟩]

end Layout

section

variable (L : Layout)

/-- Threads that can be switched to. -/
def State.Known (s : State) (t : ThreadId) : Prop :=
  t = s.running ∨ (s.contexts t).isSome ∨ (s.starts t).isSome

/-- The addresses that only `SWITCH` and `ThreadRoot` write for this thread. -/
def Own (s : State) (t : ThreadId) (a : Nat) : Prop :=
  s.Known t ∧ ¬ Outside (L.thread t) a ∨
    s.calls t ≠ [] ∧ L.top t - 32 ≤ a ∧ a < L.stack t + L.stackBytes t

/-- The end of the stack for the running function: its return address, if `ThreadRoot` has
called it. -/
def limit (s : State) (t : ThreadId) : Nat :=
  match s.entries t with
  | some regs => regs .rsp
  | none => L.stack t + L.stackBytes t

/-- After a call of `SWITCH`, which returns at `pc`. -/
def State.switched (s : State) (new : ThreadId) (pc : Nat) (c : Cpu) : State :=
  { s with
    cpu := c
    running := new
    contexts := Function.update s.contexts s.running (some (contextOf s.cpu.regs pc)) }

/-- After a call by `ThreadRoot`. -/
def State.called (s : State) (c : Cpu) : State :=
  { s with
    cpu := c
    calls := Function.update s.calls s.running (s.calls s.running ++ [⟨c.rip, c.regs .rdi⟩])
    entries := Function.update s.entries s.running (some c.regs) }

/-- After `StackAllocate` for a new thread. -/
def State.allocated (s : State) (t : ThreadId) (func arg : Nat) : State :=
  { s with
    cpu :=
      { s.cpu with
        mem := stackAllocate L.text L.setupThreadState L.threadFinish (L.thread t) (L.stack t)
          func arg s.cpu.mem }
    starts := Function.update s.starts t (some (func, arg)) }

/-- The running thread can call `SWITCH` for a new one, from code that goes on at `pc`. -/
structure CanSwitch (s : State) (new : ThreadId) (pc : Nat) : Prop where
  code : L.Cxx s.cpu.rip
  returns : L.Cxx pc
  rdi : s.cpu.regs .rdi = L.thread s.running
  rsi : s.cpu.regs .rsi = L.thread new
  known : s.Known new
  room : L.stack s.running + 8 ≤ s.cpu.regs .rsp
  below : s.cpu.regs .rsp ≤ limit L s s.running

/-- The call, up to where `SWITCH` returns. -/
inductive Switches (s : State) (new : ThreadId) (pc : Nat) : State → Prop
  | run {c : Cpu} (can : CanSwitch L s new pc)
      (exec : (s.cpu.push pc).bind (exec L.text switchLabel (switch L.raxSave)) = some c) :
      Switches s new pc (s.switched new pc c)

/-- `ThreadRoot` runs up to a call. -/
inductive Calls (s : State) : State → Prop
  | run {k : Nat} {c : Cpu} (label : s.cpu.rip = L.text k) (before : k < 11)
      (exec : exec L.text k (threadRoot.drop k) s.cpu = some c) :
      Calls s (s.called c)

/-- The registers that a function preserves, besides the stack pointer. -/
def calleeSaved : List Register := [.rbx, .rbp, .r12, .r13, .r14, .r15]

inductive Step (s : State) : State → Prop
  | code {c : Cpu} (code : L.Cxx s.cpu.rip) (code' : L.Cxx c.rip)
      (kept : ∀ t a, Own L s t a → c.mem a = s.cpu.mem a) : Step s { s with cpu := c }
  | allocate {t : ThreadId} {func arg : Nat} (code : L.Cxx s.cpu.rip) (new : ¬ s.Known t)
      (size : L.stackBytes t = 8 * stackSize) (func_code : L.Cxx func) :
      Step s (s.allocated L t func arg)
  | switch {new : ThreadId} {pc : Nat} {s' : State} (h : Switches L s new pc s') : Step s s'
  | call {s' : State} (h : Calls L s s') : Step s s'
  | notReached {k : Nat} {c : Cpu} (label : s.cpu.rip = L.text k) (behind : 11 ≤ k)
      (exec : exec L.text k (threadRoot.drop k) s.cpu = some c) : Step s { s with cpu := c }
  | return_ {regs : Registers} {c : Cpu} (code : L.Cxx s.cpu.rip)
      (entry : s.entries s.running = some regs) (pc : c.rip = s.cpu.mem (regs .rsp))
      (rsp : c.regs .rsp = regs .rsp + 8) (saved : ∀ r ∈ calleeSaved, c.regs r = regs r)
      (mem : c.mem = s.cpu.mem) :
      Step s { s with cpu := c, entries := Function.update s.entries s.running none }

/-- The main thread runs, and there is no other one. -/
structure Initial (s : State) : Prop where
  code : L.Cxx s.cpu.rip
  contexts : ∀ t, s.contexts t = none
  starts : ∀ t, s.starts t = none
  calls : ∀ t, s.calls t = []
  entries : ∀ t, s.entries t = none

def system : System State := ⟨Initial L, Step L⟩

/-! ## What memory holds -/

/-- The object of a thread holds what `SWITCH` has saved. -/
structure Holds (m : Mem) (thread : Nat) (ctx : Context) : Prop where
  rbx : m (thread + Slot.rbx) = ctx.rbx
  rbp : m (thread + Slot.rbp) = ctx.rbp
  r12 : m (thread + Slot.r12) = ctx.r12
  r13 : m (thread + Slot.r13) = ctx.r13
  r14 : m (thread + Slot.r14) = ctx.r14
  r15 : m (thread + Slot.r15) = ctx.r15
  /-- It was saved below the return address. -/
  rsp : m (thread + Slot.rsp) + 8 = ctx.rsp
  pc : m (thread + Slot.pc) = ctx.pc

/-- A C++ function of the thread has called `SWITCH`. -/
structure Resumable (s : State) (t : ThreadId) (ctx : Context) : Prop where
  room : L.stack t + 8 ≤ ctx.rsp
  below : ctx.rsp ≤ limit L s t
  returns : L.Cxx ctx.pc
  entered : (s.starts t).isSome → (s.entries t).isSome

structure Suspended (s : State) (t : ThreadId) (ctx : Context) : Prop where
  object : Holds s.cpu.mem (L.thread t) ctx
  resumable : Resumable L s t ctx

/-- The stack of a thread that has been dispatched, behind the return address of the
function that `ThreadRoot` has called. -/
structure Frame (m : Mem) (t : ThreadId) (func arg : Nat) : Prop where
  initialArg : m (L.top t - 24) = arg
  initialPC : m (L.top t - 16) = func
  whenDone : m (L.top t - 8) = L.threadFinish

/-- Where `ThreadRoot` goes on after some calls. -/
def rootLabel : Nat → Nat
  | 0 => 0
  | 1 => 6
  | 2 => 9
  | _ => 11

/-- A function that `ThreadRoot` has called has not returned. -/
structure Entered (s : State) (t : ThreadId) (regs : Registers) : Prop where
  called : s.calls t ≠ []
  rsp : regs .rsp = L.top t - 32
  rbp : regs .rbp = 0
  returns : s.cpu.mem (L.top t - 32) = L.text (rootLabel (s.calls t).length)

structure Started (s : State) (t : ThreadId) (func arg : Nat) : Prop where
  size : L.stackBytes t = 8 * stackSize
  func_code : L.Cxx func
  calls : s.calls t <+: L.body func arg
  frame : s.calls t ≠ [] → Frame L s.cpu.mem t func arg

/-- The object of a thread that has not been dispatched. -/
structure Fresh (s : State) (t : ThreadId) (func arg : Nat) : Prop where
  prepared : Prepared L.text L.setupThreadState L.threadFinish (L.thread t) (L.stack t) func arg
    s.cpu.mem
  calls : s.calls t = []
  entries : s.entries t = none

/-- The invariant of a thread, whether it runs or not. -/
structure Thread (s : State) (t : ThreadId) : Prop where
  unstarted : s.starts t = none → s.calls t = [] ∧ s.entries t = none
  started : ∀ func arg, s.starts t = some (func, arg) → Started L s t func arg
  entered : ∀ regs, s.entries t = some regs → Entered L s t regs
  suspended : ∀ ctx, t ≠ s.running → s.contexts t = some ctx → Suspended L s t ctx
  fresh : ∀ func arg, t ≠ s.running → s.contexts t = none → s.starts t = some (func, arg) →
    Fresh L s t func arg

/-- Where the running thread is. -/
inductive Running (s : State) : Prop
  /-- in C++ code, which `ThreadRoot` has called if the thread was started -/
  | code (code : L.Cxx s.cpu.rip)
      (entered : (s.starts s.running).isSome → (s.entries s.running).isSome)
  /-- at the start of `ThreadRoot` -/
  | start {func arg : Nat} (started : s.starts s.running = some (func, arg))
      (calls : s.calls s.running = []) (entries : s.entries s.running = none)
      (rip : s.cpu.rip = L.text 0) (rsp : s.cpu.regs .rsp = L.top s.running + 8)
      (rcx : s.cpu.regs .rcx = L.setupThreadState) (rsi : s.cpu.regs .rsi = func)
      (rdx : s.cpu.regs .rdx = arg) (rdi : s.cpu.regs .rdi = L.threadFinish)
  /-- in `ThreadRoot` again, after a call -/
  | returned {func arg : Nat} (started : s.starts s.running = some (func, arg))
      (calls : s.calls s.running ≠ []) (entries : s.entries s.running = none)
      (rip : s.cpu.rip = L.text (rootLabel (s.calls s.running).length))
      (rsp : s.cpu.regs .rsp = L.top s.running - 24) (rbp : s.cpu.regs .rbp = 0)

structure Sound (s : State) : Prop where
  threads : ∀ t, Thread L s t
  running : Running L s

end

section

variable {L : Layout} {s s' : State} {t u : ThreadId} {func arg a : Nat}

theorem top_eq (L : Layout) (t : ThreadId) : L.top t = L.stack t + 65408 := rfl

theorem Started.frame_stack (h : Started L s t func arg) :
    L.stack t + L.stackBytes t = L.top t + 128 := by
  have hsize : L.stackBytes t = 65536 := h.size
  rw [top_eq]
  omega

theorem not_outside {thread d : Nat} (hd : d < 264) : ¬ Outside thread (thread + d) := by
  have hsize : contextSize = 264 := rfl
  unfold Outside
  omega

theorem own_slot (h : s.Known t) {d : Nat} (hd : d < 264) : Own L s t (L.thread t + d) :=
  .inl ⟨h, not_outside hd⟩

/-- A thread that has made a call was started. -/
theorem Thread.start (h : Thread L s t) (hne : s.calls t ≠ []) :
    ∃ func arg, s.starts t = some (func, arg) ∧ Started L s t func arg := by
  cases hstart : s.starts t with
  | none => exact absurd (h.unstarted hstart).1 hne
  | some start => exact ⟨start.1, start.2, rfl, h.started start.1 start.2 hstart⟩

theorem Thread.own_frame (h : Thread L s t) (hne : s.calls t ≠ []) {d : Nat} (hd : 8 ≤ d)
    (hd' : d ≤ 32) : Own L s t (L.top t - d) := by
  obtain ⟨func, arg, -, hstarted⟩ := h.start hne
  have hend := hstarted.frame_stack
  exact .inr ⟨hne, by omega, by omega⟩

theorem Frame.congr {m m' : Mem} (h : Frame L m t func arg)
    (hmem : ∀ d, 8 ≤ d → d ≤ 24 → m' (L.top t - d) = m (L.top t - d)) :
    Frame L m' t func arg where
  initialArg := (hmem 24 (by omega) (by omega)).trans h.initialArg
  initialPC := (hmem 16 (by omega) (by omega)).trans h.initialPC
  whenDone := (hmem 8 (by omega) (by omega)).trans h.whenDone

theorem Started.congr (h : Started L s t func arg) (hcalls : s'.calls t = s.calls t)
    (hmem : s.calls t ≠ [] →
      ∀ d, 8 ≤ d → d ≤ 32 → s'.cpu.mem (L.top t - d) = s.cpu.mem (L.top t - d)) :
    Started L s' t func arg where
  size := h.size
  func_code := h.func_code
  calls := hcalls ▸ h.calls
  frame hne := by
    rw [hcalls] at hne
    exact (h.frame hne).congr fun d hd hd' => hmem hne d hd (by omega)

theorem Entered.congr {regs : Registers} (h : Entered L s t regs) (hcalls : s'.calls t = s.calls t)
    (hmem : s'.cpu.mem (L.top t - 32) = s.cpu.mem (L.top t - 32)) : Entered L s' t regs where
  called := hcalls ▸ h.called
  rsp := h.rsp
  rbp := h.rbp
  returns := by
    rw [hmem, hcalls]
    exact h.returns

theorem limit_congr (hentries : s'.entries t = s.entries t) : limit L s' t = limit L s t := by
  unfold limit
  rw [hentries]

theorem Holds.congr {m m' : Mem} {thread : Nat} {ctx : Context} (h : Holds m thread ctx)
    (hmem : ∀ d < 264, m' (thread + d) = m (thread + d)) : Holds m' thread ctx where
  rbx := (hmem Slot.rbx (by decide)).trans h.rbx
  rbp := (hmem Slot.rbp (by decide)).trans h.rbp
  r12 := (hmem Slot.r12 (by decide)).trans h.r12
  r13 := (hmem Slot.r13 (by decide)).trans h.r13
  r14 := (hmem Slot.r14 (by decide)).trans h.r14
  r15 := (hmem Slot.r15 (by decide)).trans h.r15
  rsp := by
    rw [hmem Slot.rsp (by decide)]
    exact h.rsp
  pc := (hmem Slot.pc (by decide)).trans h.pc

theorem Resumable.congr {ctx : Context} (h : Resumable L s t ctx)
    (hstarts : s'.starts t = s.starts t) (hentries : s'.entries t = s.entries t) :
    Resumable L s' t ctx where
  room := h.room
  below := by
    rw [limit_congr hentries]
    exact h.below
  returns := h.returns
  entered := by
    rw [hstarts, hentries]
    exact h.entered

theorem Suspended.congr {ctx : Context} (h : Suspended L s t ctx)
    (hstarts : s'.starts t = s.starts t) (hentries : s'.entries t = s.entries t)
    (hmem : ∀ d < 264, s'.cpu.mem (L.thread t + d) = s.cpu.mem (L.thread t + d)) :
    Suspended L s' t ctx :=
  ⟨h.object.congr hmem, h.resumable.congr hstarts hentries⟩

theorem Fresh.congr (h : Fresh L s t func arg) (hcalls : s'.calls t = s.calls t)
    (hentries : s'.entries t = s.entries t)
    (hmem : ∀ d < 264, s'.cpu.mem (L.thread t + d) = s.cpu.mem (L.thread t + d)) :
    Fresh L s' t func arg :=
  ⟨h.prepared.congr hmem, hcalls.trans h.calls, hentries.trans h.entries⟩

/-- The words that the invariant of a thread reads are its own. -/
theorem Thread.congr (h : Thread L s t) (hrunning : t = s'.running ↔ t = s.running)
    (hcontexts : s'.contexts t = s.contexts t) (hstarts : s'.starts t = s.starts t)
    (hcalls : s'.calls t = s.calls t) (hentries : s'.entries t = s.entries t)
    (hmem : ∀ a, Own L s t a → s'.cpu.mem a = s.cpu.mem a) : Thread L s' t := by
  have hframe : s.calls t ≠ [] →
      ∀ d, 8 ≤ d → d ≤ 32 → s'.cpu.mem (L.top t - d) = s.cpu.mem (L.top t - d) :=
    fun hne d hd hd' => hmem _ (h.own_frame hne hd hd')
  have hobject : s.Known t → ∀ d < 264, s'.cpu.mem (L.thread t + d) = s.cpu.mem (L.thread t + d) :=
    fun hknown d hd => hmem _ (own_slot hknown hd)
  constructor
  · rw [hstarts, hcalls, hentries]
    exact h.unstarted
  · intro func arg hstart
    rw [hstarts] at hstart
    exact (h.started func arg hstart).congr hcalls hframe
  · intro regs hregs
    rw [hentries] at hregs
    have hentered := h.entered regs hregs
    exact hentered.congr hcalls (hframe hentered.called 32 (by omega) (by omega))
  · intro ctx hne hctx
    rw [hcontexts] at hctx
    have hknown : s.Known t := .inr (.inl (by rw [hctx]; rfl))
    exact (h.suspended ctx (mt hrunning.mpr hne) hctx).congr hstarts hentries (hobject hknown)
  · intro func arg hne hctx hstart
    rw [hcontexts] at hctx
    rw [hstarts] at hstart
    have hknown : s.Known t := .inr (.inr (by rw [hstart]; rfl))
    exact (h.fresh func arg (mt hrunning.mpr hne) hctx hstart).congr hcalls hentries
      (hobject hknown)

theorem Thread.of_running (hrun : t = s.running) (hstart : s.starts t = some (func, arg))
    (hstarted : Started L s t func arg)
    (hentered : ∀ regs, s.entries t = some regs → Entered L s t regs) : Thread L s t where
  unstarted hnone := by cases hstart.symm.trans hnone
  started func' arg' hstart' := by
    cases hstart.symm.trans hstart'
    exact hstarted
  entered := hentered
  suspended _ hne := absurd hrun hne
  fresh _ _ hne := absurd hrun hne

/-! ## Addresses apart from each other -/

/-- The stack of the thread, below the frame of `ThreadRoot`. -/
def Writable (L : Layout) (s : State) (t : ThreadId) (a : Nat) : Prop :=
  L.stack t ≤ a ∧ a < L.stack t + L.stackBytes t ∧ (s.calls t ≠ [] → a < L.top t - 32)

theorem own_cases (h : Own L s t a) : L.thread t ≤ a ∧ a < L.thread t + 264 ∨
    s.calls t ≠ [] ∧ L.top t - 32 ≤ a ∧ L.stack t ≤ a ∧ a < L.stack t + L.stackBytes t := by
  rcases h with ⟨-, hin⟩ | ⟨hne, hlow, hhigh⟩
  · have hin' : ¬ (a < L.thread t ∨ L.thread t + 264 ≤ a) := hin
    omega
  · have htop := top_eq L t
    exact .inr ⟨hne, hlow, by omega, hhigh⟩

theorem own_ne_raxSave (h : Own L s t a) : a ≠ L.raxSave := by
  have hthread : L.raxSave < L.thread t ∨ L.thread t + 264 ≤ L.raxSave := L.raxSave_thread t
  have hstack := L.raxSave_stack t
  have hcases := own_cases h
  omega

theorem own_outside (h : Own L s t a) (hne : t ≠ u) : Outside (L.thread u) a := by
  have hthread : L.thread t + 264 ≤ L.thread u ∨ L.thread u + 264 ≤ L.thread t :=
    L.threads_apart t u hne
  have hstack : L.thread u + 264 ≤ L.stack t ∨ L.stack t + L.stackBytes t ≤ L.thread u :=
    L.apart u t
  have hcases := own_cases h
  show a < L.thread u ∨ L.thread u + 264 ≤ a
  omega

theorem own_apart (h : Own L s t a) (hne : t ≠ u) :
    a < L.stack u ∨ L.stack u + L.stackBytes u ≤ a := by
  have hobject : L.thread t + 264 ≤ L.stack u ∨ L.stack u + L.stackBytes u ≤ L.thread t :=
    L.apart t u
  have hstacks := L.stacks_apart t u hne
  have hcases := own_cases h
  omega

theorem own_not_writable (h : Own L s t a) (u : ThreadId) : ¬ Writable L s u a := by
  rintro ⟨hlow, hhigh, hframe⟩
  by_cases htu : t = u
  · subst htu
    have hobject : L.thread t + 264 ≤ L.stack t ∨ L.stack t + L.stackBytes t ≤ L.thread t :=
      L.apart t t
    rcases own_cases h with hin | ⟨hne, hbehind, hstack⟩
    · omega
    · have hbelow := hframe hne
      omega
  · have hapart := own_apart h htu
    omega

theorem stack_outside (hlow : L.stack t ≤ a) (hhigh : a < L.stack t + L.stackBytes t) :
    Outside (L.thread u) a := by
  have hstack : L.thread u + 264 ≤ L.stack t ∨ L.stack t + L.stackBytes t ≤ L.thread u :=
    L.apart u t
  show a < L.thread u ∨ L.thread u + 264 ≤ a
  omega

theorem Writable.ne_raxSave (h : Writable L s t a) : a ≠ L.raxSave := by
  have hstack := L.raxSave_stack t
  obtain ⟨hlow, hhigh, -⟩ := h
  omega

theorem Writable.ne_zero (h : Writable L s t a) : a ≠ 0 := by
  have hstack := L.stack_mapped t
  obtain ⟨hlow, -, -⟩ := h
  omega

/-- A C++ function calls in its part of the stack. -/
theorem Thread.writable (h : Thread L s t) (hentered : (s.starts t).isSome → (s.entries t).isSome)
    {sp : Nat} (hroom : L.stack t + 8 ≤ sp) (hbelow : sp ≤ limit L s t) :
    Writable L s t (sp - 8) := by
  cases hstart : s.starts t with
  | none =>
    obtain ⟨hcalls, hentries⟩ := h.unstarted hstart
    have hlimit : limit L s t = L.stack t + L.stackBytes t := by
      unfold limit
      rw [hentries]
    exact ⟨by omega, by omega, fun hne => absurd hcalls hne⟩
  | some start =>
    obtain ⟨regs, hregs⟩ := Option.isSome_iff_exists.mp (hentered (by rw [hstart]; rfl))
    have hlimit : limit L s t = L.top t - 32 := by
      unfold limit
      rw [hregs]
      exact (h.entered regs hregs).rsp
    have hend := (h.started start.1 start.2 hstart).frame_stack
    exact ⟨by omega, by omega, fun _ => by omega⟩

end

end Switching
end Threads
end Nachos
