import Nachos.FileSys.SynchDisk

/-!
# Requests take their own completions

At any time one thread has the lock of the `SynchDisk`, or none has it and no
request is under way.  So the calls take effect one after the other, in the order
in which they got the lock.
-/

namespace Nachos
namespace FileSys
namespace Requests

open Lib Threads

/-! ## What holds in every state -/

section Invariant

/-- No request is under way. -/
structure Idle (s : State) : Prop where
  active : s.active = false
  pending : s.pending = []
  semaphore : s.semaphore = { value := 0, queue := [] }
  posted : s.history.posted = []

/-- The interrupt of request `i` is still to come, and `queue` waits for it. -/
structure Busy (s : State) (i : Nat) (queue : List ThreadId) : Prop where
  active : s.active = true
  pending : s.pending = [i]
  semaphore : s.semaphore = { value := 0, queue := queue }
  posted : s.history.posted = []

/-- The completion of request `i` waits in the semaphore. -/
structure Done (s : State) (i : Nat) : Prop where
  active : s.active = false
  pending : s.pending = []
  semaphore : s.semaphore = { value := 1, queue := [] }
  posted : s.history.posted = [i]
  completed : i ∈ s.history.completed

/-- Request `i` took its own completion. -/
structure Received (s : State) (i : Nat) : Prop where
  completed : i ∈ s.history.completed
  consumed : (i, i) ∈ s.history.consumed

variable (d : Disk)

/-- Request `i` is the last to have the lock, and the calls before it have been performed. -/
structure Next (s : State) (i : Nat) (op : Op) (before : List Op) : Prop where
  acquired : s.history.acquired = before ++ [op]
  number : i = before.length
  contents : contents s.file = performed d before

/-- Request `i` is the last to have the lock and has been performed. -/
structure Made (s : State) (i : Nat) (op : Op) (data : Option Sector) (before : List Op) :
    Prop where
  acquired : s.history.acquired = before ++ [op]
  number : i = before.length
  contents : contents s.file = performed d s.history.acquired
  data : data = op.result (performed d before)

/-- What holds while thread `t` has the lock. -/
def Holds (s : State) (t : ThreadId) : Pc → Prop
  | .request i op => Idle s ∧ ∃ before, Next d s i op before
  | .p i op data => (Busy s i [] ∨ Done s i) ∧ ∃ before, Made d s i op data before
  | .asleep i op data => Busy s i [t] ∧ ∃ before, Made d s i op data before
  | .woken i op data => Done s i ∧ ∃ before, Made d s i op data before
  | .release i op data => (Idle s ∧ Received s i) ∧ ∃ before, Made d s i op data before
  | _ => False

/-- A call without the lock. -/
def Outside : Pc → Prop
  | .outside => True
  | .acquire op => OnDisk op.sectorNumber
  | _ => False

/-- A call that returned took its own completion and did what it does by itself after the
calls that had the lock before it. -/
structure Right (s : State) (r : Returned) : Prop where
  received : Received s r.number
  acquired : s.history.acquired[r.number]? = some r.op
  data : r.data = r.op.result (performed d (s.history.acquired.take r.number))

/-- The invariant of the system. -/
structure Invariant (s : State) : Prop where
  failed : s.failed = []
  inRange : ∀ op ∈ s.history.acquired, OnDisk op.sectorNumber
  outside : ∀ t, s.lock ≠ some t → Outside (s.threads t)
  holder : ∀ t, s.lock = some t → Holds d s t (s.threads t)
  free : s.lock = none → Idle s ∧ contents s.file = performed d s.history.acquired
  consumed : ∀ i j, (i, j) ∈ s.history.consumed → i = j
  returned : ∀ r ∈ s.history.returned, Right d s r

end Invariant

/-! ## Steps of the thread with the lock -/

variable {d : Disk} {s s' : State} {t u : ThreadId} {i : Nat} {op : Op} {data : Option Sector}

theorem Made.number_lt {before : List Op} (h : Made d s i op data before) :
    s.history.acquired[i]? = some op := by
  rw [h.acquired, h.number]
  exact List.getElem?_concat_length

theorem Made.take {before : List Op} (h : Made d s i op data before) :
    s.history.acquired.take i = before := by
  rw [h.acquired, h.number]
  exact List.take_left

/-- A thread past `Acquire` has the lock. -/
theorem Invariant.lock_of (h : Invariant d s) (ht : ¬ Outside (s.threads t)) :
    s.lock = some t := by
  by_contra hl
  exact ht (h.outside t hl)

theorem Invariant.holds_of (h : Invariant d s) {pc : Pc} (ht : s.threads t = pc)
    (hpc : ¬ Outside pc) : s.lock = some t ∧ Holds d s t pc := by
  have hl : s.lock = some t := h.lock_of (by rwa [ht])
  refine ⟨hl, ?_⟩
  rw [← ht]
  exact h.holder t hl

/-- A step to `pc` of the thread `t` that has the lock: the other threads, and what has been
recorded, are left alone. -/
structure Frame (s s' : State) (t : ThreadId) (pc : Pc) : Prop where
  lock : s'.lock = s.lock
  failed : s'.failed = s.failed
  threads : s'.threads = Function.update s.threads t pc
  acquired : s'.history.acquired = s.history.acquired
  completed : s.history.completed ⊆ s'.history.completed
  consumed : s.history.consumed ⊆ s'.history.consumed
  returned : s'.history.returned = s.history.returned

theorem Received.mono (h : Received s i) (hc : s.history.completed ⊆ s'.history.completed)
    (ht : s.history.consumed ⊆ s'.history.consumed) : Received s' i :=
  ⟨hc h.completed, ht h.consumed⟩

/-- A step in the frame of the lock holder keeps the invariant if it keeps what holds of the
holder and tokens go to their requests. -/
theorem Frame.invariant {pc : Pc} (hf : Frame s s' t pc) (h : Invariant d s)
    (hl : s.lock = some t) (hholds : Holds d s' t pc)
    (hconsumed : ∀ i j, (i, j) ∈ s'.history.consumed → i = j) : Invariant d s' where
  failed := hf.failed.trans h.failed
  inRange := by
    rw [hf.acquired]
    exact h.inRange
  outside := by
    intro u hu
    have hne : u ≠ t := by
      rintro rfl
      exact hu (hf.lock.trans hl)
    rw [hf.threads, Function.update_of_ne hne]
    exact h.outside u (by rwa [hf.lock] at hu)
  holder := by
    intro u hu
    obtain rfl : t = u := Option.some.inj (hl.symm.trans (hf.lock.symm.trans hu))
    rw [hf.threads, Function.update_self]
    exact hholds
  free hn := by
    rw [hf.lock, hl] at hn
    exact absurd hn (Option.some_ne_none t)
  consumed := hconsumed
  returned := by
    intro r hr
    rw [hf.returned] at hr
    have hright := h.returned r hr
    refine ⟨hright.received.mono hf.completed hf.consumed, ?_, ?_⟩
    · rw [hf.acquired]
      exact hright.acquired
    · rw [hf.acquired]
      exact hright.data

theorem Invariant.request (h : Invariant d s) (ht : s.threads t = .request i op) :
    Invariant d (s.request t i op) := by
  obtain ⟨hl, hidle, before, hnext⟩ := h.holds_of ht id
  have hop : OnDisk op.sectorNumber :=
    h.inRange op (by rw [hnext.acquired]; exact List.mem_concat_self)
  let N : State := { s.moveTo t (.p i op (op.data s.file)) with
    file := op.transfer s.file, active := true, pending := s.pending ++ [i] }
  have heq : s.request t i op = N := by
    rw [State.request, hidle.active, if_neg Bool.false_ne_true, if_neg (not_not_intro hop)]
  have hframe : Frame s N t (.p i op (op.data s.file)) :=
    ⟨rfl, rfl, rfl, rfl, List.Subset.refl _, List.Subset.refl _, rfl⟩
  rw [heq]
  refine hframe.invariant h hl ⟨.inl ⟨rfl, ?_, hidle.semaphore, hidle.posted⟩, before,
    hnext.acquired, hnext.number, ?_, ?_⟩ h.consumed
  · show s.pending ++ [i] = [i]
    rw [hidle.pending, List.nil_append]
  · show contents (op.transfer s.file) = performed d s.history.acquired
    rw [Op.contents_transfer hop, hnext.contents, hnext.acquired, performed_concat]
  · rw [Op.data_eq_result hop, hnext.contents]

/-- The test in `P` puts the thread to sleep, or hands it the completion of its own request. -/
theorem Invariant.test (h : Invariant d s) (hl : s.lock = some t)
    (hwait : Busy s i [] ∨ Done s i) (hmade : ∃ before, Made d s i op data before) :
    Invariant d (s.test t i op data) := by
  obtain ⟨before, hmade⟩ := hmade
  rcases hwait with hbusy | hdone
  · let N : State := { s.moveTo t (.asleep i op data) with
      semaphore := { value := 0, queue := [t] } }
    have heq : s.test t i op data = N := by
      rw [State.test, Semaphore.test_zero (by rw [hbusy.semaphore]), hbusy.semaphore]
      rfl
    have hframe : Frame s N t (.asleep i op data) :=
      ⟨rfl, rfl, rfl, rfl, List.Subset.refl _, List.Subset.refl _, rfl⟩
    rw [heq]
    exact hframe.invariant h hl ⟨{ hbusy with semaphore := rfl }, before, { hmade with }⟩
      h.consumed
  · let N : State := { s.moveTo t (.release i op data) with
      semaphore := { value := 0, queue := [] }
      history :=
        { s.history with posted := [], consumed := s.history.consumed ++ [(i, i)] } }
    have heq : s.test t i op data = N := by
      rw [State.test, Semaphore.test_nonzero (by rw [hdone.semaphore]; decide),
        hdone.semaphore, hdone.posted]
      rfl
    have hframe : Frame s N t (.release i op data) :=
      ⟨rfl, rfl, rfl, rfl, List.Subset.refl _, List.subset_append_left _ _, rfl⟩
    rw [heq]
    refine hframe.invariant h hl ⟨⟨⟨hdone.active, hdone.pending, rfl, rfl⟩, hdone.completed,
      List.mem_concat_self⟩, before, { hmade with }⟩ ?_
    intro j k hjk
    rcases List.mem_append.mp hjk with hold | hnew
    · exact h.consumed j k hold
    · obtain ⟨rfl, rfl⟩ := Prod.mk.inj (List.mem_singleton.mp hnew)
      rfl

theorem Invariant.p (h : Invariant d s) (ht : s.threads t = .p i op data) :
    Invariant d (s.p t i op data) := by
  obtain ⟨hl, hwait, hmade⟩ := h.holds_of ht id
  have hvalue : 0 ≤ s.semaphore.value := by
    rcases hwait with hbusy | hdone
    · rw [hbusy.semaphore]
    · rw [hdone.semaphore]
      exact zero_le_one
  rw [State.p, if_pos hvalue]
  exact h.test hl hwait hmade

theorem Invariant.retest (h : Invariant d s) (ht : s.threads t = .woken i op data) :
    Invariant d (s.test t i op data) := by
  obtain ⟨hl, hdone, hmade⟩ := h.holds_of ht id
  exact h.test hl (.inr hdone) hmade

/-- After the interrupt the completion of request `i` waits for the thread that has the
lock. -/
theorem Invariant.complete (h : Invariant d s) (hl : s.lock = some t)
    (hmade : ∃ before, Made d s i op data before) (pc : Pc)
    (hpc : ∀ s', Done s' i → (∃ before, Made d s' i op data before) → Holds d s' t pc) :
    Invariant d { s.moveTo t pc with
      pending := [], active := false, semaphore := { value := 1, queue := [] }
      history := { s.history with
        completed := s.history.completed ++ [i], posted := [i] } } := by
  obtain ⟨before, hmade⟩ := hmade
  let N : State := { s.moveTo t pc with
    pending := [], active := false, semaphore := { value := 1, queue := [] }
    history := { s.history with
      completed := s.history.completed ++ [i], posted := [i] } }
  have hframe : Frame s N t pc :=
    ⟨rfl, rfl, rfl, rfl, List.subset_append_left _ _, List.Subset.refl _, rfl⟩
  have hdone : Done N i := ⟨rfl, rfl, rfl, rfl, List.mem_concat_self⟩
  exact hframe.invariant h hl (hpc N hdone ⟨before, { hmade with }⟩) h.consumed

/-- The interrupt of the one request under way wakes the thread that has the lock, if it
sleeps, and else leaves the completion for it. -/
theorem Invariant.interrupt (h : Invariant d s) (hi : i ∈ s.pending) :
    Invariant d (s.handleInterrupt i) := by
  have hnone : s.pending ≠ [] := List.ne_nil_of_mem hi
  cases hl : s.lock with
  | none => exact absurd (h.free hl).1.pending hnone
  | some t =>
    have hholds := h.holder t hl
    cases ht : s.threads t with
    | outside => rw [ht] at hholds; exact hholds.elim
    | acquire op => rw [ht] at hholds; exact hholds.elim
    | request j op => rw [ht] at hholds; exact absurd hholds.1.pending hnone
    | woken j op data => rw [ht] at hholds; exact absurd hholds.1.pending hnone
    | release j op data => rw [ht] at hholds; exact absurd hholds.1.1.pending hnone
    | p j op data =>
      rw [ht] at hholds
      obtain ⟨hbusy | hdone, hmade⟩ := hholds
      · rw [hbusy.pending, List.mem_singleton] at hi
        subst hi
        have hstay : Function.update s.threads t (.p i op data) = s.threads := by
          rw [← ht, Function.update_eq_self]
        have hdone := h.complete hl hmade (.p i op data) fun _ hd hm => ⟨.inr hd, hm⟩
        simp only [State.moveTo, hstay] at hdone
        simpa [State.handleInterrupt, State.v, hbusy.semaphore, hbusy.pending, hbusy.posted,
          Semaphore.post, State.ready] using hdone
      · exact absurd hdone.pending hnone
    | asleep j op data =>
      rw [ht] at hholds
      obtain ⟨hbusy, hmade⟩ := hholds
      rw [hbusy.pending, List.mem_singleton] at hi
      subst hi
      have hdone := h.complete hl hmade (.woken i op data) fun _ hd hm => ⟨hd, hm⟩
      simpa [State.handleInterrupt, State.v, hbusy.semaphore, hbusy.pending, hbusy.posted,
        Semaphore.post, State.ready, ht, State.moveTo] using hdone

/-! ## Calls that come and go -/

theorem Holds.moveTo {pc : Pc} (h : Holds d s t pc) (pc' : Pc) :
    Holds d (s.moveTo u pc') t pc := by
  cases pc with
  | outside => exact h
  | acquire op => exact h
  | request i op =>
    obtain ⟨hidle, before, hnext⟩ := h
    exact ⟨{ hidle with }, before, { hnext with }⟩
  | p i op data =>
    obtain ⟨hbusy | hdone, before, hmade⟩ := h
    · exact ⟨.inl { hbusy with }, before, { hmade with }⟩
    · exact ⟨.inr { hdone with }, before, { hmade with }⟩
  | asleep i op data =>
    obtain ⟨hbusy, before, hmade⟩ := h
    exact ⟨{ hbusy with }, before, { hmade with }⟩
  | woken i op data =>
    obtain ⟨hdone, before, hmade⟩ := h
    exact ⟨{ hdone with }, before, { hmade with }⟩
  | release i op data =>
    obtain ⟨⟨hidle, hreceived⟩, before, hmade⟩ := h
    exact ⟨⟨{ hidle with }, { hreceived with }⟩, before, { hmade with }⟩

theorem Invariant.call (h : Invariant d s) (ht : s.threads t = .outside)
    (hop : OnDisk op.sectorNumber) : Invariant d (s.moveTo t (.acquire op)) where
  failed := h.failed
  inRange := h.inRange
  outside := by
    intro u hu
    by_cases hne : u = t
    · subst hne
      show Outside (Function.update s.threads u _ u)
      rw [Function.update_self]
      exact hop
    · show Outside (Function.update s.threads t _ u)
      rw [Function.update_of_ne hne]
      exact h.outside u hu
  holder := by
    intro u hu
    have hholds := h.holder u hu
    have hne : u ≠ t := by
      rintro rfl
      rw [ht] at hholds
      exact hholds
    show Holds d _ u (Function.update s.threads t _ u)
    rw [Function.update_of_ne hne]
    exact hholds.moveTo _
  free hl := ⟨{ (h.free hl).1 with }, (h.free hl).2⟩
  consumed := h.consumed
  returned r hr := ⟨{ (h.returned r hr).received with }, (h.returned r hr).acquired,
    (h.returned r hr).data⟩

/-- A call that came earlier is not disturbed by one that gets the lock later. -/
theorem Right.acquire {r : Returned} (h : Right d s r) (op : Op) :
    Right d (s.acquire t op) r := by
  have hlt : r.number < s.history.acquired.length := List.getElem?_eq_some_iff.mp h.acquired |>.1
  refine ⟨{ h.received with }, ?_, ?_⟩
  · show (s.history.acquired ++ [op])[r.number]? = _
    rw [List.getElem?_append_left hlt]
    exact h.acquired
  · show _ = r.op.result (performed d ((s.history.acquired ++ [op]).take r.number))
    rw [List.take_append_of_le_length (Nat.le_of_lt hlt)]
    exact h.data

theorem Invariant.acquire (h : Invariant d s) (ht : s.threads t = .acquire op)
    (hl : s.lock = none) : Invariant d (s.acquire t op) where
  failed := h.failed
  inRange := by
    have hop : Outside (s.threads t) := h.outside t (by rw [hl]; exact (Option.some_ne_none t).symm)
    rw [ht] at hop
    intro o ho
    rcases List.mem_append.mp ho with hold | hnew
    · exact h.inRange o hold
    · obtain rfl := List.mem_singleton.mp hnew
      exact hop
  outside := by
    intro u hu
    have hne : u ≠ t := fun e => hu (congrArg some e.symm)
    show Outside (Function.update s.threads t _ u)
    rw [Function.update_of_ne hne]
    exact h.outside u (by rw [hl]; exact (Option.some_ne_none u).symm)
  holder := by
    intro u hu
    obtain rfl : t = u := Option.some.inj hu
    show Holds d _ t (Function.update s.threads t _ t)
    rw [Function.update_self]
    exact ⟨{ (h.free hl).1 with }, s.history.acquired, rfl, rfl, (h.free hl).2⟩
  free hn := absurd hn (Option.some_ne_none t)
  consumed := h.consumed
  returned r hr := (h.returned r hr).acquire op

theorem Invariant.release (h : Invariant d s) (ht : s.threads t = .release i op data) :
    Invariant d (s.release t i op data) := by
  obtain ⟨hl, ⟨hidle, hreceived⟩, before, hmade⟩ := h.holds_of ht id
  refine ⟨h.failed, h.inRange, ?_, fun u hu => absurd hu.symm (Option.some_ne_none u),
    fun _ => ⟨{ hidle with }, hmade.contents⟩, h.consumed, ?_⟩
  · intro u hu
    by_cases hne : u = t
    · subst hne
      show Outside (Function.update s.threads u _ u)
      rw [Function.update_self]
      trivial
    · show Outside (Function.update s.threads t _ u)
      rw [Function.update_of_ne hne]
      exact h.outside u (by rw [hl]; exact fun e => hne (Option.some.inj e).symm)
  · intro r hr
    rcases List.mem_append.mp hr with hold | hnew
    · have hright := h.returned r hold
      exact ⟨{ hright.received with }, hright.acquired, hright.data⟩
    · obtain rfl := List.mem_singleton.mp hnew
      refine ⟨{ hreceived with }, hmade.number_lt, ?_⟩
      show data = op.result (performed d (s.history.acquired.take i))
      rw [hmade.take]
      exact hmade.data

theorem Invariant.step (h : Invariant d s) (hstep : Step s s') : Invariant d s' := by
  cases hstep with
  | call ht hop => exact h.call ht hop
  | acquire ht hl => exact h.acquire ht hl
  | request ht => exact h.request ht
  | p ht => exact h.p ht
  | test ht => exact h.retest ht
  | release ht => exact h.release ht
  | interrupt hi => exact h.interrupt hi

theorem invariant_initial (file : Block) :
    Invariant (contents file) (State.initial file) where
  failed := rfl
  inRange _ hop := absurd hop List.not_mem_nil
  outside _ _ := trivial
  holder t ht := absurd ht.symm (Option.some_ne_none t)
  free _ := ⟨⟨rfl, rfl, rfl, rfl⟩, rfl⟩
  consumed _ _ hij := absurd hij List.not_mem_nil
  returned _ hr := absurd hr List.not_mem_nil

theorem invariant_of_reachable {file : Block} (hs : (system file).Reachable s) :
    Invariant (contents file) s := by
  refine hs.induct ?_ ?_
  · rintro s₀ rfl
    exact invariant_initial file
  · rintro s s' h ⟨_, hstep⟩
    exact h.step hstep

/-! ## An atomic store of sectors -/

theorem file_test : (s.test t i op data).file = s.file := by
  unfold State.test
  split <;> rfl

theorem file_p : (s.p t i op data).file = s.file := by
  unfold State.p
  split
  · exact file_test
  · rfl

theorem file_ready (woken : Option ThreadId) : (s.ready woken).file = s.file := by
  unfold State.ready
  split
  · rfl
  · split <;> rfl

theorem file_handleInterrupt : (s.handleInterrupt i).file = s.file := by
  unfold State.handleInterrupt State.v
  split
  · exact file_ready _
  · rfl

/-- Only a write request changes the file, and only in its own sector. -/
theorem Step.writes (hstep : Step s s') {n : Int} (hn : OnDisk n)
    (hne : readFile s'.file n ≠ readFile s.file n) :
    ∃ t i data, s.threads t = .request i (.write n data) ∧ readFile s'.file n = data := by
  cases hstep with
  | call ht hop => exact absurd rfl hne
  | acquire ht hl => exact absurd rfl hne
  | p ht => exact absurd (by rw [file_p]) hne
  | test ht => exact absurd (by rw [file_test]) hne
  | release ht => exact absurd rfl hne
  | interrupt hi => exact absurd (by rw [file_handleInterrupt]) hne
  | @request t i op ht =>
    unfold State.request at hne ⊢
    split at hne
    · exact absurd rfl hne
    split at hne
    · exact absurd rfl hne
    rename_i hactive hop
    rw [if_neg hactive, if_neg hop]
    cases op with
    | read m => exact absurd rfl hne
    | write m data =>
      have hm : OnDisk m := not_not.mp hop
      by_cases hmn : n = m
      · subst hmn
        exact ⟨t, i, data, ht, readFile_writeFile_self ..⟩
      · exact absurd (readFile_writeFile_of_ne hn hm hmn ..) hne

/-- The calls `ops` of the file system's interface, one after the other. -/
def inOrder : List Op → SynchDisk Unit
  | [] => pure ()
  | op :: ops => do
      let _ ← op.perform
      inOrder ops

theorem inOrder_run {ops : List Op} (h : ∀ op ∈ ops, OnDisk op.sectorNumber) (d : Disk) :
    (inOrder ops).run d = .ok ((), performed d ops) := by
  induction ops generalizing d with
  | nil => rfl
  | cons op ops ih =>
    have hop : OnDisk op.sectorNumber := h op List.mem_cons_self
    have hops : ∀ o ∈ ops, OnDisk o.sectorNumber := fun o ho => h o (List.mem_cons_of_mem op ho)
    exact (run_bind (Op.perform_run hop d)).trans (ih hops _)

/-- A call hands back what it does if the calls before it at the lock are made one after the
other, and then itself. -/
theorem returned_eq_inOrder {file : Block} (hs : (system file).Reachable s) {r : Returned}
    (hr : r ∈ s.history.returned) :
    ∃ d', (do inOrder (s.history.acquired.take r.number); r.op.perform : SynchDisk _).run
      (contents file) = .ok (r.data, d') := by
  have h := invariant_of_reachable hs
  have hright := h.returned r hr
  have hop : OnDisk r.op.sectorNumber := h.inRange _ (List.mem_of_getElem? hright.acquired)
  have hbefore : ∀ op ∈ s.history.acquired.take r.number, OnDisk op.sectorNumber :=
    fun op ho => h.inRange op (List.mem_of_mem_take ho)
  refine ⟨r.op.apply (performed (contents file) (s.history.acquired.take r.number)), ?_⟩
  rw [hright.data]
  exact (run_bind (inOrder_run hbefore _)).trans (Op.perform_run hop _)

/-- While no call has the lock, each sector holds what was last written to it. -/
theorem contents_of_free {file : Block} (hs : (system file).Reachable s) (hl : s.lock = none)
    {n : Int} (hn : OnDisk n) :
    readFile s.file n = lastWritten (contents file) s.history.acquired n := by
  have h := (invariant_of_reachable hs).free hl
  rw [← sector_contents hn, h.2, sector_performed hn]

/-- In every interleaving of calls and interrupts no `ASSERT` fails, a request takes no
completion but its own and its call returns after it, a read returns what was last written in
the order of the lock, and a write changes its own sector only. -/
theorem synchDisk_atomic {file : Block} (hs : (system file).Reachable s) :
    s.failed = [] ∧
    (∀ i j, (i, j) ∈ s.history.consumed → i = j) ∧
    (∀ r ∈ s.history.returned, s.history.acquired[r.number]? = some r.op ∧
      r.number ∈ s.history.completed ∧ (r.number, r.number) ∈ s.history.consumed) ∧
    (∀ r ∈ s.history.returned, ∀ n, r.op = .read n →
      r.data = some (lastWritten (contents file) (s.history.acquired.take r.number) n)) ∧
    (∀ s', Step s s' → ∀ n, OnDisk n → readFile s'.file n ≠ readFile s.file n →
      ∃ t i data, s.threads t = .request i (.write n data) ∧ readFile s'.file n = data) := by
  have h := invariant_of_reachable hs
  refine ⟨h.failed, h.consumed, ?_, ?_, fun s' hstep n hn hne => hstep.writes hn hne⟩
  · intro r hr
    have hright := h.returned r hr
    exact ⟨hright.acquired, hright.received.completed, hright.received.consumed⟩
  · intro r hr n hop
    have hright := h.returned r hr
    have hn : OnDisk (Op.read n).sectorNumber := by
      rw [← hop]
      exact h.inRange _ (List.mem_of_getElem? hright.acquired)
    rw [hright.data, hop, Op.result, sector_performed (n := n) hn]

/-- Thread 1 calls while thread 0 writes, and reads what that has written. -/
theorem synchDisk_atomic_two_callers :
    ∃ s, (system (fun _ => 0)).Reachable s ∧ s.history.returned.length = 2 ∧
      ∃ r ∈ s.history.returned, r.op = .read 3 ∧
        r.data = some (Sector.ofBlock fun _ => 7) := by
  have hs := System.Reachable.of_init (S := system (fun _ => 0)) (s := State.initial _) rfl
  have hs := hs.step ⟨rfl, @Step.call _ 0 (.write 3 (Sector.ofBlock fun _ => 7)) rfl (by decide)⟩
  have hs := hs.step ⟨rfl, .acquire (t := 0) rfl rfl⟩
  have hs := hs.step ⟨rfl, @Step.call _ 1 (.read 3) rfl (by decide)⟩
  have hs := hs.step ⟨rfl, .request (t := 0) rfl⟩
  have hs := hs.step ⟨rfl, .p (t := 0) rfl⟩
  have hs := hs.step ⟨rfl, .interrupt (i := 0) List.mem_cons_self⟩
  have hs := hs.step ⟨rfl, .test (t := 0) rfl⟩
  have hs := hs.step ⟨rfl, .release (t := 0) rfl⟩
  have hs := hs.step ⟨rfl, .acquire (t := 1) rfl rfl⟩
  have hs := hs.step ⟨rfl, .request (t := 1) rfl⟩
  have hs := hs.step ⟨rfl, .p (t := 1) rfl⟩
  have hs := hs.step ⟨rfl, .interrupt (i := 1) List.mem_cons_self⟩
  have hs := hs.step ⟨rfl, .test (t := 1) rfl⟩
  have hs := hs.step ⟨rfl, .release (t := 1) rfl⟩
  have hmem : ∀ {l : List Returned} (hlt : 1 < l.length), l[1] ∈ l := List.getElem_mem
  exact ⟨_, hs, rfl, _, hmem (by decide), rfl,
    (synchDisk_atomic hs).2.2.2.1 _ (hmem (by decide)) 3 rfl⟩

end Requests
end FileSys
end Nachos
