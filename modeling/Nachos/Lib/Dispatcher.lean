import Nachos.Lib.Enumeration
import Mathlib.Data.List.Rotate
import Mathlib.Logic.Relation

/-!
# One processor, a FIFO ready list, and counters to wait on

Threads take turns on one processor.  A thread that gives it up goes to the end
of the ready list, or blocks in the queue of a counter until somebody takes it
out and puts it on the ready list, or is done.  Taking a thread out of a queue
does not hand it the unit: it has to look at the counter again, and another
thread may have been faster.  A thread that is done is deleted by the next one.
-/

namespace Lib

/-- What a thread is doing.  One that was taken out of the queue of `s` carries
`some s` until it has looked at the counter again. -/
inductive Phase (σ : Type) where
  | absent
  | created
  | ready (woken : Option σ)
  | running (woken : Option σ)
  | blocked (s : σ)
  | done
  | gone
  deriving DecidableEq

namespace Phase

variable {σ : Type}

@[simp] def Alive : Phase σ → Prop
  | .absent | .gone => False
  | _ => True

@[simp] def Ready : Phase σ → Prop
  | .ready _ => True
  | _ => False

@[simp] def Running : Phase σ → Prop
  | .running _ => True
  | _ => False

@[simp] def BlockedOn (s : σ) : Phase σ → Prop
  | .blocked s' => s' = s
  | _ => False

@[simp] def Done : Phase σ → Prop
  | .done => True
  | _ => False

@[simp] def Gone : Phase σ → Prop
  | .gone => True
  | _ => False

/-- The thread has finished. -/
@[simp] def Over : Phase σ → Prop
  | .done | .gone => True
  | _ => False

theorem ready_iff {p : Phase σ} : p.Ready ↔ ∃ w, p = .ready w := by
  cases p <;> simp

theorem blockedOn_iff {p : Phase σ} {s : σ} : p.BlockedOn s ↔ p = .blocked s := by
  cases p <;> simp

theorem done_iff {p : Phase σ} : p.Done ↔ p = .done := by
  cases p <;> simp

/-- The thread has been taken out of the queue of `s` and has not looked at the
counter again. -/
def InFlight (s : σ) (p : Phase σ) : Prop := p = .ready (some s) ∨ p = .running (some s)

instance [DecidableEq σ] (s : σ) : DecidablePred (InFlight s) :=
  fun p => inferInstanceAs (Decidable (p = .ready (some s) ∨ p = .running (some s)))

end Phase

namespace Dispatcher

inductive Event (τ σ : Type) where
  | readied (t : τ)
  | switched (t u : τ)
  | finished (t : τ)
  | deleted (t u : τ)
  | up (s : σ)
  | down (s : σ)
  deriving DecidableEq

end Dispatcher

/-- `log` is what has happened so far, in order. -/
structure Dispatcher (τ σ : Type) where
  alive : List τ
  ready : List τ
  cpu : τ
  queue : σ → List τ
  value : σ → Int
  phase : τ → Phase σ
  zombie : Option τ
  log : List (Dispatcher.Event τ σ)

namespace Dispatcher

variable {τ σ : Type} [DecidableEq τ] [DecidableEq σ] {a b : Dispatcher τ σ}

/-- One change of the state. -/
inductive Move : Dispatcher τ σ → Dispatcher τ σ → Prop
  | create {a : Dispatcher τ σ} {t : τ} (ht : a.phase t = .absent) :
      Move a { a with
        alive := a.alive ++ [t]
        phase := Function.update a.phase t .created }
  | start {a : Dispatcher τ σ} {t : τ} (ht : a.phase t = .created) :
      Move a { a with
        ready := a.ready ++ [t]
        phase := Function.update a.phase t (.ready none)
        log := a.log ++ [.readied t] }
  | yieldTo {a : Dispatcher τ σ} {n : τ} {rest : List τ} {w w' : Option σ}
      (hr : a.ready = n :: rest) (hn : a.phase n = .ready w) (hc : a.phase a.cpu = .running w')
      (hz : a.zombie = none) :
      Move a { a with
        ready := rest ++ [a.cpu]
        cpu := n
        phase := Function.update (Function.update a.phase a.cpu (.ready w')) n (.running w)
        log := a.log ++ [.readied a.cpu, .switched a.cpu n] }
  | block {a : Dispatcher τ σ} {s : σ} {w : Option σ} (hc : a.phase a.cpu = .running w)
      (hw : w = none ∨ w = some s) (hv : a.value s = 0) :
      Move a { a with
        queue := Function.update a.queue s (a.queue s ++ [a.cpu])
        phase := Function.update a.phase a.cpu (.blocked s) }
  | take {a : Dispatcher τ σ} {s : σ} {w : Option σ} (hc : a.phase a.cpu = .running w)
      (hw : w = none ∨ w = some s) (hv : a.value s ≠ 0) :
      Move a { a with
        value := Function.update a.value s (a.value s - 1)
        phase := Function.update a.phase a.cpu (.running none)
        log := a.log ++ [.down s] }
  | up {a : Dispatcher τ σ} {s : σ} (hq : a.queue s = []) :
      Move a { a with
        value := Function.update a.value s (a.value s + 1)
        log := a.log ++ [.up s] }
  | wake {a : Dispatcher τ σ} {s : σ} {t : τ} {q : List τ} (hq : a.queue s = t :: q) :
      Move a { a with
        queue := Function.update a.queue s q
        ready := a.ready ++ [t]
        phase := Function.update a.phase t (.ready (some s))
        value := Function.update a.value s (a.value s + 1)
        log := a.log ++ [.readied t, .up s] }
  | finish {a : Dispatcher τ σ} (hc : a.phase a.cpu = .running none)
      (hz : a.zombie = none) :
      Move a { a with
        phase := Function.update a.phase a.cpu .done
        zombie := some a.cpu
        log := a.log ++ [.finished a.cpu] }
  | dispatch {a : Dispatcher τ σ} {n : τ} {rest : List τ} {w : Option σ}
      (hr : a.ready = n :: rest) (hn : a.phase n = .ready w)
      (hc : ¬ (a.phase a.cpu).Running) (hz : a.zombie = none ∨ a.zombie = some a.cpu) :
      Move a { a with
        ready := rest
        cpu := n
        phase := Function.update a.phase n (.running w)
        log := a.log ++ [.switched a.cpu n] }
  | reap {a : Dispatcher τ σ} {z : τ} (hz : a.zombie = some z) (hne : z ≠ a.cpu) :
      Move a { a with
        alive := a.alive.erase z
        phase := Function.update a.phase z .gone
        zombie := none
        log := a.log ++ [.deleted z a.cpu] }

/-! ## Every thread is where its phase says -/

structure Placed (a : Dispatcher τ σ) : Prop where
  alive : Enumerates a.alive fun t => (a.phase t).Alive
  ready : Enumerates a.ready fun t => (a.phase t).Ready
  queue : ∀ s, Enumerates (a.queue s) fun t => (a.phase t).BlockedOn s
  zombie : Enumerates a.zombie.toList fun t => (a.phase t).Done
  running : ∀ t, (a.phase t).Running → t = a.cpu

theorem Move.placed (h : Move a b) (ha : Placed a) : Placed b := by
  obtain ⟨halive, hready, hqueue, hzombie, hrunning⟩ := ha
  cases h with
  | create ht =>
    refine ⟨halive.append ?_ ?_, hready.keep ?_, fun s => (hqueue s).keep ?_, hzombie.keep ?_,
      update_implies hrunning ?_⟩ <;> simp [ht]
  | start ht =>
    refine ⟨halive.keep ?_, hready.append ?_ ?_, fun s => (hqueue s).keep ?_, hzombie.keep ?_,
      update_implies hrunning ?_⟩ <;> simp [ht]
  | @yieldTo n rest w w' hr hn hc hz =>
    rw [hr] at hready
    have hne : n ≠ a.cpu := by
      intro h
      rw [h, hc] at hn
      cases hn
    have hn' : Function.update a.phase a.cpu (.ready w') n = .ready w := by
      rw [Function.update_of_ne hne]
      exact hn
    have hnobody : ∀ u, (Function.update a.phase a.cpu (.ready w') u).Running → u = n := by
      intro u hu
      by_cases hcu : u = a.cpu
      · rw [hcu, Function.update_self] at hu
        exact hu.elim
      · rw [Function.update_of_ne hcu] at hu
        exact absurd (hrunning u hu) hcu
    refine ⟨(halive.keep ?_).keep ?_, (hready.append ?_ ?_).tail ?_,
      fun s => ((hqueue s).keep ?_).keep ?_, (hzombie.keep ?_).keep ?_,
      update_implies hnobody ?_⟩ <;> simp [hn', hc]
  | @block s w hc hw hv =>
    refine ⟨halive.keep ?_, hready.keep ?_, fun s' => ?_, hzombie.keep ?_,
      update_implies hrunning ?_⟩
    case refine_3 =>
      by_cases hs : s' = s
      · show Enumerates (Function.update a.queue s _ s') _
        rw [hs, Function.update_self]
        exact (hqueue s).append (by simp [hc]) (by simp)
      · show Enumerates (Function.update a.queue s _ s') _
        rw [Function.update_of_ne hs]
        exact (hqueue s').keep (by simp [hc, Ne.symm hs])
    all_goals simp [hc]
  | take hc hw hv =>
    refine ⟨halive.keep ?_, hready.keep ?_, fun s => (hqueue s).keep ?_, hzombie.keep ?_,
      update_implies hrunning ?_⟩ <;> simp [hc]
  | up hq => exact ⟨halive, hready, hqueue, hzombie, hrunning⟩
  | @wake s t q hq =>
    have hs := hqueue s
    rw [hq] at hs
    have ht : a.phase t = .blocked s :=
      Phase.blockedOn_iff.mp ((hs.mem t).mp (List.mem_cons_self ..))
    refine ⟨halive.keep ?_, hready.append ?_ ?_, fun s' => ?_, hzombie.keep ?_,
      update_implies hrunning ?_⟩
    case refine_4 =>
      by_cases hss : s' = s
      · show Enumerates (Function.update a.queue s _ s') _
        rw [hss, Function.update_self]
        exact hs.tail (by simp)
      · show Enumerates (Function.update a.queue s _ s') _
        rw [Function.update_of_ne hss]
        exact (hqueue s').keep (by simp [ht, Ne.symm hss])
    all_goals simp [ht]
  | finish hc hz =>
    rw [hz] at hzombie
    refine ⟨halive.keep ?_, hready.keep ?_, fun s => (hqueue s).keep ?_, hzombie.append ?_ ?_,
      update_implies hrunning ?_⟩ <;> simp [hc]
  | @dispatch n rest w hr hn hc hz =>
    rw [hr] at hready
    have hnobody : ∀ u, (a.phase u).Running → u = n :=
      fun u hu => absurd (hrunning u hu ▸ hu) hc
    refine ⟨halive.keep ?_, hready.tail ?_, fun s => (hqueue s).keep ?_, hzombie.keep ?_,
      update_implies hnobody ?_⟩ <;> simp [hn]
  | @reap z hz hne =>
    rw [hz] at hzombie
    have ht : a.phase z = .done :=
      Phase.done_iff.mp ((hzombie.mem z).mp (List.mem_singleton_self z))
    refine ⟨halive.erase ?_, hready.keep ?_, fun s => (hqueue s).keep ?_, hzombie.tail ?_,
      update_implies hrunning ?_⟩ <;> simp [ht]

/-! ## The counters

A thread that was taken out of the queue and has not looked at the counter again
is *in flight*.  As long as others wait, every unit of the counter has such a
thread coming for it. -/

def inFlight (a : Dispatcher τ σ) (s : σ) : Nat := count a.alive a.phase (Phase.InFlight s)

def ups (log : List (Event τ σ)) (s : σ) : Nat := log.countP (· = .up s)

def downs (log : List (Event τ σ)) (s : σ) : Nat := log.countP (· = .down s)

structure Counted (start : σ → Int) (a : Dispatcher τ σ) : Prop where
  value : ∀ s, a.value s = start s + ups a.log s - downs a.log s
  nonneg : ∀ s, 0 ≤ a.value s
  bound : ∀ s, a.queue s ≠ [] → a.value s ≤ a.inFlight s

/-- A move that leaves the counters and the threads in flight alone. -/
theorem Counted.same {start : σ → Int} (ha : Counted start a) (hv : b.value = a.value)
    (hq : b.queue = a.queue) (hu : ∀ s, ups b.log s = ups a.log s)
    (hd : ∀ s, downs b.log s = downs a.log s) (hf : ∀ s, b.inFlight s = a.inFlight s) :
    Counted start b := by
  refine ⟨fun s => ?_, fun s => ?_, fun s hs => ?_⟩
  · rw [hv, hu, hd]
    exact ha.value s
  · rw [hv]
    exact ha.nonneg s
  · rw [hv, hf]
    exact ha.bound s (hq ▸ hs)

/-- Adding a unit to one counter, with the entry in the log. -/
theorem Counted.add {start : σ → Int} (ha : Counted start a) (s : σ) (log : List (Event τ σ))
    (hu : ∀ s', ups log s' = ups a.log s' + if s' = s then 1 else 0)
    (hd : ∀ s', downs log s' = downs a.log s') (s' : σ) :
    Function.update a.value s (a.value s + 1) s' = start s' + ups log s' - downs log s' ∧
      0 ≤ Function.update a.value s (a.value s + 1) s' := by
  have hvalue := ha.value s'
  have hnonneg := ha.nonneg s'
  rw [hu, hd]
  by_cases hs : s' = s
  · rw [hs] at hvalue hnonneg ⊢
    rw [Function.update_self, if_pos rfl]
    constructor <;> omega
  · rw [Function.update_of_ne hs, if_neg hs]
    exact ⟨hvalue, hnonneg⟩

/-- Taking a unit that is there. -/
theorem Counted.sub {start : σ → Int} (ha : Counted start a) {s : σ} (hs : a.value s ≠ 0)
    (log : List (Event τ σ)) (hu : ∀ s', ups log s' = ups a.log s')
    (hd : ∀ s', downs log s' = downs a.log s' + if s' = s then 1 else 0) (s' : σ) :
    Function.update a.value s (a.value s - 1) s' = start s' + ups log s' - downs log s' ∧
      0 ≤ Function.update a.value s (a.value s - 1) s' := by
  have hvalue := ha.value s'
  have hnonneg := ha.nonneg s'
  rw [hu, hd]
  by_cases hss : s' = s
  · rw [hss] at hvalue hnonneg ⊢
    rw [Function.update_self, if_pos rfl]
    constructor <;> omega
  · rw [Function.update_of_ne hss, if_neg hss]
    exact ⟨hvalue, hnonneg⟩

theorem Move.counted {start : σ → Int} (h : Move a b) (hp : Placed a) (ha : Counted start a) :
    Counted start b := by
  have hcpu : ∀ w, a.phase a.cpu = .running w → a.cpu ∈ a.alive :=
    fun w hw => (hp.alive.mem _).mpr (by simp [hw])
  cases h with
  | create ht =>
    refine ha.same rfl rfl (fun s => rfl) (fun s => rfl) fun s => ?_
    exact count_append (by simp [ht, Phase.InFlight]) (by simp [Phase.InFlight])
  | start ht =>
    refine ha.same rfl rfl (fun s => by simp [ups]) (fun s => by simp [downs]) fun s => ?_
    exact count_keep (by simp [ht, Phase.InFlight])
  | @yieldTo n rest w w' hr hn hc hz =>
    refine ha.same rfl rfl (fun s => by simp [ups]) (fun s => by simp [downs]) fun s => ?_
    have hne : n ≠ a.cpu := by
      intro h
      rw [h, hc] at hn
      cases hn
    refine (count_keep ?_).trans (count_keep ?_)
    · rw [Function.update_of_ne hne, hn]
      simp [Phase.InFlight]
    · simp [hc, Phase.InFlight]
  | @block s w hc hw hv =>
    refine ⟨ha.value, ha.nonneg, fun s' hs' => ?_⟩
    by_cases hs : s' = s
    · -- Nobody has to be on its way: the counter is zero.
      show a.value s' ≤ _
      rw [hs, hv]
      exact Int.natCast_nonneg _
    · have hkeep : count a.alive (Function.update a.phase a.cpu (.blocked s)) (Phase.InFlight s')
          = a.inFlight s' := by
        refine count_keep ?_
        rcases hw with rfl | rfl <;> simp [hc, Phase.InFlight, Ne.symm hs]
      show a.value s' ≤ (count _ _ _ : Nat)
      rw [hkeep]
      refine ha.bound s' fun hq => hs' ?_
      show Function.update a.queue s _ s' = []
      rw [Function.update_of_ne hs, hq]
  | @take s w hc hw hv =>
    have hsub := ha.sub hv (a.log ++ [.down s]) (fun s' => by simp [ups])
      (fun s' => by simp [downs, List.countP_singleton, eq_comm])
    refine ⟨fun s' => (hsub s').1, fun s' => (hsub s').2, fun s' hs' => ?_⟩
    have hbound : a.value s' ≤ a.inFlight s' := ha.bound s' hs'
    show Function.update a.value s (a.value s - 1) s'
      ≤ (count a.alive (Function.update a.phase a.cpu (.running none)) (Phase.InFlight s') : Nat)
    by_cases hs : s' = s
    · rw [hs] at hbound ⊢
      rw [Function.update_self]
      rcases hw with rfl | rfl
      · -- The thread comes for the first time and is faster than those in flight.
        have hkeep : count a.alive (Function.update a.phase a.cpu (.running none))
            (Phase.InFlight s) = a.inFlight s := count_keep (by simp [hc])
        omega
      · have hloss : count a.alive (Function.update a.phase a.cpu (.running none))
            (Phase.InFlight s) + 1 = a.inFlight s :=
          count_loss hp.alive.nodup (hcpu _ hc) (by simp [hc, Phase.InFlight])
            (by simp [Phase.InFlight])
        omega
    · have hkeep : count a.alive (Function.update a.phase a.cpu (.running none))
          (Phase.InFlight s') = a.inFlight s' := by
        refine count_keep ?_
        rcases hw with rfl | rfl <;> simp [hc, Phase.InFlight, Ne.symm hs]
      rw [Function.update_of_ne hs, hkeep]
      exact hbound
  | @up s hq =>
    have hadd := ha.add s (a.log ++ [.up s])
      (fun s' => by simp [ups, List.countP_singleton, eq_comm]) (fun s' => by simp [downs])
    refine ⟨fun s' => (hadd s').1, fun s' => (hadd s').2, fun s' hs' => ?_⟩
    have hs : s' ≠ s := fun h => hs' (h ▸ hq)
    show Function.update a.value s _ s' ≤ _
    rw [Function.update_of_ne hs]
    exact ha.bound s' hs'
  | @wake s t q hq =>
    have ht : t ∈ a.queue s := by
      rw [hq]
      exact List.mem_cons_self
    have hphase : a.phase t = .blocked s := Phase.blockedOn_iff.mp (((hp.queue s).mem t).mp ht)
    have halive : t ∈ a.alive := (hp.alive.mem t).mpr (by simp [hphase])
    have hadd := ha.add s (a.log ++ [.readied t, .up s])
      (fun s' => by simp [ups, List.countP_cons, eq_comm]) (fun s' => by simp [downs])
    refine ⟨fun s' => (hadd s').1, fun s' => (hadd s').2, fun s' hs' => ?_⟩
    show Function.update a.value s (a.value s + 1) s'
      ≤ (count a.alive (Function.update a.phase t (.ready (some s))) (Phase.InFlight s') : Nat)
    by_cases hs : s' = s
    · -- The new unit comes with the thread that is woken for it.
      have hgain : count a.alive (Function.update a.phase t (.ready (some s)))
          (Phase.InFlight s) = a.inFlight s + 1 :=
        count_gain hp.alive.nodup halive (by simp [hphase, Phase.InFlight])
          (by simp [Phase.InFlight])
      have hbound : a.value s ≤ a.inFlight s := ha.bound s (by rw [hq]; exact List.cons_ne_nil t q)
      rw [hs, Function.update_self]
      omega
    · have hkeep : count a.alive (Function.update a.phase t (.ready (some s)))
          (Phase.InFlight s') = a.inFlight s' :=
        count_keep (by simp [hphase, Phase.InFlight, Ne.symm hs])
      have hqueue : a.queue s' ≠ [] := by
        intro h
        apply hs'
        show Function.update a.queue s q s' = []
        rw [Function.update_of_ne hs, h]
      rw [Function.update_of_ne hs, hkeep]
      exact ha.bound s' hqueue
  | finish hc hz =>
    refine ha.same rfl rfl (fun s => by simp [ups]) (fun s => by simp [downs]) fun s => ?_
    exact count_keep (by simp [hc, Phase.InFlight])
  | dispatch hr hn hc hz =>
    refine ha.same rfl rfl (fun s => by simp [ups]) (fun s => by simp [downs]) fun s => ?_
    exact count_keep (by simp [hn, Phase.InFlight])
  | @reap z hz hne =>
    have hmem := (hp.zombie.mem z).mp (by rw [hz]; exact List.mem_singleton_self z)
    have hdone := Phase.done_iff.mp hmem
    refine ha.same rfl rfl (fun s => by simp [ups]) (fun s => by simp [downs]) fun s => ?_
    refine count_erase hp.alive.nodup ?_ (by simp [hdone, Phase.InFlight])
    exact (hp.alive.mem z).mpr (by simp [hdone])

/-! ## What the log says -/

section Log

omit [DecidableEq τ] [DecidableEq σ]

/-- The threads put on the ready list, in order. -/
@[simp] def readied : List (Event τ σ) → List τ
  | [] => []
  | .readied t :: log => t :: readied log
  | _ :: log => readied log

/-- The switches of the processor, from whom to whom. -/
@[simp] def switches : List (Event τ σ) → List (τ × τ)
  | [] => []
  | .switched t u :: log => (t, u) :: switches log
  | _ :: log => switches log

/-- The threads given the processor, in order. -/
def dispatched (log : List (Event τ σ)) : List τ := (switches log).map Prod.snd

@[simp] def finished : List (Event τ σ) → List τ
  | [] => []
  | .finished t :: log => t :: finished log
  | _ :: log => finished log

@[simp] def deleted : List (Event τ σ) → List τ
  | [] => []
  | .deleted t _ :: log => t :: deleted log
  | _ :: log => deleted log

@[simp] theorem readied_append (l l' : List (Event τ σ)) :
    readied (l ++ l') = readied l ++ readied l' := by
  induction l with
  | nil => rfl
  | cons e l ih => cases e <;> simp [ih]

@[simp] theorem switches_append (l l' : List (Event τ σ)) :
    switches (l ++ l') = switches l ++ switches l' := by
  induction l with
  | nil => rfl
  | cons e l ih => cases e <;> simp [ih]

@[simp] theorem dispatched_append (l l' : List (Event τ σ)) :
    dispatched (l ++ l') = dispatched l ++ dispatched l' := by
  unfold dispatched
  rw [switches_append, List.map_append]

@[simp] theorem finished_append (l l' : List (Event τ σ)) :
    finished (l ++ l') = finished l ++ finished l' := by
  induction l with
  | nil => rfl
  | cons e l ih => cases e <;> simp [ih]

@[simp] theorem deleted_append (l l' : List (Event τ σ)) :
    deleted (l ++ l') = deleted l ++ deleted l' := by
  induction l with
  | nil => rfl
  | cons e l ih => cases e <;> simp [ih]

/-- Every deletion is done by the thread that got the processor from the deleted
one, with no switch in between. -/
def Prompt (log : List (Event τ σ)) : Prop :=
  ∀ before after t u, log = before ++ .deleted t u :: after →
    t ≠ u ∧ (switches before).getLast? = some (t, u)

theorem Prompt.snoc {log : List (Event τ σ)} (h : Prompt log) {e : Event τ σ}
    (he : ∀ t u, e = .deleted t u → t ≠ u ∧ (switches log).getLast? = some (t, u)) :
    Prompt (log ++ [e]) := by
  intro before after t u hlog
  rcases List.eq_nil_or_concat after with rfl | ⟨after, x, rfl⟩
  · obtain ⟨rfl, hd⟩ := List.append_inj' hlog rfl
    exact he t u (List.head_eq_of_cons_eq hd)
  · rw [List.concat_eq_append, ← List.cons_append, ← List.append_assoc] at hlog
    obtain ⟨hlog, _⟩ := List.append_inj' hlog rfl
    exact h before after t u hlog

end Log

structure Recorded (a : Dispatcher τ σ) : Prop where
  order : readied a.log = dispatched a.log ++ a.ready
  successor : ∀ z, a.zombie = some z → z = a.cpu ∨ (switches a.log).getLast? = some (z, a.cpu)
  finished : Enumerates (finished a.log) fun t => (a.phase t).Over
  deleted : Enumerates (deleted a.log) fun t => (a.phase t).Gone
  prompt : Prompt a.log

theorem Move.recorded (h : Move a b) (hp : Placed a) (ha : Recorded a) : Recorded b := by
  obtain ⟨horder, hsucc, hfin, hdel, hprompt⟩ := ha
  have hquiet : ∀ (e : Event τ σ) (l : List (Event τ σ)), (∀ t u, e ≠ .deleted t u) →
      Prompt l → Prompt (l ++ [e]) :=
    fun e l he hl => hl.snoc fun t u h => absurd h (he t u)
  cases h with
  | create ht =>
    exact ⟨horder, hsucc, hfin.keep (by simp [ht]), hdel.keep (by simp [ht]), hprompt⟩
  | @start t ht =>
    refine ⟨?_, ?_, ?_, ?_, hquiet _ _ nofun hprompt⟩
    · simp [horder, dispatched]
    · simpa using hsucc
    · simpa using hfin.keep (by simp [ht])
    · simpa using hdel.keep (by simp [ht])
  | @yieldTo n rest w w' hr hn hc hz =>
    have hne : n ≠ a.cpu := by
      intro h
      rw [h, hc] at hn
      cases hn
    have hn' : Function.update a.phase a.cpu (.ready w') n = .ready w := by
      rw [Function.update_of_ne hne]
      exact hn
    refine ⟨?_, ?_, ?_, ?_, ?_⟩
    · simp [horder, hr, dispatched]
    · simp [hz]
    · simpa using (hfin.keep (by simp [hc])).keep (by simp [hn'])
    · simpa using (hdel.keep (by simp [hc])).keep (by simp [hn'])
    · show Prompt (a.log ++ [.readied a.cpu, .switched a.cpu n])
      rw [List.append_cons]
      exact hquiet _ _ nofun (hquiet _ _ nofun hprompt)
  | block hc hw hv =>
    exact ⟨horder, hsucc, hfin.keep (by simp [hc]), hdel.keep (by simp [hc]), hprompt⟩
  | take hc hw hv =>
    refine ⟨?_, ?_, ?_, ?_, hquiet _ _ nofun hprompt⟩
    · simp [horder, dispatched]
    · simpa using hsucc
    · simpa using hfin.keep (by simp [hc])
    · simpa using hdel.keep (by simp [hc])
  | up hq =>
    refine ⟨?_, ?_, ?_, ?_, hquiet _ _ nofun hprompt⟩
    · simp [horder, dispatched]
    · simpa using hsucc
    · simpa using hfin
    · simpa using hdel
  | @wake s t q hq =>
    have hmem : t ∈ a.queue s := by
      rw [hq]
      exact List.mem_cons_self
    have ht : a.phase t = .blocked s := Phase.blockedOn_iff.mp (((hp.queue s).mem t).mp hmem)
    refine ⟨?_, ?_, ?_, ?_, ?_⟩
    · simp [horder, dispatched]
    · simpa using hsucc
    · simpa using hfin.keep (by simp [ht])
    · simpa using hdel.keep (by simp [ht])
    · show Prompt (a.log ++ [.readied t, .up s])
      rw [List.append_cons]
      exact hquiet _ _ nofun (hquiet _ _ nofun hprompt)
  | finish hc hz =>
    refine ⟨?_, ?_, ?_, ?_, hquiet _ _ nofun hprompt⟩
    · simp [horder, dispatched]
    · intro z h
      exact .inl (Option.some.inj h).symm
    · simpa using hfin.append (by simp [hc]) (by simp)
    · simpa using hdel.keep (by simp [hc])
  | dispatch hr hn hc hz =>
    refine ⟨?_, ?_, ?_, ?_, hquiet _ _ nofun hprompt⟩
    · simp [horder, hr, dispatched]
    · intro z h
      rcases hz with hz | hz
      · exact absurd (hz.symm.trans h) nofun
      · cases hz.symm.trans h
        exact .inr (by simp)
    · simpa using hfin.keep (by simp [hn])
    · simpa using hdel.keep (by simp [hn])
  | @reap z hz hne =>
    have hmem : z ∈ a.zombie.toList := by
      rw [hz]
      exact List.mem_singleton_self z
    have ht : a.phase z = .done := Phase.done_iff.mp ((hp.zombie.mem z).mp hmem)
    refine ⟨?_, ?_, ?_, ?_, hprompt.snoc fun t u h => ?_⟩
    · simp [horder, dispatched]
    · simp
    · simpa using hfin.keep (by simp [ht])
    · simpa using hdel.append (by simp [ht]) (by simp)
    · cases h
      exact ⟨hne, (hsucc z hz).resolve_left hne⟩

/-! ## Runs -/

structure Sound (start : σ → Int) (a : Dispatcher τ σ) : Prop where
  placed : Placed a
  counted : Counted start a
  recorded : Recorded a

/-- The moves that one step of a program may be made of. -/
def Moves : Dispatcher τ σ → Dispatcher τ σ → Prop := Relation.ReflTransGen Move

theorem Moves.sound {start : σ → Int} (h : Moves a b) (ha : Sound start a) : Sound start b := by
  induction h with
  | refl => exact ha
  | tail _ hmove ih =>
    exact ⟨hmove.placed ih.placed, hmove.counted ih.placed ih.counted,
      hmove.recorded ih.placed ih.recorded⟩

/-- The processor goes where the last switch says. -/
theorem Moves.cpu (h : Moves a b) :
    ∃ l, switches b.log = switches a.log ++ l ∧ b.cpu = (l.map Prod.snd).getLastD a.cpu := by
  induction h with
  | refl => exact ⟨[], (List.append_nil _).symm, rfl⟩
  | @tail b c _ hmove ih =>
    obtain ⟨l, hl, hcpu⟩ := ih
    have hsame : switches c.log = switches b.log → c.cpu = b.cpu →
        ∃ l', switches c.log = switches a.log ++ l' ∧
          c.cpu = (l'.map Prod.snd).getLastD a.cpu :=
      fun hlog hc => ⟨l, hlog.trans hl, hc.trans hcpu⟩
    have hswitch : ∀ n, switches c.log = switches b.log ++ [(b.cpu, n)] → c.cpu = n →
        ∃ l', switches c.log = switches a.log ++ l' ∧
          c.cpu = (l'.map Prod.snd).getLastD a.cpu := by
      intro n hlog hc
      refine ⟨l ++ [(b.cpu, n)], ?_, ?_⟩
      · rw [hlog, hl, List.append_assoc]
      · rw [hc, List.map_append]
        simp
    cases hmove with
    | create ht => exact hsame rfl rfl
    | start ht => exact hsame (by simp) rfl
    | @yieldTo n rest w w' hr hn hc hz => exact hswitch n (by simp) rfl
    | block hc hw hv => exact hsame rfl rfl
    | take hc hw hv => exact hsame (by simp) rfl
    | up hq => exact hsame (by simp) rfl
    | wake hq => exact hsame (by simp) rfl
    | finish hc hz => exact hsame (by simp) rfl
    | @dispatch n rest w hr hn hc hz => exact hswitch n (by simp) rfl
    | reap hz hne => exact hsame (by simp) rfl

/-- If all that has happened is that the processor changed hands once and the old
thread went to the end of the ready list, then the queue of the processor and the
ready list has turned by one. -/
theorem Moves.rotate (h : Moves a b) (ha : Recorded a) (hb : Recorded b) {n : τ}
    (hlog : b.log = a.log ++ [.readied a.cpu, .switched a.cpu n]) :
    b.cpu :: b.ready = (a.cpu :: a.ready).rotate 1 := by
  obtain ⟨l, hl, hcpu⟩ := h.cpu
  have horder := hb.order
  rw [hlog] at hl horder
  have hl' : l = [(a.cpu, n)] := by
    rw [switches_append] at hl
    exact (List.append_cancel_left hl).symm
  rw [readied_append, dispatched_append, ha.order, List.append_assoc, List.append_assoc] at horder
  rw [hcpu, hl', List.rotate_cons_succ, List.rotate_zero]
  exact (List.append_cancel_left horder).symm

/-- If nothing has happened that the log shows, the processor and the ready list
are as before. -/
theorem Moves.still (h : Moves a b) (ha : Recorded a) (hb : Recorded b) (hlog : b.log = a.log) :
    b.cpu = a.cpu ∧ b.ready = a.ready := by
  obtain ⟨l, hl, hcpu⟩ := h.cpu
  have horder := hb.order
  rw [hlog] at hl horder
  rw [ha.order] at horder
  have hl' : l = [] := List.append_right_eq_self.mp hl.symm
  rw [hcpu, hl']
  exact ⟨rfl, (List.append_cancel_left horder).symm⟩

end Dispatcher
end Lib
