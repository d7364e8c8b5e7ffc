import Mathlib.Data.Set.Card
import Nachos.Lib.Monitor
import Nachos.Lib.System
import Nachos.Threads.LinkedList

/-!
# Synchronized lists

Class `SynchList` over any lock and condition variable with Mesa semantics.  Its
calls take effect one after the other, as on a queue.  A call of `Remove` may sleep
while there are items, but then another call is on its way that will take one or
wake it up.
-/

namespace Nachos
namespace Threads
namespace SynchList

open Lib Monitor

/-! ## Calls -/

/-- Where a thread is in `Append` or `Remove`.  An item is a `void *`, and `none` is
`NULL`. -/
inductive Pc (α : Type)
  | outside
  | appendAcquire (item : Option α)
  | append (item : Option α)
  | signal
  | appendRelease
  | removeAcquire
  | test
  | wait
  | waiting
  | remove
  | check (item : Option α)
  | removeRelease (item : Option α)
  | return (item : Option α)

variable {τ σ α : Type}

/-- Where that is for the lock. -/
def Pc.mode : Pc α → Mode
  | .outside | .return _ => .outside
  | .appendAcquire _ | .removeAcquire => .entering
  | .waiting => .waiting
  | .append _ | .signal | .appendRelease | .test | .wait | .remove | .check _ | .removeRelease _ =>
    .inside

/-- The thread is in `Remove`. -/
def Pc.InRemove : Pc α → Prop
  | .removeAcquire | .test | .wait | .waiting | .remove | .check _ | .removeRelease _
  | .return _ => True
  | _ => False

/-- The calls of the lock and of the condition variable. -/
inductive Calls (t : τ) : Action τ → Pc α → Pc α → Prop
  | append (x : α) : Calls t (.acquire t) .outside (.appendAcquire (some x))
  | appendEnter (item : Option α) : Calls t (.enter t) (.appendAcquire item) (.append item)
  | signal : Calls t (.signal t) .signal .appendRelease
  | appendRelease : Calls t (.release t) .appendRelease .outside
  | remove : Calls t (.acquire t) .outside .removeAcquire
  | removeEnter : Calls t (.enter t) .removeAcquire .test
  | wait : Calls t (.wait t) .wait .waiting
  | waitEnter : Calls t (.enter t) .waiting .test
  | removeRelease (item : Option α) : Calls t (.release t) (.removeRelease item) (.return item)

/-- A `SynchList` with the threads that use it.  Nothing in the code reads the last three:
what was put on the list, and what was taken from it and returned by which thread. -/
structure State (τ σ α : Type) where
  lock : σ
  list : LinkedList (Option α)
  threads : τ → Pc α
  /-- an `ASSERT` failed, or the list went through a null pointer -/
  failed : Bool
  appended : List (Option α)
  taken : List (τ × Option α)
  returned : List (τ × Option α)

namespace State

/-- After the constructor. -/
def initial (M : Monitor τ σ) : State τ σ α where
  lock := M.start
  list := .empty
  threads := fun _ => .outside
  failed := false
  appended := []
  taken := []
  returned := []

variable [DecidableEq τ] (s : State τ σ α) (t : τ)

def moveTo (pc : Pc α) : State τ σ α := { s with threads := Function.update s.threads t pc }

def fail : State τ σ α := { s with failed := true }

/-- `list->Append` -/
def append (item : Option α) : State τ σ α :=
  match s.list.append item with
  | some list =>
    { s.moveTo t .signal with list := list, appended := s.appended ++ [item] }
  | none => s.fail

/-- The test of the `while`. -/
def test : State τ σ α := s.moveTo t (if s.list.isEmpty then .wait else .remove)

/-- `list->Remove`, which gives `NULL` if there is nothing on the list. -/
def remove : State τ σ α :=
  match s.list.remove with
  | some (item, list) =>
    { s.moveTo t (.check item.join) with
      list := list
      taken := s.taken ++ item.toList.map fun x => (t, x) }
  | none => s.fail

/-- `ASSERT (item != NULL)` -/
def check (item : Option α) : State τ σ α :=
  if item.isSome then s.moveTo t (.removeRelease item) else s.fail

def finish (item : Option α) : State τ σ α :=
  { s.moveTo t .outside with returned := s.returned ++ [(t, item)] }

end State

section System

variable [DecidableEq τ] (M : Monitor τ σ)

/-- The next step of thread `t`. -/
inductive ThreadStep (t : τ) (s : State τ σ α) : State τ σ α → Prop
  | call {a : Action τ} {pc : Pc α} {lock : σ} (h : Calls t a (s.threads t) pc)
      (hlock : M.step a s.lock lock) : ThreadStep t s { s.moveTo t pc with lock := lock }
  | append {item : Option α} (h : s.threads t = .append item) : ThreadStep t s (s.append t item)
  | test (h : s.threads t = .test) : ThreadStep t s (s.test t)
  | remove (h : s.threads t = .remove) : ThreadStep t s (s.remove t)
  | check {item : Option α} (h : s.threads t = .check item) : ThreadStep t s (s.check t item)
  | finish {item : Option α} (h : s.threads t = .return item) : ThreadStep t s (s.finish t item)

/-- A step of some thread, or of the lock by itself. -/
inductive Step (s : State τ σ α) : State τ σ α → Prop
  | thread {t : τ} {s' : State τ σ α} (h : ThreadStep M t s s') : Step s s'
  | internal {lock : σ} (hlock : M.step .internal s.lock lock) : Step s { s with lock := lock }

/-- Every interleaving of the calls of `Append` with items that are not null and of
`Remove`.  A failed `ASSERT` ends the program. -/
def system : System (State τ σ α) where
  init s := s = State.initial M
  step s s' := s.failed = false ∧ Step M s s'

/-- The thread can do nothing. -/
def Blocked (s : State τ σ α) (t : τ) : Prop := ∀ s', ¬ ThreadStep M t s s'

end System

/-! ## The invariant -/

/-- What the thread knows of its item and of the list. -/
def Knows (contents : List (Option α)) : Pc α → Prop
  | .appendAcquire item | .append item | .check item | .removeRelease item | .return item =>
    item.isSome
  | .wait => contents = []
  | .remove => contents ≠ []
  | _ => True

/-- What the thread has taken and not returned. -/
def hand (t : τ) : Pc α → List (τ × Option α)
  | .check item | .removeRelease item | .return item => [(t, item)]
  | _ => []

/-- The thread is about to take an item, to find that there is none or to wake another
thread up. -/
def Owing (v : View τ) (t : τ) : Pc α → Prop
  | .signal | .test | .remove => True
  | .waiting => t ∈ v.entering
  | _ => False

/-- There are as many threads that owe something as there are items, if any thread
sleeps. -/
def Owed (v : View τ) (threads : τ → Pc α) (n : ℕ∞) : Prop :=
  v.sleeping.Nonempty → n ≤ { t | Owing v t (threads t) }.encard

structure Invariant [DecidableEq τ] (M : Monitor τ σ) (contents : List (Option α))
    (s : State τ σ α) : Prop where
  failed : s.failed = false
  placed : ∀ t, Placed (M.view s.lock) t (s.threads t).mode
  list : s.list.Holds (contents.map (Entry.mk 0))
  fifo : s.taken.map Prod.snd ++ contents = s.appended
  items : ∀ item ∈ s.appended, item.isSome
  knows : ∀ t, Knows contents (s.threads t)
  hands : ∀ t, s.returned.filter (·.1 = t) ++ hand t (s.threads t) = s.taken.filter (·.1 = t)
  owed : Owed (M.view s.lock) s.threads contents.length

section Counting

variable {P Q : τ → Prop} {t : τ}

theorem encard_le_add_one (h : ∀ u, u ≠ t → P u → Q u) :
    { u | P u }.encard ≤ { u | Q u }.encard + 1 := by
  refine (Set.encard_le_encard fun u hu => ?_).trans (Set.encard_insert_le { u | Q u } t)
  by_cases hut : u = t
  · exact .inl hut
  · exact .inr (h u hut hu)

theorem add_one_le_encard (hP : ¬ P t) (hQ : Q t) (h : ∀ u, P u → Q u) :
    { u | P u }.encard + 1 ≤ { u | Q u }.encard := by
  rw [← Set.encard_insert_of_notMem (show t ∉ { u | P u } from hP)]
  refine Set.encard_le_encard fun u hu => ?_
  rcases hu with rfl | hu
  · exact hQ
  · exact h u hu

end Counting

section Owed

variable {v v' : View τ} {threads threads' : τ → Pc α} {n : ℕ∞} {t w : τ}

theorem Owed.mono (h : Owed v threads n) (hsleeping : v'.sleeping ⊆ v.sleeping)
    (howing : ∀ u, Owing v u (threads u) → Owing v' u (threads' u)) : Owed v' threads' n :=
  fun hne => (h (hne.mono hsleeping)).trans (Set.encard_le_encard howing)

/-- An item is put on the list by `t`. -/
theorem Owed.append (h : Owed v threads n) (hpc : ¬ Owing v t (threads t))
    (hpc' : Owing v t (threads' t)) (howing : ∀ u, Owing v u (threads u) → Owing v u (threads' u)) :
    Owed v threads' (n + 1) :=
  fun hne => (add_le_add_left (h hne) 1).trans (add_one_le_encard hpc hpc' howing)

/-- An item is taken by `t`. -/
theorem Owed.remove (h : Owed v threads (n + 1))
    (howing : ∀ u, u ≠ t → Owing v u (threads u) → Owing v u (threads' u)) :
    Owed v threads' n :=
  fun hne => (ENat.add_le_add_iff_right ENat.one_ne_top).mp
    ((h hne).trans (encard_le_add_one howing))

/-- `w` is woken up by `t`. -/
theorem Owed.signal (h : Owed v threads n) (hw : w ∈ v.sleeping) (hpc : ¬ Owing v w (threads w))
    (hpc' : Owing v' w (threads' w))
    (howing : ∀ u, u ≠ t → Owing v u (threads u) → Owing v' u (threads' u)) :
    Owed v' threads' n := by
  intro _
  let P : τ → Prop := fun u => u ≠ t ∧ Owing v u (threads u)
  have hlose : { u | Owing v u (threads u) }.encard ≤ { u | P u }.encard + 1 :=
    encard_le_add_one fun u hut hu => ⟨hut, hu⟩
  have hgain : { u | P u }.encard + 1 ≤ { u | Owing v' u (threads' u) }.encard :=
    add_one_le_encard (t := w) (fun hP => hpc hP.2) hpc' fun u hu => howing u hu.1 hu.2
  exact ((h ⟨w, hw⟩).trans hlose).trans hgain

end Owed

/-! ## Calls of the lock -/

section Calls

variable {v v' : View τ} {threads : τ → Pc α} {a : Action τ} {t u : τ} {p pc : Pc α}
  {contents contents' : List (Option α)}

theorem Calls.before (h : Calls t a p pc) (hp : threads t = p) :
    a.Before fun u => (threads u).mode := by
  have hmode : (threads t).mode = p.mode := by rw [hp]
  cases h <;> first | exact hmode | trivial

theorem Calls.knows (h : Calls t a p pc) (hk : Knows contents p) : Knows contents pc := by
  cases h with
  | append x => exact rfl
  | appendEnter item | removeRelease item => exact hk
  | signal | appendRelease | remove | removeEnter | wait | waitEnter => trivial

theorem Calls.hand (h : Calls t a p pc) : hand t pc = hand t p := by
  cases h <;> rfl

theorem Owing.mono {v v' : View τ} (h : Owing v u p) (he : u ∈ v.entering → u ∈ v'.entering) :
    Owing v' u p := by
  cases p with
  | waiting => exact he h
  | signal | test | remove => trivial
  | _ => exact h.elim

/-- Only the lock and what is around it change what a thread knows of the list. -/
theorem Knows.outside (h : Knows contents p) (hp : p.mode ≠ .inside) : Knows contents' p := by
  cases p with
  | append | signal | appendRelease | test | wait | remove | check | removeRelease =>
    exact absurd rfl hp
  | _ => exact h

variable [DecidableEq τ]

theorem Calls.after (h : Calls t a p pc) (hp : threads t = p) :
    (fun u => (Function.update threads t pc u).mode) = a.after fun u => (threads u).mode := by
  have hupdate : (fun u => (Function.update threads t pc u).mode) =
      Function.update (fun u => (threads u).mode) t pc.mode :=
    Function.comp_update Pc.mode threads t pc
  rw [hupdate]
  cases h with
  | signal => exact Function.update_eq_self_iff.mpr (by rw [hp]; rfl)
  | _ => rfl

theorem owing_update (ht : Owing v t (threads t) → Owing v' t pc)
    (hothers : ∀ u, u ≠ t → u ∈ v.entering → u ∈ v'.entering) (u : τ)
    (hu : Owing v u (threads u)) : Owing v' u (Function.update threads t pc u) := by
  by_cases hut : u = t
  · subst hut
    rw [Function.update_self]
    exact ht hu
  · rw [Function.update_of_ne hut]
    exact hu.mono (hothers u hut)

/-- The threads that owe something after a call of the lock. -/
theorem Calls.owed (h : Calls t a p pc) (hp : threads t = p)
    (hplaced : ∀ u, Placed v u (threads u).mode) (hs : View.Step a v v') (hk : Knows contents p)
    (howed : Owed v threads contents.length) :
    Owed v' (Function.update threads t pc) contents.length := by
  cases h with
  | append x | remove =>
    cases hs
    exact howed.mono Set.Subset.rfl (owing_update (fun ht => by rw [hp] at ht; exact ht.elim)
      fun u _ => Set.mem_insert_of_mem t)
  | appendEnter item =>
    cases hs
    exact howed.mono Set.Subset.rfl (owing_update (fun ht => by rw [hp] at ht; exact ht.elim)
      fun u hut hu => ⟨hu, hut⟩)
  | removeEnter | waitEnter =>
    cases hs
    exact howed.mono Set.Subset.rfl (owing_update (fun _ => trivial) fun u hut hu => ⟨hu, hut⟩)
  | appendRelease | removeRelease item =>
    cases hs
    exact howed.mono Set.Subset.rfl (owing_update (fun ht => by rw [hp] at ht; exact ht.elim)
      fun u _ hu => hu)
  | wait =>
    have hnil : contents = [] := hk
    rw [hnil]
    exact fun _ => zero_le
  | signal =>
    cases hs with
    | signalNone hnone =>
      intro hne
      rw [hnone] at hne
      exact absurd hne Set.not_nonempty_empty
    | @signalOne _ _ w hw =>
      -- The thread that was asleep takes over what `t` owed.
      obtain ⟨hwaiting, hnot⟩ := (hplaced w).waiting hw
      have hpc : threads w = .waiting := by
        cases hw' : threads w <;> rw [hw'] at hwaiting <;> first | rfl | cases hwaiting
      have hwt : w ≠ t := by
        rintro rfl
        rw [hp] at hpc
        cases hpc
      refine howed.signal (t := t) hw (by rw [hpc]; exact hnot) ?_ fun u hut hu => ?_
      · rw [Function.update_of_ne hwt, hpc]
        exact Set.mem_insert w _
      · rw [Function.update_of_ne hut]
        exact hu.mono (Set.mem_insert_of_mem w)

end Calls

/-! ## Steps -/

section Steps

variable [DecidableEq τ] {M : Monitor τ σ} {s s' : State τ σ α} {t : τ} {pc : Pc α}
  {contents : List (Option α)} {item : Option α} {lock : σ}

theorem filter_own (t : τ) (item : Option α) :
    [(t, item)].filter (fun r => decide (r.1 = t)) = [(t, item)] :=
  List.filter_cons_of_pos (decide_eq_true rfl)

theorem filter_other {u : τ} (hut : u ≠ t) (item : Option α) :
    [(t, item)].filter (fun r => decide (r.1 = u)) = [] :=
  List.filter_cons_of_neg fun h => hut (of_decide_eq_true h).symm

theorem Invariant.tracks (h : Invariant M contents s) :
    Tracks (M.view s.lock) fun u => (s.threads u).mode :=
  h.placed

theorem Invariant.knows_at (h : Invariant M contents s) (ht : s.threads t = pc) :
    Knows contents pc := by
  rw [← ht]
  exact h.knows t

/-- The thread moves on, and neither the list nor what it has in hand changes. -/
theorem Invariant.move (h : Invariant M contents s)
    (hplaced : ∀ u, Placed (M.view lock) u (Function.update s.threads t pc u).mode)
    (hknows : Knows contents pc) (hhand : hand t pc = hand t (s.threads t))
    (howed : Owed (M.view lock) (Function.update s.threads t pc) contents.length) :
    Invariant M contents { s.moveTo t pc with lock := lock } where
  failed := h.failed
  placed := hplaced
  list := h.list
  fifo := h.fifo
  items := h.items
  knows := (Function.forall_update_iff _ fun _ => Knows contents).mpr
    ⟨hknows, fun u _ => h.knows u⟩
  hands := by
    refine (Function.forall_update_iff _ fun u p => _ ++ hand u p = _).mpr
      ⟨?_, fun u _ => h.hands u⟩
    rw [hhand]
    exact h.hands t
  owed := howed

/-- A thread that has the lock keeps it. -/
theorem Invariant.inside (h : Invariant M contents s) (hmode : pc.mode = (s.threads t).mode) :
    ∀ u, Placed (M.view s.lock) u (Function.update s.threads t pc u).mode := by
  refine (Function.forall_update_iff _ fun u (p : Pc α) => Placed (M.view s.lock) u p.mode).mpr
    ⟨?_, fun u _ => h.placed u⟩
  rw [hmode]
  exact h.placed t

/-- What the others know does not depend on the list while `t` has the lock. -/
theorem Invariant.knows_others (h : Invariant M contents s) (ht : (s.threads t).mode = .inside)
    (contents' : List (Option α)) (hknows : Knows contents' pc) :
    ∀ u, Knows contents' (Function.update s.threads t pc u) := by
  refine (Function.forall_update_iff _ fun _ => Knows contents').mpr ⟨hknows, fun u hut => ?_⟩
  exact (h.knows u).outside fun hu => hut (h.tracks.inside_unique hu ht)

theorem Invariant.call {a : Action τ} (h : Invariant M contents s)
    (hcall : Calls t a (s.threads t) pc) (hlock : M.step a s.lock lock) :
    Invariant M contents { s.moveTo t pc with lock := lock } := by
  obtain ⟨hview, htracks⟩ := tracks_step h.tracks (hcall.before rfl) hlock
  rw [← hcall.after rfl] at htracks
  exact h.move htracks (hcall.knows (h.knows t)) hcall.hand
    (hcall.owed rfl h.placed hview (h.knows t) h.owed)

theorem Invariant.append (h : Invariant M contents s) (ht : s.threads t = .append item) :
    Invariant M (contents ++ [item]) (s.append t item) := by
  obtain ⟨list, happend, hlist⟩ := h.list.append item
  have hinside : (s.threads t).mode = .inside := by rw [ht]; rfl
  have hitem : item.isSome := h.knows_at ht
  unfold State.append
  rw [happend]
  refine
    { failed := h.failed
      placed := h.inside (by rw [ht]; rfl)
      list := ?_
      fifo := ?_
      items := fun x hx => ?_
      knows := h.knows_others hinside _ trivial
      hands := ?_
      owed := ?_ }
  · rw [List.map_append]
    exact hlist
  · show s.taken.map Prod.snd ++ (contents ++ [item]) = s.appended ++ [item]
    rw [← List.append_assoc, h.fifo]
  · rcases List.mem_append.mp hx with hx | hx
    · exact h.items x hx
    · rw [List.mem_singleton.mp hx]
      exact hitem
  · refine (Function.forall_update_iff _ fun u p => _ ++ hand u p = _).mpr
      ⟨?_, fun u _ => h.hands u⟩
    have hhand := h.hands t
    rw [ht] at hhand
    exact hhand
  · have hlength : ((contents ++ [item]).length : ℕ∞) = contents.length + 1 := by
      rw [List.length_append, List.length_singleton, Nat.cast_add, Nat.cast_one]
    rw [hlength]
    refine h.owed.append (t := t) (by rw [ht]; exact id) ?_ ?_
    · show Owing _ t (Function.update s.threads t .signal t)
      rw [Function.update_self]
      trivial
    · exact owing_update (fun _ => trivial) fun _ _ => id

theorem Invariant.test (h : Invariant M contents s) (ht : s.threads t = .test) :
    Invariant M contents (s.test t) := by
  have hempty : s.list.isEmpty = true ↔ contents = [] := by
    rw [h.list.isEmpty_iff, List.map_eq_nil_iff]
  unfold State.test
  by_cases hnil : contents = []
  · rw [if_pos (hempty.mpr hnil)]
    refine h.move (h.inside (by rw [ht]; rfl)) hnil (by rw [ht]; rfl) ?_
    rw [hnil]
    exact fun _ => zero_le
  · rw [if_neg fun he => hnil (hempty.mp he)]
    exact h.move (h.inside (by rw [ht]; rfl)) hnil (by rw [ht]; rfl)
      (h.owed.mono Set.Subset.rfl (owing_update (fun _ => trivial) fun _ _ => id))

theorem Invariant.remove (h : Invariant M contents s) (ht : s.threads t = .remove) :
    ∃ item rest, contents = item :: rest ∧ Invariant M rest (s.remove t) := by
  have hinside : (s.threads t).mode = .inside := by rw [ht]; rfl
  have hne : contents ≠ [] := h.knows_at ht
  obtain ⟨item, rest, rfl⟩ := List.exists_cons_of_ne_nil hne
  obtain ⟨list, hremove, hlist⟩ := LinkedList.Holds.remove_cons h.list
  have hitem : item.isSome := by
    refine h.items item ?_
    rw [← h.fifo]
    exact List.mem_append_right _ List.mem_cons_self
  refine ⟨item, rest, rfl, ?_⟩
  unfold State.remove
  rw [hremove]
  refine
    { failed := h.failed
      placed := h.inside (by rw [ht]; rfl)
      list := hlist
      fifo := ?_
      items := h.items
      knows := h.knows_others hinside _ hitem
      hands := ?_
      owed := ?_ }
  · show (s.taken ++ [(t, item)]).map Prod.snd ++ rest = s.appended
    rw [List.map_append, List.append_assoc]
    exact h.fifo
  · refine (Function.forall_update_iff _ fun u p => s.returned.filter (·.1 = u) ++ hand u p =
      (s.taken ++ [(t, item)]).filter (·.1 = u)).mpr ⟨?_, fun u hut => ?_⟩
    · have hhand := h.hands t
      rw [ht, show hand t (.remove : Pc α) = [] from rfl, List.append_nil] at hhand
      rw [List.filter_append, ← hhand, filter_own]
      rfl
    · rw [List.filter_append, filter_other hut, List.append_nil]
      exact h.hands u
  · have hlength : ((item :: rest).length : ℕ∞) = rest.length + 1 := by
      rw [List.length_cons, Nat.cast_add, Nat.cast_one]
    have howed := h.owed
    rw [hlength] at howed
    refine howed.remove (t := t) fun u hut hu => ?_
    show Owing _ u (Function.update s.threads t _ u)
    rw [Function.update_of_ne hut]
    exact hu

theorem Invariant.check (h : Invariant M contents s) (ht : s.threads t = .check item) :
    Invariant M contents (s.check t item) := by
  have hitem : item.isSome := h.knows_at ht
  unfold State.check
  rw [if_pos hitem]
  exact h.move (h.inside (by rw [ht]; rfl)) hitem (by rw [ht]; rfl)
    (h.owed.mono Set.Subset.rfl (owing_update (fun hu => by rw [ht] at hu; exact hu.elim)
      fun _ _ => id))

theorem Invariant.finish (h : Invariant M contents s) (ht : s.threads t = .return item) :
    Invariant M contents (s.finish t item) where
  failed := h.failed
  placed := h.inside (by rw [ht]; rfl)
  list := h.list
  fifo := h.fifo
  items := h.items
  knows := (Function.forall_update_iff _ fun _ => Knows contents).mpr
    ⟨trivial, fun u _ => h.knows u⟩
  hands := by
    refine (Function.forall_update_iff _ fun u p =>
      (s.returned ++ [(t, item)]).filter (·.1 = u) ++ hand u p =
        s.taken.filter (·.1 = u)).mpr ⟨?_, fun u hut => ?_⟩
    · have hhand := h.hands t
      rw [ht] at hhand
      rw [List.filter_append, filter_own, ← hhand]
      exact List.append_nil _
    · rw [List.filter_append, filter_other hut, List.append_nil]
      exact h.hands u
  owed := h.owed.mono Set.Subset.rfl (owing_update (fun hu => by rw [ht] at hu; exact hu.elim)
    fun _ _ => id)

theorem Invariant.threadStep (h : Invariant M contents s) (hs : ThreadStep M t s s') :
    ∃ contents', Invariant M contents' s' := by
  cases hs with
  | call hcall hlock => exact ⟨_, h.call hcall hlock⟩
  | append ht => exact ⟨_, h.append ht⟩
  | test ht => exact ⟨_, h.test ht⟩
  | remove ht =>
    obtain ⟨_, rest, _, hrest⟩ := h.remove ht
    exact ⟨rest, hrest⟩
  | check ht => exact ⟨_, h.check ht⟩
  | finish ht => exact ⟨_, h.finish ht⟩

/-- The view does not change when the lock does something by itself. -/
theorem Invariant.internal (h : Invariant M contents s) (hlock : M.step .internal s.lock lock) :
    Invariant M contents { s with lock := lock } := by
  have hallowed : (M.view s.lock).Allowed .internal := trivial
  have hview : M.view lock = M.view s.lock :=
    (M.view_step _ s.lock lock hallowed hlock).internal_eq
  refine
    { failed := h.failed
      placed := ?_
      list := h.list
      fifo := h.fifo
      items := h.items
      knows := h.knows
      hands := h.hands
      owed := ?_ }
  · rw [hview]
    exact h.placed
  · rw [hview]
    exact h.owed

theorem invariant_initial (M : Monitor τ σ) :
    Invariant M [] (State.initial M : State τ σ α) where
  failed := rfl
  placed := by
    show ∀ t, Placed (M.view M.start) t .outside
    rw [M.view_start]
    exact tracks_start
  list := LinkedList.holds_empty
  fifo := rfl
  items := nofun
  knows := fun _ => trivial
  hands := fun _ => rfl
  owed := fun _ => zero_le

theorem invariant_reachable (h : (system M).Reachable s) : ∃ contents, Invariant M contents s := by
  refine h.induct (I := fun s => ∃ contents, Invariant M contents s) ?_ ?_
  · rintro _ rfl
    exact ⟨[], invariant_initial M⟩
  · rintro s s' ⟨contents, hs⟩ ⟨-, hstep⟩
    cases hstep with
    | thread hthread => exact hs.threadStep hthread
    | internal hlock => exact ⟨contents, hs.internal hlock⟩

end Steps

/-! ## Nobody is stranded -/

/-- Some call goes on. -/
def GoesOn [DecidableEq τ] (M : Monitor τ σ) (s : State τ σ α) : Prop :=
  ∃ t s', s.threads t ≠ .outside ∧ ThreadStep M t s s'

section Live

variable [DecidableEq τ] {M : Monitor τ σ} {s : State τ σ α} {t : τ}
  {contents : List (Option α)}

theorem Invariant.holder_of (h : Invariant M contents s) (ht : (s.threads t).mode = .inside) :
    (M.view s.lock).holder = some t := by
  have hplaced := h.placed t
  rw [ht] at hplaced
  exact hplaced.1

/-- The thread that has the lock goes on. -/
theorem Invariant.inside_runs (h : Invariant M contents s) (ht : (s.threads t).mode = .inside) :
    GoesOn M s := by
  have hholder := h.holder_of ht
  have hcall : ∀ a pc, Calls t a (s.threads t) pc → a.Immediate → (M.view s.lock).Allowed a →
      ∃ s', ThreadStep M t s s' := by
    intro a pc hc ha hallowed
    obtain ⟨lock, hlock⟩ := M.immediate a s.lock ha hallowed
    exact ⟨_, .call hc hlock⟩
  have hout : s.threads t ≠ .outside := by
    intro hpc
    rw [hpc] at ht
    cases ht
  suffices hstep : ∃ s', ThreadStep M t s s' from hstep.elim fun s' hs => ⟨t, s', hout, hs⟩
  cases hpc : s.threads t with
  | append item => exact ⟨_, .append hpc⟩
  | test => exact ⟨_, .test hpc⟩
  | remove => exact ⟨_, .remove hpc⟩
  | check item => exact ⟨_, .check hpc⟩
  | signal => exact hcall (.signal t) _ (by rw [hpc]; exact .signal) trivial hholder
  | appendRelease => exact hcall (.release t) _ (by rw [hpc]; exact .appendRelease) trivial hholder
  | wait => exact hcall (.wait t) _ (by rw [hpc]; exact .wait) trivial hholder
  | removeRelease item =>
    exact hcall (.release t) _ (by rw [hpc]; exact .removeRelease item) trivial hholder
  | outside | appendAcquire | removeAcquire | waiting | «return» =>
    rw [hpc] at ht
    cases ht

/-- If a thread tries to get the lock, some call goes on. -/
theorem Invariant.entering_runs (h : Invariant M contents s)
    (hne : (M.view s.lock).entering.Nonempty) : GoesOn M s := by
  rcases inside_or_enters h.tracks hne with ⟨u, hu⟩ | ⟨u, lock, hmem, hlock⟩
  · exact h.inside_runs hu
  · have hplaced := h.placed u
    cases hpc : s.threads u with
    | appendAcquire item =>
      exact ⟨u, _, by rw [hpc]; exact nofun, .call (by rw [hpc]; exact .appendEnter item) hlock⟩
    | removeAcquire =>
      exact ⟨u, _, by rw [hpc]; exact nofun, .call (by rw [hpc]; exact .removeEnter) hlock⟩
    | waiting => exact ⟨u, _, by rw [hpc]; exact nofun, .call (by rw [hpc]; exact .waitEnter) hlock⟩
    | outside | append | signal | appendRelease | test | wait | remove | check | removeRelease
    | «return» =>
      rw [hpc] at hplaced
      exact absurd hmem hplaced.2.1

/-- A thread that owes something is not asleep. -/
theorem Invariant.owing_runs (h : Invariant M contents s)
    (ht : Owing (M.view s.lock) t (s.threads t)) : GoesOn M s := by
  cases hpc : s.threads t with
  | signal | test | remove => exact h.inside_runs (t := t) (by rw [hpc]; rfl)
  | waiting =>
    rw [hpc] at ht
    exact h.entering_runs ⟨t, ht⟩
  | _ =>
    rw [hpc] at ht
    exact ht.elim

/-- While there are items on the list, some call goes on if there is a call of
`Remove`. -/
theorem Invariant.runs (h : Invariant M contents s) (hne : contents ≠ [])
    (ht : (s.threads t).InRemove) : GoesOn M s := by
  have hplaced := h.placed t
  cases hpc : s.threads t with
  | test | wait | remove | check | removeRelease =>
    exact h.inside_runs (t := t) (by rw [hpc]; rfl)
  | «return» item => exact ⟨t, _, by rw [hpc]; exact nofun, .finish hpc⟩
  | removeAcquire =>
    rw [hpc] at hplaced
    exact h.entering_runs ⟨t, hplaced.2.1⟩
  | waiting =>
    rw [hpc] at hplaced
    rcases hplaced.2 with hentering | hsleeping
    · exact h.entering_runs ⟨t, hentering.1⟩
    · -- There is an item, so some thread owes something.
      have hcount := h.owed ⟨t, hsleeping.2⟩
      have hpos : 0 < contents.length := List.length_pos_iff.mpr hne
      have hpos' : (0 : ℕ∞) < contents.length := by exact_mod_cast hpos
      obtain ⟨u, hu⟩ := Set.encard_pos.mp (hpos'.trans_le hcount)
      exact h.owing_runs hu
  | outside | appendAcquire | append | signal | appendRelease =>
    rw [hpc] at ht
    exact ht.elim

end Live

/-- What the users of a list can rely on. -/
structure Queue [DecidableEq τ] (M : Monitor τ σ) (s : State τ σ α) : Prop where
  /-- a thread that works on the list has the lock -/
  exclusive : ∀ t, (s.threads t).mode = .inside → (M.view s.lock).holder = some t
  /-- the items were taken in the order in which they were put on the list, where the others
  still are -/
  fifo : ∃ contents : List (Option α), s.list.Holds (contents.map (Entry.mk 0)) ∧
    s.taken.map Prod.snd ++ contents = s.appended
  /-- every thread has returned what it took, in this order, or has it in hand -/
  hands : ∀ t, s.returned.filter (·.1 = t) ++ hand t (s.threads t) = s.taken.filter (·.1 = t)
  failed : s.failed = false
  /-- the calls are not all blocked while there is an item and a thread waits for one -/
  live : ¬ (s.list.isEmpty = false ∧ (∃ t, (s.threads t).InRemove) ∧
    ∀ t, s.threads t ≠ .outside → Blocked M s t)

/-- **Synchronized lists.**  Over any lock and condition variable with Mesa semantics, in
every state that calls by any threads lead to. -/
theorem synchronized_queue [DecidableEq τ] (M : Monitor τ σ) {s : State τ σ α}
    (h : (system M).Reachable s) : Queue M s := by
  obtain ⟨contents, hs⟩ := invariant_reachable h
  refine ⟨fun t => hs.holder_of, ⟨contents, hs.list, hs.fifo⟩, hs.hands, hs.failed, ?_⟩
  rintro ⟨hitems, ⟨t, ht⟩, hblocked⟩
  have hne : contents ≠ [] := by
    rintro rfl
    have hempty : s.list.isEmpty = true := hs.list.isEmpty_iff.mpr rfl
    rw [hitems] at hempty
    cases hempty
  obtain ⟨u, s', hu, hstep⟩ := hs.runs hne ht
  exact hblocked u hu s' hstep

theorem reachable_thread [DecidableEq τ] {M : Monitor τ σ} {s s' : State τ σ α} {t : τ}
    (h : (system M).Reachable s) (hf : s.failed = false) (hs : ThreadStep M t s s') :
    (system M).Reachable s' :=
  h.step ⟨hf, .thread hs⟩

/-- One thread sleeps in `Remove`, and another one has put an item on the list and not yet
sent the signal. -/
theorem synchronized_queue_sleeper : ∃ s : State Bool (View Bool) Nat,
    s.threads false = .waiting ∧ s.threads true = .signal ∧ s.list.isEmpty = false ∧
      Queue (mesa Bool) s := by
  have h₀ : (system (mesa Bool)).Reachable
      (State.initial (mesa Bool) : State Bool (View Bool) Nat) := .of_init rfl
  have h₁ := reachable_thread h₀ rfl (.call (t := false) .remove .acquire)
  have h₂ := reachable_thread h₁ rfl (.call (t := false) .removeEnter (.enter rfl (.inl rfl)))
  have h₃ := reachable_thread h₂ rfl (.test (t := false) rfl)
  have h₄ := reachable_thread h₃ rfl (.call (t := false) .wait .wait)
  have h₅ := reachable_thread h₄ rfl (.call (t := true) (.append 7) .acquire)
  have h₆ := reachable_thread h₅ rfl (.call (t := true) (.appendEnter _) (.enter rfl (.inl rfl)))
  have h₇ := reachable_thread h₆ rfl (.append (t := true) rfl)
  exact ⟨_, rfl, rfl, rfl, synchronized_queue (mesa Bool) h₇⟩

end SynchList
end Threads
end Nachos
