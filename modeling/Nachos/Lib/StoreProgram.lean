import Mathlib.Data.List.Nodup
import Mathlib.Logic.Function.Basic
import Nachos.Lib.System

/-!
# Programs over a store, one access at a time

A program reads and writes the cells of a store, and returns or fails.  `run`
takes it from its start to its end.  `writes` lists the writes on the way, so
that the store of a program stopped half way is the one after the first few of
them.  Several programs over one store take turns access by access, and those
that write no cell of another one end as each does alone.
-/

namespace Lib

inductive StoreProgram (κ ν ε α : Type) : Type
  | done (a : α)
  | fail (e : ε)
  | read (k : κ) (next : ν → StoreProgram κ ν ε α)
  | write (k : κ) (v : ν) (next : StoreProgram κ ν ε α)

namespace StoreProgram

variable {κ ν ε α β : Type}

def bind (f : α → StoreProgram κ ν ε β) : StoreProgram κ ν ε α → StoreProgram κ ν ε β
  | done a => f a
  | fail e => fail e
  | read k next => read k fun v => bind f (next v)
  | write k v next => write k v (bind f next)

instance : Monad (StoreProgram κ ν ε) where
  pure := done
  bind x f := x.bind f

theorem done_bind (a : α) (f : α → StoreProgram κ ν ε β) : (done a >>= f) = f a := rfl

theorem read_bind (k : κ) (next : ν → StoreProgram κ ν ε α) (f : α → StoreProgram κ ν ε β) :
    (read k next >>= f) = read k fun v => next v >>= f := rfl

theorem write_bind (k : κ) (v : ν) (next : StoreProgram κ ν ε α)
    (f : α → StoreProgram κ ν ε β) : (write k v next >>= f) = write k v (next >>= f) := rfl

/-! ## From start to end -/

section Run

variable [DecidableEq κ]

def run : StoreProgram κ ν ε α → StateT (κ → ν) (Except ε) α
  | done a => fun s => .ok (a, s)
  | fail e => fun _ => .error e
  | read k next => fun s => (next (s k)).run s
  | write k v next => fun s => next.run (Function.update s k v)

theorem run_pure (a : α) : (pure a : StoreProgram κ ν ε α).run = pure a := rfl

theorem run_fail (e : ε) : (fail e : StoreProgram κ ν ε α).run = throw e := rfl

theorem run_bind (x : StoreProgram κ ν ε α) (f : α → StoreProgram κ ν ε β) :
    (x >>= f).run = x.run >>= fun a => (f a).run := by
  induction x with
  | done a => rfl
  | fail e => rfl
  | read k next ih =>
    rw [read_bind]
    exact funext fun s => congrFun (ih (s k)) s
  | write k v next ih =>
    rw [write_bind]
    exact funext fun s => congrFun ih (Function.update s k v)

theorem run_ite (c : Prop) [Decidable c] (x y : StoreProgram κ ν ε α) :
    (if c then x else y).run = if c then x.run else y.run := apply_ite run c x y

/-! ## Stopped half way -/

/-- The writes of the run from `s`, in order, whether or not it fails. -/
def writes : StoreProgram κ ν ε α → (κ → ν) → List (κ × ν)
  | done _, _ => []
  | fail _, _ => []
  | read k next, s => (next (s k)).writes s
  | write k v next, s => (k, v) :: next.writes (Function.update s k v)

/-- The store after the writes `ws`. -/
def written (s : κ → ν) (ws : List (κ × ν)) : κ → ν :=
  ws.foldl (fun s w => Function.update s w.1 w.2) s

/-- The store when the program stops after its first `n` writes. -/
def stopped (p : StoreProgram κ ν ε α) (s : κ → ν) (n : Nat) : κ → ν :=
  written s ((p.writes s).take n)

variable {x : StoreProgram κ ν ε α} {f : α → StoreProgram κ ν ε β} {s s' : κ → ν} {a : α}

theorem writes_bind (h : x.run s = .ok (a, s')) :
    (x >>= f).writes s = x.writes s ++ (f a).writes s' := by
  induction x generalizing s with
  | done b =>
    cases h
    rfl
  | fail e => cases h
  | read k next ih => exact ih (s k) h
  | write k v next ih => exact congrArg (List.cons (k, v)) (ih h)

/-- What only changes the value that is returned makes no write. -/
theorem writes_bind_pure (g : α → β) : (x >>= fun a => pure (g a)).writes s = x.writes s := by
  induction x generalizing s with
  | done a => rfl
  | fail e => rfl
  | read k next ih => exact ih (s k)
  | write k v next ih => exact congrArg (List.cons (k, v)) ih

theorem stopped_bind_pure (g : α → β) (n : Nat) :
    (x >>= fun a => pure (g a)).stopped s n = x.stopped s n := by
  rw [stopped, stopped, writes_bind_pure]

theorem run_bind_of_ok (h : x.run s = .ok (a, s')) : (x >>= f).run s = (f a).run s' := by
  rw [run_bind]
  show (StateT.bind _ _) s = _
  unfold StateT.bind
  rw [h]
  rfl

/-- A run that returns went through its parts one after the other. -/
theorem run_bind_ok {b : β} : (x >>= f).run s = .ok (b, s') ↔
    ∃ a s₁, x.run s = .ok (a, s₁) ∧ (f a).run s₁ = .ok (b, s') := by
  rw [run_bind]
  show (StateT.bind _ _) s = _ ↔ _
  unfold StateT.bind
  constructor
  · intro h
    cases hx : x.run s with
    | error e =>
      rw [hx] at h
      cases h
    | ok r =>
      rw [hx] at h
      exact ⟨r.1, r.2, rfl, h⟩
  · rintro ⟨a, s₁, hx, hf⟩
    rw [hx]
    exact hf

theorem written_writes (h : x.run s = .ok (a, s')) : written s (x.writes s) = s' := by
  induction x generalizing s with
  | done b =>
    cases h
    rfl
  | fail e => cases h
  | read k next ih => exact ih (s k) h
  | write k v next ih => exact ih h

theorem written_of_not_mem {ws : List (κ × ν)} {k : κ} (h : k ∉ ws.map Prod.fst) (s : κ → ν) :
    written s ws k = s k := by
  induction ws generalizing s with
  | nil => rfl
  | cons w ws ih =>
    rw [List.map_cons, List.mem_cons, not_or] at h
    exact (ih h.2 _).trans (Function.update_of_ne h.1 w.2 s)

/-- When no cell is written twice, a prefix of the writes has left in each of
its cells what all of them leave there. -/
theorem written_take {ws : List (κ × ν)} (h : (ws.map Prod.fst).Nodup) (n : Nat) (s : κ → ν)
    (k : κ) : written s (ws.take n) k =
      if k ∈ (ws.map Prod.fst).take n then written s ws k else s k := by
  rw [← List.map_take]
  by_cases hk : k ∈ (ws.take n).map Prod.fst
  · have hsplit : (ws.take n).map Prod.fst ++ (ws.drop n).map Prod.fst = ws.map Prod.fst := by
      rw [← List.map_append, List.take_append_drop]
    rw [← hsplit] at h
    have hrest : k ∉ (ws.drop n).map Prod.fst := fun hd =>
      List.disjoint_of_nodup_append h hk hd
    have hall : written s ws = written (written s (ws.take n)) (ws.drop n) := by
      rw [written, written, written, ← List.foldl_append, List.take_append_drop]
    rw [if_pos hk, hall, written_of_not_mem hrest]
  · rw [if_neg hk, written_of_not_mem hk]

/-- A program that writes no cell twice, stopped after `n` writes: the cells it
has got to are as at its end, and the others as at its start. -/
theorem stopped_eq (h : x.run s = .ok (a, s')) (hnodup : ((x.writes s).map Prod.fst).Nodup)
    (n : Nat) (k : κ) : x.stopped s n k =
      if k ∈ ((x.writes s).map Prod.fst).take n then s' k else s k := by
  rw [stopped, written_take hnodup, written_writes h]

theorem stopped_of_le {n : Nat} (h : x.run s = .ok (a, s')) (hn : (x.writes s).length ≤ n) :
    x.stopped s n = s' := by
  rw [stopped, List.take_of_length_le hn, written_writes h]

end Run

/-! ## The cells a run gets to -/

section Touches

variable [DecidableEq κ] {R W F : κ → Prop} {x : StoreProgram κ ν ε α}
  {f : α → StoreProgram κ ν ε β} {s t : κ → ν}

/-- The run from `s` reads cells of `R` and writes cells of `W` only. -/
inductive Touches (R W : κ → Prop) : StoreProgram κ ν ε α → (κ → ν) → Prop
  | done {a : α} {s : κ → ν} : Touches R W (done a) s
  | fail {e : ε} {s : κ → ν} : Touches R W (fail e) s
  | read {k : κ} {next : ν → StoreProgram κ ν ε α} {s : κ → ν} (hk : R k)
      (h : Touches R W (next (s k)) s) : Touches R W (read k next) s
  | write {k : κ} {v : ν} {next : StoreProgram κ ν ε α} {s : κ → ν} (hk : W k)
      (h : Touches R W next (Function.update s k v)) : Touches R W (write k v next) s

theorem Touches.bind (hx : x.Touches R W s)
    (hf : ∀ a s', x.run s = .ok (a, s') → (f a).Touches R W s') : (x >>= f).Touches R W s := by
  induction hx with
  | @done a s => exact hf a s rfl
  | fail => exact .fail
  | read hk _ ih => exact .read hk (ih hf)
  | write hk _ ih => exact .write hk (ih hf)

theorem Touches.ite {c : Prop} [Decidable c] {y : StoreProgram κ ν ε α}
    (hx : c → x.Touches R W s) (hy : ¬ c → y.Touches R W s) :
    (if c then x else y).Touches R W s := by
  by_cases h : c
  · rw [if_pos h]
    exact hx h
  · rw [if_neg h]
    exact hy h

theorem Touches.mono {R' W' : κ → Prop} (hx : x.Touches R W s) (hR : ∀ k, R k → R' k)
    (hW : ∀ k, W k → W' k) : x.Touches R' W' s := by
  induction hx with
  | done => exact .done
  | fail => exact .fail
  | read hk _ ih => exact .read (hR _ hk) ih
  | write hk _ ih => exact .write (hW _ hk) ih

theorem Touches.mem_writes (hx : x.Touches R W s) {w : κ × ν} (hw : w ∈ x.writes s) :
    W w.1 := by
  induction hx with
  | done => exact absurd hw List.not_mem_nil
  | fail => exact absurd hw List.not_mem_nil
  | read _ _ ih => exact ih hw
  | write hk _ ih =>
    rcases List.mem_cons.mp hw with rfl | hw
    · exact hk
    · exact ih hw

/-- Code that only reads makes no writes. -/
theorem Touches.writes_eq_nil (hx : x.Touches R (fun _ => False) s) : x.writes s = [] :=
  List.eq_nil_iff_forall_not_mem.mpr fun _ hw => hx.mem_writes hw

theorem Touches.reads_run (hx : x.Touches R (fun _ => False) s) {a : α} {s' : κ → ν}
    (h : x.run s = .ok (a, s')) : s' = s := by
  rw [← written_writes h, hx.writes_eq_nil]
  rfl

/-- A run leaves the cells that it may not write. -/
theorem Touches.frame (hx : x.Touches R W s) {a : α} {s' : κ → ν} (h : x.run s = .ok (a, s'))
    {k : κ} (hk : ¬ W k) : s' k = s k := by
  induction hx with
  | done =>
    obtain ⟨-, rfl⟩ := Prod.mk.inj (Except.ok.inj h)
    rfl
  | fail => cases h
  | read _ _ ih => exact ih h
  | @write j v next s hj _ ih =>
    refine (ih h).trans (Function.update_of_ne ?_ v s)
    rintro rfl
    exact hk hj

/-- How a run ends, as far as the cells of `F` show. -/
def outcome (F : κ → Prop) (x : StoreProgram κ ν ε α) (s : κ → ν) :
    Except ε (α × ({k // F k} → ν)) :=
  (x.run s).map fun r => (r.1, fun k => r.2 k)

theorem update_agree (hs : ∀ k, F k → t k = s k) (k₀ : κ) (v : ν) :
    ∀ k, F k → Function.update t k₀ v k = Function.update s k₀ v k := by
  intro k hk
  by_cases he : k = k₀
  · subst he
    rw [Function.update_self, Function.update_self]
  · rw [Function.update_of_ne he, Function.update_of_ne he, hs k hk]

/-- Cells that a run does not touch make no difference to it. -/
theorem Touches.congr (hx : x.Touches R W s) (hs : ∀ k, R k ∨ W k → t k = s k) :
    x.Touches R W t ∧ outcome (fun k => R k ∨ W k) x t = outcome (fun k => R k ∨ W k) x s := by
  induction hx generalizing t with
  | @done a s =>
    exact ⟨.done, congrArg (fun g => Except.ok (a, g)) (funext fun k => hs k k.2)⟩
  | fail => exact ⟨.fail, rfl⟩
  | @read k next s hk _ ih =>
    obtain ⟨hrest, hout⟩ := ih hs
    rw [← hs k (Or.inl hk)] at hrest hout
    refine ⟨.read hk hrest, hout.trans ?_⟩
    rw [hs k (Or.inl hk)]
    rfl
  | @write k v next s hk _ ih =>
    obtain ⟨hrest, hout⟩ := ih (update_agree hs k v)
    exact ⟨.write hk hrest, hout⟩

theorem outcome_ok {a : α} {g : {k // F k} → ν} (h : outcome F x s = .ok (a, g)) :
    ∃ s', x.run s = .ok (a, s') ∧ ∀ k (hk : F k), g ⟨k, hk⟩ = s' k := by
  unfold outcome at h
  cases hrun : x.run s with
  | error e =>
    rw [hrun] at h
    cases h
  | ok r =>
    rw [hrun] at h
    obtain ⟨rfl, rfl⟩ := Prod.mk.inj (Except.ok.inj h)
    exact ⟨r.2, rfl, fun _ _ => rfl⟩

theorem outcome_error {e : ε} (h : outcome F x s = .error e) : x.run s = .error e := by
  unfold outcome at h
  cases hrun : x.run s with
  | error e' =>
    rw [hrun] at h
    cases h
    rfl
  | ok r =>
    rw [hrun] at h
    cases h

end Touches

/-! ## Several programs over one store -/

/-- The store, and what is left of each thread's program. -/
structure Threads (ι κ ν ε α : Type) where
  store : κ → ν
  left : ι → StoreProgram κ ν ε α

namespace Threads

variable {ι : Type} [DecidableEq ι] [DecidableEq κ]

/-- One access of one thread. -/
inductive Step (c : Threads ι κ ν ε α) : Threads ι κ ν ε α → Prop
  | read {i : ι} {k : κ} {next : ν → StoreProgram κ ν ε α} (h : c.left i = .read k next) :
      Step c ⟨c.store, Function.update c.left i (next (c.store k))⟩
  | write {i : ι} {k : κ} {v : ν} {next : StoreProgram κ ν ε α} (h : c.left i = .write k v next) :
      Step c ⟨Function.update c.store k v, Function.update c.left i next⟩

def system (s : κ → ν) (p : ι → StoreProgram κ ν ε α) : System (Threads ι κ ν ε α) where
  init c := c = ⟨s, p⟩
  step := Step

/-- No thread's run from `s` writes a cell that another one's reads or writes. -/
structure Apart (s : κ → ν) (p : ι → StoreProgram κ ν ε α) (R W : ι → κ → Prop) : Prop where
  touches : ∀ i, (p i).Touches (R i) (W i) s
  disjoint : ∀ i j, i ≠ j → ∀ k, W i k → ¬ (R j k ∨ W j k)

/-- What is left of the program `p`, from the store `t` on, ends as all of it does from `s`. -/
structure Ends (R W : κ → Prop) (p : StoreProgram κ ν ε α) (s : κ → ν)
    (x : StoreProgram κ ν ε α) (t : κ → ν) : Prop where
  touches : x.Touches R W t
  outcome : x.outcome (fun k => R k ∨ W k) t = p.outcome (fun k => R k ∨ W k) s

/-- Each thread is on its way to where it ends alone. -/
structure Alone (s : κ → ν) (p : ι → StoreProgram κ ν ε α) (R W : ι → κ → Prop)
    (c : Threads ι κ ν ε α) : Prop where
  ends : ∀ i, Ends (R i) (W i) (p i) s (c.left i) c.store
  rest : ∀ k, (∀ i, ¬ W i k) → c.store k = s k

theorem Ends.congr {R W : κ → Prop} {p x : StoreProgram κ ν ε α} {s t t' : κ → ν}
    (h : Ends R W p s x t) (ht : ∀ k, R k ∨ W k → t' k = t k) : Ends R W p s x t' := by
  obtain ⟨htouches, hout⟩ := h.touches.congr ht
  exact ⟨htouches, hout.trans h.outcome⟩

variable {s : κ → ν} {p : ι → StoreProgram κ ν ε α} {R W : ι → κ → Prop}
  {c c' : Threads ι κ ν ε α}

theorem Alone.step (hp : Apart s p R W) (hc : Alone s p R W c) (hs : Step c c') :
    Alone s p R W c' := by
  cases hs with
  | @read i k next h =>
    have hi := hc.ends i
    rw [h] at hi
    refine ⟨(Function.forall_update_iff c.left fun j x =>
      Ends (R j) (W j) (p j) s x c.store).mpr ⟨?_, fun j _ => hc.ends j⟩, hc.rest⟩
    cases hi.touches with
    | read _ hrest => exact ⟨hrest, hi.outcome⟩
  | @write i k v next h =>
    have hi := hc.ends i
    rw [h] at hi
    obtain ⟨hk, hrest⟩ : W i k ∧ next.Touches (R i) (W i) (Function.update c.store k v) := by
      cases hi.touches with
      | write hk hrest => exact ⟨hk, hrest⟩
    refine ⟨(Function.forall_update_iff c.left fun j x =>
      Ends (R j) (W j) (p j) s x (Function.update c.store k v)).mpr ⟨?_, fun j hj => ?_⟩,
      fun a ha => ?_⟩
    · exact ⟨hrest, hi.outcome⟩
    · -- the cell written is in nobody else's way
      refine (hc.ends j).congr fun a ha => Function.update_of_ne ?_ v c.store
      rintro rfl
      exact hp.disjoint i j (Ne.symm hj) a hk ha
    · refine (Function.update_of_ne ?_ v c.store).trans (hc.rest a ha)
      rintro rfl
      exact ha i hk

theorem alone_of_reachable (hp : Apart s p R W) (hc : (system s p).Reachable c) :
    Alone s p R W c := by
  refine hc.induct (fun c h => ?_) fun _ _ h hs => h.step hp hs
  obtain rfl : c = ⟨s, p⟩ := h
  exact ⟨fun i => ⟨hp.touches i, rfl⟩, fun _ _ => rfl⟩

/-- A thread that has returned: the same as alone, and so are the cells it touched. -/
theorem done_run (hp : Apart s p R W) (hc : (system s p).Reachable c) {i : ι} {a : α}
    (h : c.left i = .done a) :
    ∃ s', (p i).run s = .ok (a, s') ∧ ∀ k, R i k ∨ W i k → c.store k = s' k := by
  have hout := ((alone_of_reachable hp hc).ends i).outcome
  rw [h] at hout
  exact outcome_ok hout.symm

/-- A thread that has failed fails alone too. -/
theorem fail_run (hp : Apart s p R W) (hc : (system s p).Reachable c) {i : ι} {e : ε}
    (h : c.left i = .fail e) : (p i).run s = .error e := by
  have hout := ((alone_of_reachable hp hc).ends i).outcome
  rw [h] at hout
  exact outcome_error hout.symm

/-! ## Threads that have all returned -/

def Finished (c : Threads ι κ ν ε α) : Prop := ∀ i, ∃ a, c.left i = .done a

/-- A thread that has neither returned nor failed can go on. -/
theorem progress (c : Threads ι κ ν ε α) (i : ι) :
    (∃ a, c.left i = .done a) ∨ (∃ e, c.left i = .fail e) ∨ ∃ c', Step c c' := by
  cases h : c.left i with
  | done a => exact Or.inl ⟨a, rfl⟩
  | fail e => exact Or.inr (Or.inl ⟨e, rfl⟩)
  | read k next => exact Or.inr (Or.inr ⟨_, .read h⟩)
  | write k v next => exact Or.inr (Or.inr ⟨_, .write h⟩)

/-- Threads that keep apart end in one state, whatever the order of their accesses. -/
theorem confluent (hp : Apart s p R W) (hc : (system s p).Reachable c)
    (hc' : (system s p).Reachable c') (hf : c.Finished) (hf' : c'.Finished) : c = c' := by
  have hsame : ∀ i, c.left i = c'.left i ∧ ∀ k, R i k ∨ W i k → c.store k = c'.store k := by
    intro i
    obtain ⟨a, ha⟩ := hf i
    obtain ⟨a', ha'⟩ := hf' i
    obtain ⟨t, hrun, hstore⟩ := done_run hp hc ha
    obtain ⟨t', hrun', hstore'⟩ := done_run hp hc' ha'
    rw [hrun, Except.ok.injEq, Prod.mk.injEq] at hrun'
    obtain ⟨rfl, rfl⟩ := hrun'
    exact ⟨ha.trans ha'.symm, fun k hk => (hstore k hk).trans (hstore' k hk).symm⟩
  have hstore : c.store = c'.store := by
    funext k
    by_cases hk : ∃ i, W i k
    · obtain ⟨i, hi⟩ := hk
      exact (hsame i).2 k (Or.inr hi)
    · have hnone : ∀ i, ¬ W i k := fun i hi => hk ⟨i, hi⟩
      rw [(alone_of_reachable hp hc).rest k hnone, (alone_of_reachable hp hc').rest k hnone]
  have hleft : c.left = c'.left := funext fun i => (hsame i).1
  calc c = ⟨c.store, c.left⟩ := rfl
    _ = ⟨c'.store, c'.left⟩ := by rw [hstore, hleft]

/-- One thread runs from start to end while the others wait. -/
theorem run_alone {i : ι} {x : StoreProgram κ ν ε α} {t : κ → ν} {a : α} :
    ∀ (s : κ → ν) (left : ι → StoreProgram κ ν ε α), left i = x → x.run s = .ok (a, t) →
      Relation.ReflTransGen Step ⟨s, left⟩ ⟨t, Function.update left i (.done a)⟩ := by
  induction x with
  | done b =>
    intro s left hleft hrun
    obtain ⟨rfl, rfl⟩ := Prod.mk.inj (Except.ok.inj hrun)
    rw [← hleft, Function.update_eq_self]
  | fail e => exact fun s left _ hrun => absurd hrun (by intro h; cases h)
  | read k next ih =>
    intro s left hleft hrun
    have hrest := ih (s k) s (Function.update left i (next (s k))) (Function.update_self ..) hrun
    rw [Function.update_idem] at hrest
    exact hrest.head (.read hleft)
  | write k v next ih =>
    intro s left hleft hrun
    have hrest := ih (Function.update s k v) (Function.update left i next)
      (Function.update_self ..) hrun
    rw [Function.update_idem] at hrest
    exact hrest.head (.write hleft)

/-- The programs of a list one after the other, with what each gives. -/
def inTurn (p : ι → StoreProgram κ ν ε α) : List ι → (κ → ν) → Except ε (List α × (κ → ν))
  | [], s => .ok ([], s)
  | i :: l, s =>
    match (p i).run s with
    | .error e => .error e
    | .ok (a, t) => (inTurn p l t).map fun r => (a :: r.1, r.2)

/-- Threads that keep apart and have returned have done what they do one after the other, in
any order. -/
theorem serial (hp : Apart s p R W) (hc : (system s p).Reachable c) (hf : c.Finished)
    (l : List ι) (hl : l.Nodup) : ∀ c', (system s p).Reachable c' →
      (∀ i ∈ l, c'.left i = p i) → (∀ i, i ∉ l → ∃ a, c'.left i = .done a) →
      ∃ as, inTurn p l c'.store = .ok (as, c.store) ∧ l.map c.left = as.map .done := by
  induction l with
  | nil =>
    intro c' hc' _ hdone
    have hsame := confluent hp hc hc' hf fun i => hdone i List.not_mem_nil
    exact ⟨[], by rw [hsame]; rfl, rfl⟩
  | cons i l ih =>
    intro c' hc' hleft hdone
    obtain ⟨hnot, hl⟩ := List.nodup_cons.mp hl
    obtain ⟨a, ha⟩ := hf i
    obtain ⟨t, hrun, -⟩ := done_run hp hc ha
    -- thread `i` ends from the store of `c'` as it does from `s`
    have hout := ((alone_of_reachable hp hc').ends i).outcome
    rw [hleft i List.mem_cons_self] at hout
    have hfirst : (p i).outcome (fun k => R i k ∨ W i k) s = .ok (a, fun k => t k) := by
      rw [outcome, hrun]
      rfl
    obtain ⟨t', hrun', -⟩ := outcome_ok (hout.trans hfirst)
    have hreach : (system s p).Reachable ⟨t', Function.update c'.left i (.done a)⟩ :=
      hc'.run (run_alone c'.store c'.left (hleft i List.mem_cons_self) hrun')
    have hwaiting : ∀ j ∈ l, Function.update c'.left i (.done a) j = p j := fun j hj => by
      have hji : j ≠ i := fun he => hnot (he ▸ hj)
      rw [Function.update_of_ne hji]
      exact hleft j (List.mem_cons_of_mem _ hj)
    have hreturned : ∀ j, j ∉ l → ∃ b, Function.update c'.left i (.done a) j = .done b := by
      intro j hj
      by_cases hji : j = i
      · subst hji
        exact ⟨a, Function.update_self ..⟩
      · rw [Function.update_of_ne hji]
        exact hdone j fun hm => (List.mem_cons.mp hm).elim hji hj
    obtain ⟨as, hturn, hanswers⟩ := ih hl _ hreach hwaiting hreturned
    refine ⟨a :: as, ?_, by rw [List.map_cons, List.map_cons, hanswers, ha]⟩
    rw [inTurn, hrun']
    show (inTurn p l t').map _ = _
    rw [hturn]
    rfl

/-- One thread runs up to its first write. -/
theorem run_to_write {i : ι} {x : StoreProgram κ ν ε α} {k : κ} {v : ν} {ws : List (κ × ν)} :
    ∀ (s : κ → ν) (left : ι → StoreProgram κ ν ε α), left i = x → x.writes s = (k, v) :: ws →
      ∃ next, Relation.ReflTransGen Step ⟨s, left⟩
          ⟨s, Function.update left i (.write k v next)⟩ ∧
        next.run (Function.update s k v) = x.run s := by
  induction x with
  | done a => exact fun s left _ h => absurd h (by intro h; cases h)
  | fail e => exact fun s left _ h => absurd h (by intro h; cases h)
  | read j next ih =>
    intro s left hleft h
    obtain ⟨rest, hsteps, hrun⟩ := ih (s j) s (Function.update left i (next (s j)))
      (Function.update_self ..) h
    rw [Function.update_idem] at hsteps
    exact ⟨rest, hsteps.head (.read hleft), hrun⟩
  | write j w next _ =>
    intro s left hleft h
    obtain ⟨hfirst, -⟩ := List.cons.inj h
    obtain ⟨rfl, rfl⟩ := Prod.mk.inj hfirst
    refine ⟨next, ?_, rfl⟩
    rw [← hleft, Function.update_eq_self]

/-- Two threads that write the same one cell: what one of them has read can be out of date
when it writes, and then the other's write is lost. -/
theorem lost_update {i j : ι} (hij : i ≠ j) {k : κ} {v w : ν} {a b : α} {t u : κ → ν}
    (hi : (p i).run s = .ok (a, t)) (hj : (p j).run s = .ok (b, u))
    (hwi : (p i).writes s = [(k, v)]) (hwj : (p j).writes s = [(k, w)]) :
    ∃ c, (system s p).Reachable c ∧ c.left i = .done a ∧ c.left j = .done b ∧ c.store = t := by
  obtain ⟨next, hsteps, hrun⟩ := run_to_write (i := i) s p rfl hwi
  have hu : u = Function.update s k w := by
    rw [← written_writes hj, hwj]
    rfl
  have hready : (Function.update p i (.write k v next)) j = p j :=
    Function.update_of_ne (Ne.symm hij) _ _
  have hother := run_alone s _ hready hj
  -- thread `i` now writes what it made of the old cell
  have hwrite : Step ⟨u, Function.update (Function.update p i (.write k v next)) j (.done b)⟩
      ⟨Function.update s k v, Function.update
        (Function.update (Function.update p i (.write k v next)) j (.done b)) i next⟩ := by
    have hleft : Function.update (Function.update p i (.write k v next)) j (.done b) i =
        .write k v next := by
      rw [Function.update_of_ne hij, Function.update_self]
    have hstore : Function.update u k v = Function.update s k v := by
      rw [hu, Function.update_idem]
    rw [← hstore]
    exact .write hleft
  have hrest := run_alone (i := i) (Function.update s k v) (Function.update
    (Function.update (Function.update p i (.write k v next)) j (.done b)) i next)
    (Function.update_self ..) (hrun.trans hi)
  refine ⟨_, ⟨⟨s, p⟩, rfl, ((hsteps.trans hother).tail hwrite).trans hrest⟩, ?_, ?_, rfl⟩
  · exact Function.update_self ..
  · show Function.update _ i _ j = _
    rw [Function.update_of_ne (Ne.symm hij), Function.update_of_ne (Ne.symm hij),
      Function.update_self]

end Threads

end StoreProgram
end Lib
