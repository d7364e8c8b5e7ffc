import Nachos.Threads.LinkedList

/-!
# A linked list as a sequence

Each operation of `List` is the operation of its name on the sequence of items, and
leaves `last` at the final element, over any history.  With `SortedInsert` and
`SortedRemove` alone, the list is a queue by key, first in first out for each key.
-/

namespace Nachos
namespace Threads

open Lib

variable {α κ : Type}

namespace LinkedList

/-! ## Taking out an element -/

variable {heap heap' : Ptr → Option (ListElement α κ)} {p : Option Ptr}
  {l : LinkedList α κ} {pre post rest : List (Ptr × Entry α κ)} {cur : Link} {prec : Option Ptr}

/-- `cur` points to the pointer behind the elements `pre`, and `prec` to the last of
these. -/
inductive Behind : List (Ptr × Entry α κ) → Link → Option Ptr → Prop
  | first : Behind [] .first none
  | next {pre : List (Ptr × Entry α κ)} {x : Ptr} {e : Entry α κ} :
      Behind (pre ++ [(x, e)]) (.next x) (some x)

theorem Behind.target (hcur : Behind pre cur prec) (h : l.Cells (pre ++ rest)) :
    ∃ p, l.target cur = some p ∧ Linked l.heap p rest := by
  cases hcur with
  | first => exact ⟨l.first, rfl, h.linked⟩
  | @next pre x e =>
    have hlinked := h.linked
    rw [List.append_assoc] at hlinked
    obtain ⟨_, _, next, hx, hrest⟩ := hlinked.drop
    refine ⟨next, ?_, hrest⟩
    simp only [LinkedList.target, hx, Option.map_some]

/-- The element behind `x` is taken out. -/
theorem Linked.unlink {x y : Ptr} {e₀ e : Entry α κ}
    (h : Linked heap p (pre ++ (x, e₀) :: (y, e) :: post))
    (hnodup : ((pre ++ (x, e₀) :: (y, e) :: post).map Prod.fst).Nodup)
    (hheap : ∀ z, z ≠ x → z ≠ y → heap' z = heap z)
    (hx : ∀ next, heap y = some ⟨next, e.key, e.item⟩ →
      heap' x = some ⟨next, e₀.key, e₀.item⟩) :
    Linked heap' p (pre ++ (x, e₀) :: post) := by
  induction pre generalizing p with
  | nil =>
    obtain ⟨hp, _, _, _, next, hy, hrest⟩ := h
    obtain ⟨hnotx, hnodup⟩ := List.nodup_cons.mp hnodup
    obtain ⟨hnoty, _⟩ := List.nodup_cons.mp hnodup
    refine ⟨hp, next, hx next hy, hrest.congr ?_⟩
    intro z hz
    apply hheap z
    · intro heq
      exact hnotx (List.mem_cons_of_mem _ (heq ▸ hz))
    · intro heq
      exact hnoty (heq ▸ hz)
  | cons c pre ih =>
    obtain ⟨hp, next, hc, hrest⟩ := h
    obtain ⟨hnot, hnodup⟩ := List.nodup_cons.mp hnodup
    refine ⟨hp, next, ?_, ih hrest hnodup⟩
    rw [hheap c.1]
    · exact hc
    · intro heq
      apply hnot
      simp [heq]
    · intro heq
      apply hnot
      simp [heq]

/-- `last` after an element is taken out. -/
theorem Cells.last_unlink {x : Ptr} {e : Entry α κ} (h : l.Cells (pre ++ (x, e) :: post))
    (hcur : Behind pre cur prec) :
    (if some x = l.last then prec else l.last) = ((pre ++ post).map Prod.fst).getLast? := by
  cases post with
  | nil =>
    have hlast : l.last = some x := by
      rw [h.last]
      simp
    rw [if_pos hlast.symm]
    cases hcur with
    | first => rfl
    | next => simp
  | cons c post =>
    have hlast : l.last = ((c :: post).map Prod.fst).getLast? := by
      rw [h.last, List.map_append, List.map_cons, List.getLast?_append_cons, List.map_cons,
        List.getLast?_cons_cons]
    have hne : ¬ some x = l.last := by
      intro heq
      rw [hlast] at heq
      have hnodup := h.nodup
      rw [List.map_append, List.nodup_append] at hnodup
      exact (List.nodup_cons.mp hnodup.2.1).1 (List.mem_of_getLast? heq.symm)
    rw [if_neg hne, hlast, List.map_append, List.map_cons, List.getLast?_append_cons]

/-- The assignments of `Remove (void *item)` at the element of `cur`. -/
theorem Cells.unlink {x : Ptr} {e : Entry α κ} {next : Option Ptr}
    (h : l.Cells (pre ++ (x, e) :: post)) (hcur : Behind pre cur prec)
    (hx : l.heap x = some ⟨next, e.key, e.item⟩) :
    ∃ l', setTarget { l with
        last := if some x = l.last then prec else l.last
        heap := Function.update l.heap x none } cur next = some l' ∧ l'.Cells (pre ++ post) := by
  have hlast := h.last_unlink hcur
  have hsub : (pre ++ post).Sublist (pre ++ (x, e) :: post) :=
    (List.sublist_cons_self (x, e) post).append_left pre
  have hnodup : ((pre ++ post).map Prod.fst).Nodup := h.nodup.sublist (hsub.map Prod.fst)
  have hallocated : ∀ z ∈ (pre ++ post).map Prod.fst, z < l.fresh :=
    fun z hz => h.allocated z ((hsub.map Prod.fst).subset hz)
  cases hcur with
  | first =>
    refine ⟨_, rfl, ?_, hnodup, hallocated, hlast⟩
    obtain ⟨_, next', hx', hrest⟩ := h.linked
    rw [hx] at hx'
    cases hx'
    apply hrest.congr
    intro z hz
    have hnot := (List.nodup_cons.mp h.nodup).1
    exact Function.update_of_ne (fun heq : z = x => hnot (heq ▸ hz)) _ _
  | @next pre q e₀ =>
    rw [List.append_assoc] at h
    obtain ⟨_, _, nq, hq, _⟩ := h.linked.drop
    have hne : q ≠ x := by
      intro heq
      have hcells := h.nodup
      rw [List.map_append, List.nodup_append] at hcells
      apply (List.nodup_cons.mp hcells.2.1).1
      simp [heq]
    have hq' : Function.update l.heap x none q = some ⟨nq, e₀.key, e₀.item⟩ :=
      (Function.update_of_ne hne _ _).trans hq
    refine ⟨_, setNext_eq hq' next, ?_, hnodup, hallocated, hlast⟩
    rw [List.append_assoc]
    apply h.linked.unlink h.nodup
    · intro z hzq hzx
      exact (Function.update_of_ne hzq _ _).trans (Function.update_of_ne hzx _ _)
    · intro next' hx'
      rw [hx] at hx'
      cases hx'
      exact Function.update_self _ _ _

/-- The loop of `Remove (void *item)` stops at the first element with the item. -/
theorem Cells.removeFrom [DecidableEq α] {item : α} (rest : List (Ptr × Entry α κ)) :
    ∀ {pre : List (Ptr × Entry α κ)} {cur : Link} {prec : Option Ptr} {n : Nat},
      l.Cells (pre ++ rest) → Behind pre cur prec → rest.length < n →
      (∃ c ∈ rest, c.2.item = item) → ∃ l', l.removeFrom item n cur prec = some l' ∧
        l'.Cells (pre ++ rest.eraseP fun c => c.2.item = item) := by
  induction rest with
  | nil =>
    intro pre cur prec n _ _ _ hitem
    obtain ⟨c, hc, _⟩ := hitem
    exact absurd hc List.not_mem_nil
  | cons c post ih =>
    intro pre cur prec n h hcur hn hitem
    obtain ⟨x, e⟩ := c
    obtain ⟨n, rfl⟩ := Nat.exists_eq_succ_of_ne_zero (Nat.ne_of_gt (Nat.zero_lt_of_lt hn))
    obtain ⟨p, htarget, rfl, next, hx, _⟩ := hcur.target h
    by_cases heq : e.item = item
    · obtain ⟨l', hrun, hcells⟩ := h.unlink hcur hx
      refine ⟨l', ?_, ?_⟩
      · simp only [LinkedList.removeFrom, htarget, hx, heq, if_true, Option.bind_eq_bind,
          Option.bind_some]
        rw [← hrun]
        split
        · rfl
        · rfl
      · rw [List.eraseP_cons_of_pos (by simpa using heq)]
        exact hcells
    · have hcells : l.Cells ((pre ++ [(x, e)]) ++ post) := by
        rw [List.append_assoc]
        exact h
      have hrest : ∃ c ∈ post, c.2.item = item := by
        obtain ⟨c, hc, hci⟩ := hitem
        rcases List.mem_cons.mp hc with rfl | hc
        · exact absurd hci heq
        · exact ⟨c, hc, hci⟩
      obtain ⟨l', hrun, hcells'⟩ := ih hcells .next (Nat.lt_of_succ_lt_succ hn) hrest
      refine ⟨l', ?_, ?_⟩
      · simp only [LinkedList.removeFrom, htarget, hx, heq, if_false, Option.bind_eq_bind,
          Option.bind_some]
        exact hrun
      · rw [List.append_assoc] at hcells'
        rw [List.eraseP_cons_of_neg (by simpa using heq)]
        exact hcells'

theorem Holds.removeItem [DecidableEq α] {entries : List (Entry α κ)} (h : l.Holds entries)
    {item : α} (hitem : ∃ e ∈ entries, e.item = item) :
    ∃ l', l.removeItem item = some l' ∧ l'.Holds (entries.eraseP fun e => e.item = item) := by
  obtain ⟨cells, hcells, rfl⟩ := h
  obtain ⟨e, he, heq⟩ := hitem
  obtain ⟨c, hc, rfl⟩ := List.mem_map.mp he
  have hall : l.Cells ([] ++ cells) := hcells
  obtain ⟨l', hrun, hcells'⟩ := Cells.removeFrom (n := l.fresh + 1) cells hall .first
    (Nat.lt_succ_of_le hcells.length_le) ⟨c, hc, heq⟩
  refine ⟨l', hrun, _, hcells', ?_⟩
  rw [List.eraseP_map]
  rfl

/-- `Prepend` puts the item in front, with key 0. -/
theorem Holds.prepend [OfNat κ 0] {entries : List (Entry α κ)} (h : l.Holds entries) (item : α) :
    ∃ l', l.prepend item = some l' ∧ l'.Holds (⟨0, item⟩ :: entries) := by
  obtain ⟨cells, hcells, rfl⟩ := h
  cases hfirst : l.first with
  | none =>
    have hnil := (Holds.first_eq_none ⟨cells, hcells, rfl⟩).mp hfirst
    obtain rfl := List.map_eq_nil_iff.mp hnil
    refine ⟨{ l with
      first := some l.fresh
      last := some l.fresh
      heap := Function.update l.heap l.fresh (some ⟨none, 0, item⟩)
      fresh := l.fresh + 1 }, ?_, [(l.fresh, ⟨0, item⟩)], ?_, rfl⟩
    · simp only [LinkedList.prepend, isEmpty, hfirst, Option.isNone_none, if_true]
    · constructor
      · exact ⟨rfl, none, Function.update_self _ _ _, rfl⟩
      · exact List.nodup_singleton _
      · intro x hx
        exact (List.mem_singleton.mp hx) ▸ Nat.lt_succ_self _
      · rfl
  | some first =>
    have hy : l.fresh ∉ cells.map Prod.fst := fun hmem => (hcells.allocated _ hmem).ne rfl
    have hcons : cells ≠ [] := by
      rintro rfl
      have hnone : l.first = none := hcells.linked
      rw [hfirst] at hnone
      cases hnone
    refine ⟨{ l with
      first := some l.fresh
      heap := Function.update (Function.update l.heap l.fresh (some ⟨none, 0, item⟩)) l.fresh
        (some ⟨some first, 0, item⟩)
      fresh := l.fresh + 1 }, ?_, (l.fresh, ⟨0, item⟩) :: cells, ?_, rfl⟩
    · simp only [LinkedList.prepend, isEmpty, hfirst, Option.isNone_some, Bool.false_eq_true,
        if_false, setNext, Function.update_self, Option.map_some, Option.bind_eq_bind,
        Option.bind_some, Option.pure_def]
    · constructor
      · refine ⟨rfl, some first, Function.update_self _ _ _, ?_⟩
        rw [← hfirst]
        apply hcells.linked.congr
        intro z hz
        have hne : z ≠ l.fresh := (hcells.allocated z hz).ne
        exact (Function.update_of_ne hne _ _).trans (Function.update_of_ne hne _ _)
      · exact List.nodup_cons.mpr ⟨hy, hcells.nodup⟩
      · intro z hz
        rcases List.mem_cons.mp hz with rfl | hz
        · exact Nat.lt_succ_self _
        · exact Nat.lt_succ_of_lt (hcells.allocated z hz)
      · show l.last = _
        obtain ⟨c, rest, rfl⟩ := List.exists_cons_of_ne_nil hcons
        rw [hcells.last]
        exact List.getLast?_cons_cons.symm

/-! ## The end pointers -/

/-- The list holds the sequence, with `first` and `last` at its ends. -/
structure Represents (l : LinkedList α κ) (entries : List (Entry α κ)) : Prop where
  holds : l.Holds entries
  firstNull : l.first = none ↔ entries = []
  lastNull : l.last = none ↔ entries = []
  final : ∀ x, l.last = some x → ∃ e : Entry α κ,
    l.heap x = some ⟨none, e.key, e.item⟩ ∧ entries.getLast? = some e

theorem Holds.represents {entries : List (Entry α κ)} (h : l.Holds entries) :
    l.Represents entries := by
  refine ⟨h, h.first_eq_none, ?_, ?_⟩
  · obtain ⟨cells, hcells, rfl⟩ := h
    rw [hcells.last]
    simp
  · obtain ⟨cells, hcells, rfl⟩ := h
    intro x hx
    rw [hcells.last] at hx
    rcases List.eq_nil_or_concat cells with rfl | ⟨pre, c, rfl⟩
    · cases hx
    · rw [List.concat_eq_append] at hx hcells ⊢
      obtain ⟨_, _, next, hc, hnext⟩ := hcells.linked.drop
      obtain rfl : next = none := hnext
      have hlast : c.1 = x := by simpa using hx
      exact ⟨c.2, hlast ▸ hc, by simp⟩

end LinkedList

/-! ## Histories -/

/-- An operation of `List`. -/
inductive ListCall (α κ : Type)
  | append (item : α)
  | prepend (item : α)
  | remove
  | removeItem (item : α)
  | sortedInsert (item : α) (sortKey : κ)
  | sortedRemove

/-- What an operation returns.  `SortedRemove` sets `*keyPtr` as well. -/
inductive ListReply (α κ : Type)
  | done
  | item (item : Option α)
  | keyed (entry : Option (α × κ))
  deriving DecidableEq, Repr

namespace ListCall

section

variable [DecidableEq α] [LinearOrder κ] [OfNat κ 0]

def run (l : LinkedList α κ) : ListCall α κ → Option (ListReply α κ × LinkedList α κ)
  | append item => (l.append item).map fun l => (.done, l)
  | prepend item => (l.prepend item).map fun l => (.done, l)
  | remove => l.remove.map fun r => (.item r.1, r.2)
  | removeItem item => (l.removeItem item).map fun l => (.done, l)
  | sortedInsert item sortKey => (l.sortedInsert item sortKey).map fun l => (.done, l)
  | sortedRemove => l.sortedRemove.map fun r => (.keyed r.1, r.2)

/-- The operation on a sequence of items with their keys. -/
def onSequence (entries : List (Entry α κ)) :
    ListCall α κ → ListReply α κ × List (Entry α κ)
  | append item => (.done, entries ++ [⟨0, item⟩])
  | prepend item => (.done, ⟨0, item⟩ :: entries)
  | remove => (.item (entries.head?.map Entry.item), entries.tail)
  | removeItem item => (.done, entries.eraseP fun e => e.item = item)
  | sortedInsert item sortKey => (.done, SortedQueue.insert Entry.key ⟨sortKey, item⟩ entries)
  | sortedRemove => (.keyed (entries.head?.map fun e => (e.item, e.key)), entries.tail)

/-- `Remove (void *item)` is for an item on the list. -/
def Allowed (entries : List (Entry α κ)) : ListCall α κ → Prop
  | removeItem item => ∃ e ∈ entries, e.item = item
  | _ => True

def runAll (l : LinkedList α κ) :
    List (ListCall α κ) → Option (List (ListReply α κ) × LinkedList α κ)
  | [] => some ([], l)
  | call :: rest => do
    let (reply, l) ← call.run l
    let (replies, l) ← runAll l rest
    return (reply :: replies, l)

def allOnSequence (entries : List (Entry α κ)) :
    List (ListCall α κ) → List (ListReply α κ) × List (Entry α κ)
  | [] => ([], entries)
  | call :: rest =>
    let after := allOnSequence (call.onSequence entries).2 rest
    ((call.onSequence entries).1 :: after.1, after.2)

def AllAllowed (entries : List (Entry α κ)) : List (ListCall α κ) → Prop
  | [] => True
  | call :: rest => call.Allowed entries ∧ AllAllowed (call.onSequence entries).2 rest

end

/-- The list is used as a sorted one. -/
def Sorted : ListCall α κ → Prop
  | sortedInsert _ _ => True
  | sortedRemove => True
  | _ => False

/-- What was put in by `SortedInsert`. -/
def putIn : List (ListCall α κ) → List (Entry α κ)
  | [] => []
  | sortedInsert item sortKey :: rest => ⟨sortKey, item⟩ :: putIn rest
  | _ :: rest => putIn rest

/-- What came out by `SortedRemove`. -/
def takenOut : List (ListReply α κ) → List (Entry α κ)
  | [] => []
  | .keyed (some (item, key)) :: rest => ⟨key, item⟩ :: takenOut rest
  | _ :: rest => takenOut rest

section

variable [DecidableEq α] [LinearOrder κ] [OfNat κ 0] {l : LinkedList α κ}
  {entries : List (Entry α κ)}

/-- One operation on the elements is one on the sequence. -/
theorem run_onSequence (h : l.Holds entries) {call : ListCall α κ} (hcall : call.Allowed entries) :
    ∃ l', call.run l = some ((call.onSequence entries).1, l') ∧
      l'.Holds (call.onSequence entries).2 := by
  cases call with
  | append item =>
    obtain ⟨l', hrun, hl'⟩ := h.append item
    exact ⟨l', by rw [run, hrun]; rfl, hl'⟩
  | prepend item =>
    obtain ⟨l', hrun, hl'⟩ := h.prepend item
    exact ⟨l', by rw [run, hrun]; rfl, hl'⟩
  | remove =>
    cases entries with
    | nil => exact ⟨l, by rw [run, h.remove_nil]; rfl, h⟩
    | cons e rest =>
      obtain ⟨l', hrun, hl'⟩ := h.remove_cons
      exact ⟨l', by rw [run, hrun]; rfl, hl'⟩
  | removeItem item =>
    obtain ⟨l', hrun, hl'⟩ := h.removeItem hcall
    exact ⟨l', by rw [run, hrun]; rfl, hl'⟩
  | sortedInsert item sortKey =>
    obtain ⟨l', hrun, hl'⟩ := h.sortedInsert item sortKey
    exact ⟨l', by rw [run, hrun]; rfl, hl'⟩
  | sortedRemove =>
    cases entries with
    | nil => exact ⟨l, by rw [run, h.sortedRemove_nil]; rfl, h⟩
    | cons e rest =>
      obtain ⟨l', hrun, hl'⟩ := h.sortedRemove_cons
      exact ⟨l', by rw [run, hrun]; rfl, hl'⟩

theorem runAll_onSequence {calls : List (ListCall α κ)} :
    ∀ {l : LinkedList α κ} {entries : List (Entry α κ)}, l.Holds entries →
      AllAllowed entries calls → ∃ l', runAll l calls = some ((allOnSequence entries calls).1, l') ∧
        l'.Holds (allOnSequence entries calls).2 := by
  induction calls with
  | nil =>
    intro l entries h _
    exact ⟨l, rfl, h⟩
  | cons call rest ih =>
    intro l entries h hcalls
    obtain ⟨l₁, hrun, h₁⟩ := run_onSequence h hcalls.1
    obtain ⟨l', hrest, h'⟩ := ih h₁ hcalls.2
    refine ⟨l', ?_, h'⟩
    simp only [runAll, hrun, hrest, Option.bind_eq_bind, Option.bind_some, Option.pure_def,
      allOnSequence]

/-- A history of `SortedInsert` and `SortedRemove`. -/
theorem served_onSequence {calls : List (ListCall α κ)} (hcalls : ∀ call ∈ calls, call.Sorted) :
    ∀ {entries putIn' takenOut' : List (Entry α κ)},
      SortedQueue.Served Entry.key putIn' takenOut' entries →
      SortedQueue.Served Entry.key (putIn' ++ putIn calls)
        (takenOut' ++ takenOut (allOnSequence entries calls).1)
        (allOnSequence entries calls).2 := by
  induction calls with
  | nil =>
    intro entries putIn' takenOut' h
    rw [putIn, List.append_nil, show (allOnSequence entries ([] : List (ListCall α κ))).1 = []
      from rfl, takenOut, List.append_nil]
    exact h
  | cons call rest ih =>
    intro entries putIn' takenOut' h
    have hrest : ∀ call ∈ rest, call.Sorted :=
      fun call hcall => hcalls call (List.mem_cons_of_mem _ hcall)
    have hcall := hcalls call List.mem_cons_self
    cases call with
    | append item => exact hcall.elim
    | prepend item => exact hcall.elim
    | remove => exact hcall.elim
    | removeItem item => exact hcall.elim
    | sortedInsert item sortKey =>
      have hserved := ih hrest (h.insert ⟨sortKey, item⟩)
      rw [List.append_assoc] at hserved
      exact hserved
    | sortedRemove =>
      cases entries with
      | nil => exact ih hrest h
      | cons e entries =>
        have hserved := ih hrest h.remove
        rw [List.append_assoc] at hserved
        exact hserved

/-- **A list is a sequence.**  Every history of operations from an empty list gives the
replies of the sequence and leaves its items on the list, from `first` to `last`.  With
the sorted operations alone, the items are in the order of their keys, what comes out has
the least key, and it all comes out once, first in first out for each key. -/
theorem linkedList_is_sequence {calls : List (ListCall α κ)} (hcalls : AllAllowed [] calls) :
    ∃ l, runAll .empty calls = some ((allOnSequence [] calls).1, l) ∧
      l.Represents (allOnSequence [] calls).2 ∧
      ((∀ call ∈ calls, call.Sorted) →
        SortedQueue.Served Entry.key (putIn calls) (takenOut (allOnSequence [] calls).1)
          (allOnSequence [] calls).2 ∧
        ∀ item key l', l.sortedRemove = some (some (item, key), l') →
          ⟨key, item⟩ ∈ (allOnSequence [] calls).2 ∧
          ∀ e ∈ (allOnSequence [] calls).2, key ≤ e.key) := by
  obtain ⟨l, hrun, hl⟩ := runAll_onSequence (LinkedList.holds_empty (α := α) (κ := κ)) hcalls
  refine ⟨l, hrun, hl.represents, ?_⟩
  intro hsorted
  have hserved := served_onSequence hsorted (SortedQueue.Served.nil (f := Entry.key))
  refine ⟨hserved, ?_⟩
  intro item key l' hremove
  cases hentries : (allOnSequence [] calls).2 with
  | nil =>
    rw [hentries] at hl
    rw [hl.sortedRemove_nil] at hremove
    cases hremove
  | cons e rest =>
    rw [hentries] at hl hserved
    obtain ⟨l₁, hfirst, _⟩ := hl.sortedRemove_cons
    rw [hfirst] at hremove
    cases hremove
    exact ⟨List.mem_cons_self, hserved.least⟩

end

/-- The last of the list is removed, and then something is inserted behind its end. -/
theorem linkedList_is_sequence_mixed :
    ∃ l : LinkedList Nat Int,
      runAll .empty [.append 7, .prepend 8, .removeItem 7, .sortedInsert 9 (-1), .append 5,
        .sortedRemove] = some ([.done, .done, .done, .done, .done, .keyed (some (9, -1))], l) ∧
      l.Represents [⟨0, 8⟩, ⟨0, 5⟩] := by
  have hcalls : AllAllowed ([] : List (Entry Nat Int))
      [.append 7, .prepend 8, .removeItem 7, .sortedInsert 9 (-1), .append 5, .sortedRemove] :=
    ⟨trivial, trivial, ⟨⟨0, 7⟩, by simp [onSequence], rfl⟩, trivial, trivial, trivial, trivial⟩
  obtain ⟨l, hrun, hl, _⟩ := linkedList_is_sequence hcalls
  exact ⟨l, hrun, hl⟩

end ListCall

end Threads
end Nachos
