import Mathlib.Data.List.Nodup
import Mathlib.Logic.Function.Basic
import Nachos.Lib.SortedQueue

/-!
# Sorted lists

Class `List` with its elements in memory.  `SortedInsert` walks along `next`, and
only the last element may be behind `last`.  An operation that goes through a
null pointer has no result.
-/

namespace Nachos
namespace Threads

open Lib

/-- The address of a `ListElement`. -/
abbrev Ptr := Nat

/-- The keys are of any ordered type.  Where they are the time, it is the default. -/
structure ListElement (α : Type) (κ : Type := Nat) where
  next : Option Ptr
  key : κ
  item : α

/-- A `List`, with the list elements allocated so far.  `fresh` is the address of
the next one. -/
structure LinkedList (α : Type) (κ : Type := Nat) where
  first : Option Ptr
  last : Option Ptr
  heap : Ptr → Option (ListElement α κ)
  fresh : Ptr

variable {α κ : Type}

namespace LinkedList

/-- `List::List`. -/
def empty : LinkedList α κ := ⟨none, none, fun _ => none, 0⟩

/-- `p->next = next` -/
def setNext (l : LinkedList α κ) (p : Ptr) (next : Option Ptr) : Option (LinkedList α κ) :=
  (l.heap p).map fun e => { l with heap := Function.update l.heap p (some { e with next }) }

/-- The loop of `SortedInsert` from `ptr` on.  The walk is never longer than the
number of elements ever allocated. -/
def insertBehind [LinearOrder κ] (l : LinkedList α κ) (element : Ptr) (sortKey : κ) :
    Nat → Ptr → Option (LinkedList α κ)
  | 0, _ => none
  | n + 1, ptr => do
    let e ← l.heap ptr
    match e.next with
    | none =>
      -- the item goes at the end of the list
      let last ← l.last
      let l ← l.setNext last (some element)
      return { l with last := some element }
    | some next =>
      let e' ← l.heap next
      if sortKey < e'.key then
        let l ← l.setNext element (some next)
        l.setNext ptr (some element)
      else l.insertBehind element sortKey n next

/-- `List::SortedInsert`. -/
def sortedInsert [LinearOrder κ] (l : LinkedList α κ) (item : α) (sortKey : κ) :
    Option (LinkedList α κ) :=
  let element := l.fresh
  let l := { l with
    heap := Function.update l.heap element (some ⟨none, sortKey, item⟩)
    fresh := l.fresh + 1 }
  match l.first with
  | none => some { l with first := some element, last := some element }
  | some first => do
    let e ← l.heap first
    if sortKey < e.key then
      let l ← l.setNext element (some first)
      return { l with first := some element }
    else l.insertBehind element sortKey l.fresh first

/-- `List::SortedRemove`: the item and its key, if there is one. -/
def sortedRemove (l : LinkedList α κ) : Option (Option (α × κ) × LinkedList α κ) :=
  match l.first with
  | none => some (none, l)
  | some element => do
    let e ← l.heap element
    let l := if l.first = l.last then { l with first := none, last := none }
      else { l with first := e.next }
    return (some (e.item, e.key), { l with heap := Function.update l.heap element none })

/-- `List::IsEmpty`. -/
def isEmpty (l : LinkedList α κ) : Bool := l.first.isNone

/-- `List::Append`. -/
def append [OfNat κ 0] (l : LinkedList α κ) (item : α) : Option (LinkedList α κ) :=
  let element := l.fresh
  let l := { l with
    heap := Function.update l.heap element (some ⟨none, 0, item⟩)
    fresh := l.fresh + 1 }
  if l.isEmpty then some { l with first := some element, last := some element }
  else do
    let last ← l.last
    let l ← l.setNext last (some element)
    return { l with last := some element }

/-- `List::Prepend`. -/
def prepend [OfNat κ 0] (l : LinkedList α κ) (item : α) : Option (LinkedList α κ) :=
  let element := l.fresh
  let l := { l with
    heap := Function.update l.heap element (some ⟨none, 0, item⟩)
    fresh := l.fresh + 1 }
  if l.isEmpty then some { l with first := some element, last := some element }
  else do
    let l ← l.setNext element l.first
    return { l with first := some element }

/-- `List::Remove`: the item, if there is one. -/
def remove (l : LinkedList α κ) : Option (Option α × LinkedList α κ) :=
  l.sortedRemove.map fun r => (r.1.map Prod.fst, r.2)

/-- Where a `ListElement **` points to. -/
inductive Link
  | first
  | next (p : Ptr)

/-- `*cur` -/
def target (l : LinkedList α κ) : Link → Option (Option Ptr)
  | .first => some l.first
  | .next p => (l.heap p).map (·.next)

/-- `*cur = p` -/
def setTarget (l : LinkedList α κ) (cur : Link) (p : Option Ptr) : Option (LinkedList α κ) :=
  match cur with
  | .first => some { l with first := p }
  | .next q => l.setNext q p

/-- The loop of `Remove (void *item)`. -/
def removeFrom [DecidableEq α] (l : LinkedList α κ) (item : α) :
    Nat → Link → Option Ptr → Option (LinkedList α κ)
  | 0, _, _ => none
  | n + 1, cur, prec => do
    match ← l.target cur with
    | none => none -- the item is not on the list, and an `ASSERT` fails
    | some x =>
      let e ← l.heap x
      if e.item = item then
        let l := if some x = l.last then { l with last := prec } else l
        let l := { l with heap := Function.update l.heap x none }
        l.setTarget cur e.next
      else l.removeFrom item n (.next x) (some x)

/-- `List::Remove (void *item)`. -/
def removeItem [DecidableEq α] (l : LinkedList α κ) (item : α) : Option (LinkedList α κ) :=
  l.removeFrom item (l.fresh + 1) .first none

end LinkedList

/-! ## The list that is held in memory -/

/-- An item with its key. -/
structure Entry (α : Type) (κ : Type := Nat) where
  key : κ
  item : α

namespace LinkedList

/-- The chain of elements from `p` on. -/
def Linked (heap : Ptr → Option (ListElement α κ)) : Option Ptr → List (Ptr × Entry α κ) → Prop
  | p, [] => p = none
  | p, (x, e) :: rest => p = some x ∧ ∃ next, heap x = some ⟨next, e.key, e.item⟩ ∧
      Linked heap next rest

/-- The elements of a list, with their addresses. -/
structure Cells (l : LinkedList α κ) (cells : List (Ptr × Entry α κ)) : Prop where
  linked : Linked l.heap l.first cells
  nodup : (cells.map Prod.fst).Nodup
  allocated : ∀ x ∈ cells.map Prod.fst, x < l.fresh
  last : l.last = (cells.map Prod.fst).getLast?

/-- The items on a list, in order. -/
def Holds (l : LinkedList α κ) (entries : List (Entry α κ)) : Prop :=
  ∃ cells, l.Cells cells ∧ cells.map Prod.snd = entries

theorem holds_empty : (empty : LinkedList α κ).Holds [] :=
  ⟨[], ⟨rfl, List.nodup_nil, nofun, rfl⟩, rfl⟩

variable {heap heap' : Ptr → Option (ListElement α κ)} {p : Option Ptr}
  {cells rest : List (Ptr × Entry α κ)}

theorem Linked.congr (h : Linked heap p cells)
    (hheap : ∀ x ∈ cells.map Prod.fst, heap' x = heap x) : Linked heap' p cells := by
  induction cells generalizing p with
  | nil => exact h
  | cons c rest ih =>
    obtain ⟨hp, next, hc, hrest⟩ := h
    refine ⟨hp, next, ?_, ih hrest fun x hx => hheap x (List.mem_cons_of_mem _ hx)⟩
    rw [hheap c.1 List.mem_cons_self]
    exact hc

theorem Linked.unique {cells' : List (Ptr × Entry α κ)} (h : Linked heap p cells)
    (h' : Linked heap p cells') : cells = cells' := by
  induction cells generalizing p cells' with
  | nil =>
    cases cells' with
    | nil => rfl
    | cons c' rest' =>
      have hnone : p = none := h
      obtain ⟨hp, _⟩ := h'
      rw [hnone] at hp
      cases hp
  | cons c rest ih =>
    obtain ⟨x, e⟩ := c
    obtain ⟨hp, next, hc, hrest⟩ := h
    cases cells' with
    | nil =>
      have hnone : p = none := h'
      rw [hnone] at hp
      cases hp
    | cons c' rest' =>
      obtain ⟨x', e'⟩ := c'
      obtain ⟨hp', next', hc', hrest'⟩ := h'
      rw [hp] at hp'
      cases hp'
      rw [hc] at hc'
      obtain ⟨key, item⟩ := e
      obtain ⟨key', item'⟩ := e'
      cases hc'
      rw [ih hrest hrest']

theorem Holds.first_eq_none {l : LinkedList α κ} {entries : List (Entry α κ)}
    (h : l.Holds entries) :
    l.first = none ↔ entries = [] := by
  obtain ⟨cells, hcells, rfl⟩ := h
  cases cells with
  | nil => exact ⟨fun _ => rfl, fun _ => hcells.linked⟩
  | cons c rest =>
    obtain ⟨hfirst, _⟩ := hcells.linked
    rw [hfirst]
    exact ⟨nofun, nofun⟩

/-- A list holds one sequence of items. -/
theorem Holds.unique {l : LinkedList α κ} {entries entries' : List (Entry α κ)}
    (h : l.Holds entries) (h' : l.Holds entries') : entries = entries' := by
  obtain ⟨cells, hcells, rfl⟩ := h
  obtain ⟨cells', hcells', rfl⟩ := h'
  rw [hcells.linked.unique hcells'.linked]

/-- An element is linked in behind `x`. -/
theorem Linked.insert {x y : Ptr} {e₀ e : Entry α κ} {pre post : List (Ptr × Entry α κ)}
    (h : Linked heap p (pre ++ (x, e₀) :: post))
    (hnodup : ((pre ++ (x, e₀) :: post).map Prod.fst).Nodup)
    (hheap : ∀ z ∈ (pre ++ (x, e₀) :: post).map Prod.fst, z ≠ x → heap' z = heap z)
    (hx : ∀ next, heap x = some ⟨next, e₀.key, e₀.item⟩ →
      heap' x = some ⟨some y, e₀.key, e₀.item⟩ ∧ heap' y = some ⟨next, e.key, e.item⟩) :
    Linked heap' p (pre ++ (x, e₀) :: (y, e) :: post) := by
  induction pre generalizing p with
  | nil =>
    obtain ⟨hp, next, hc, hrest⟩ := h
    obtain ⟨hx', hy'⟩ := hx next hc
    refine ⟨hp, some y, hx', rfl, next, hy', hrest.congr fun z hz => ?_⟩
    refine hheap z (List.mem_cons_of_mem _ hz) fun heq => ?_
    exact (List.nodup_cons.mp hnodup).1 (heq ▸ hz)
  | cons c pre ih =>
    obtain ⟨hp, next, hc, hrest⟩ := h
    obtain ⟨hnot, hnodup⟩ := List.nodup_cons.mp hnodup
    refine ⟨hp, next, ?_, ih hrest hnodup fun z hz => hheap z (List.mem_cons_of_mem _ hz)⟩
    rw [hheap c.1 List.mem_cons_self fun heq => hnot ?_]
    · exact hc
    · rw [heq]
      exact List.mem_map.mpr ⟨(x, e₀), List.mem_append_right _ List.mem_cons_self, rfl⟩

theorem setNext_eq {l : LinkedList α κ} {p : Ptr} {e : ListElement α κ} (h : l.heap p = some e)
    (next : Option Ptr) :
    l.setNext p next = some { l with heap := Function.update l.heap p (some { e with next }) } := by
  unfold setNext
  rw [h]
  rfl

/-- Where the new element of address `y` goes. -/
theorem Cells.insert {l l' : LinkedList α κ} {x y : Ptr} {e₀ e : Entry α κ}
    {pre post : List (Ptr × Entry α κ)} (h : l.Cells (pre ++ (x, e₀) :: post))
    (hy : y ∉ (pre ++ (x, e₀) :: post).map Prod.fst) (hfresh : y < l'.fresh)
    (hmono : l.fresh ≤ l'.fresh) (hfirst : l'.first = l.first)
    (hlast : l'.last = if post = [] then some y else l.last)
    (hheap : ∀ z ∈ (pre ++ (x, e₀) :: post).map Prod.fst, z ≠ x → l'.heap z = l.heap z)
    (hx : ∀ next, l.heap x = some ⟨next, e₀.key, e₀.item⟩ →
      l'.heap x = some ⟨some y, e₀.key, e₀.item⟩ ∧ l'.heap y = some ⟨next, e.key, e.item⟩) :
    l'.Cells (pre ++ (x, e₀) :: (y, e) :: post) := by
  have hperm : ((pre ++ (x, e₀) :: (y, e) :: post).map Prod.fst).Perm
      (y :: (pre ++ (x, e₀) :: post).map Prod.fst) := by
    have hmove : (pre ++ (x, e₀) :: (y, e) :: post).Perm
        ((y, e) :: (pre ++ (x, e₀) :: post)) :=
      ((List.Perm.swap (y, e) (x, e₀) post).append_left pre).trans List.perm_middle
    exact hmove.map Prod.fst
  refine ⟨hfirst ▸ h.linked.insert h.nodup hheap hx, ?_, fun z hz => ?_, ?_⟩
  · exact hperm.nodup_iff.mpr (List.nodup_cons.mpr ⟨hy, h.nodup⟩)
  · rcases List.mem_cons.mp (hperm.mem_iff.mp hz) with rfl | hz
    · exact hfresh
    · exact (h.allocated z hz).trans_le hmono
  · rw [hlast, h.last]
    cases post with
    | nil => simp
    | cons c post => simp

theorem Linked.drop {pre post : List (Ptr × Entry α κ)} (h : Linked heap p (pre ++ post)) :
    ∃ p', Linked heap p' post := by
  induction pre generalizing p with
  | nil => exact ⟨p, h⟩
  | cons c pre ih =>
    obtain ⟨_, next, _, hrest⟩ := h
    exact ih hrest

/-- The walk of `SortedInsert` ends, and links in the new element where its key
belongs. -/
theorem Cells.insertBehind [LinearOrder κ] {l : LinkedList α κ} {y : Ptr} {e : Entry α κ}
    (hfresh : y < l.fresh) (hnew : l.heap y = some ⟨none, e.key, e.item⟩)
    (post : List (Ptr × Entry α κ)) :
    ∀ {x : Ptr} {e₀ : Entry α κ} {p : List (Ptr × Entry α κ)} {n : Nat},
      l.Cells (p ++ (x, e₀) :: post) → y ∉ (p ++ (x, e₀) :: post).map Prod.fst →
      post.length < n → ∃ l', l.insertBehind y e.key n x = some l' ∧
        l'.Cells (p ++ (x, e₀) :: SortedQueue.insert (fun c => c.2.key) (y, e) post) := by
  induction post with
  | nil =>
    intro x e₀ p n h hy hn
    obtain ⟨n, rfl⟩ := Nat.exists_eq_succ_of_ne_zero (Nat.ne_of_gt hn)
    obtain ⟨_, _, next, hx, hnext⟩ := h.linked.drop
    have hnext : next = none := hnext
    subst hnext
    have hlast : l.last = some x := by
      rw [h.last]
      simp
    refine ⟨{ l with
      heap := Function.update l.heap x (some ⟨some y, e₀.key, e₀.item⟩)
      last := some y }, ?_, ?_⟩
    · simp only [LinkedList.insertBehind, hx, hlast, setNext_eq hx, Option.bind_eq_bind,
        Option.bind_some, Option.pure_def]
    · have hne : y ≠ x := fun heq => hy (by simp [heq])
      refine h.insert hy hfresh le_rfl rfl (if_pos rfl).symm (fun z hz hzx => ?_)
        fun next hnext => ?_
      · exact Function.update_of_ne hzx _ _
      · rw [hx] at hnext
        cases hnext
        exact ⟨Function.update_self _ _ _, (Function.update_of_ne hne _ _).trans hnew⟩
  | cons c post ih =>
    intro x e₀ p n h hy hn
    obtain ⟨x', e'⟩ := c
    obtain ⟨n, rfl⟩ := Nat.exists_eq_succ_of_ne_zero (Nat.ne_of_gt (Nat.zero_lt_of_lt hn))
    obtain ⟨_, _, next, hx, hnext, next', hx', _⟩ := h.linked.drop
    subst hnext
    by_cases hlt : e.key < e'.key
    · have hne : y ≠ x := fun heq => hy (by simp [heq])
      have hxy : (Function.update l.heap y (some ⟨some x', e.key, e.item⟩)) x =
          some ⟨some x', e₀.key, e₀.item⟩ := (Function.update_of_ne hne.symm _ _).trans hx
      refine ⟨{ l with
        heap := Function.update (Function.update l.heap y (some ⟨some x', e.key, e.item⟩)) x
          (some ⟨some y, e₀.key, e₀.item⟩) }, ?_, ?_⟩
      · simp only [LinkedList.insertBehind, hx, hx', if_pos hlt, setNext_eq hnew,
          Option.bind_eq_bind, Option.bind_some]
        exact setNext_eq (l := { l with
          heap := Function.update l.heap y (some ⟨some x', e.key, e.item⟩) }) hxy (some y)
      · rw [SortedQueue.insert_front (f := fun c : Ptr × Entry α κ => c.2.key) hlt]
        refine h.insert hy hfresh le_rfl rfl (if_neg (List.cons_ne_nil _ _)).symm
          (fun z hz hzx => ?_) fun next hnext => ?_
        · exact (Function.update_of_ne hzx _ _).trans
            (Function.update_of_ne (fun heq : z = y => hy (heq ▸ hz)) _ _)
        · rw [hx] at hnext
          cases hnext
          exact ⟨Function.update_self _ _ _,
            (Function.update_of_ne hne _ _).trans (Function.update_self _ _ _)⟩
    · have happend : p ++ (x, e₀) :: (x', e') :: post =
          (p ++ [(x, e₀)]) ++ (x', e') :: post := by simp
      rw [happend] at h hy
      obtain ⟨l', hl', hcells⟩ := ih h hy (Nat.lt_of_succ_lt_succ hn)
      refine ⟨l', ?_, ?_⟩
      · simp only [LinkedList.insertBehind, hx, hx', if_neg hlt, Option.bind_eq_bind,
          Option.bind_some]
        exact hl'
      · rw [SortedQueue.insert_behind (f := fun c : Ptr × Entry α κ => c.2.key) hlt]
        rwa [List.append_assoc] at hcells

theorem Cells.length_le {l : LinkedList α κ} (h : l.Cells cells) : cells.length ≤ l.fresh := by
  have hrange : cells.map Prod.fst ⊆ List.range l.fresh :=
    fun x hx => List.mem_range.mpr (h.allocated x hx)
  have hlength := (List.subperm_of_subset h.nodup hrange).length_le
  rwa [List.length_map, List.length_range] at hlength

/-- The new element, before it is linked in. -/
theorem Cells.allocate {l : LinkedList α κ} (h : l.Cells cells) (e : ListElement α κ) :
    Cells { l with heap := Function.update l.heap l.fresh (some e), fresh := l.fresh + 1 } cells :=
  { linked := h.linked.congr fun x hx =>
      Function.update_of_ne (h.allocated x hx).ne _ _
    nodup := h.nodup
    allocated := fun x hx => Nat.lt_succ_of_lt (h.allocated x hx)
    last := h.last }

theorem Cells.sortedInsert [LinearOrder κ] {l : LinkedList α κ} (h : l.Cells cells) (item : α)
    (sortKey : κ) :
    ∃ l', l.sortedInsert item sortKey = some l' ∧
      l'.Cells (SortedQueue.insert (fun c => c.2.key) (l.fresh, ⟨sortKey, item⟩) cells) := by
  have hnew := h.allocate ⟨none, sortKey, item⟩
  have hy : l.fresh ∉ cells.map Prod.fst := fun hmem => (h.allocated _ hmem).ne rfl
  cases cells with
  | nil =>
    have hfirst : l.first = none := h.linked
    refine ⟨{ l with
      first := some l.fresh
      last := some l.fresh
      heap := Function.update l.heap l.fresh (some ⟨none, sortKey, item⟩)
      fresh := l.fresh + 1 }, ?_, ?_⟩
    · simp only [LinkedList.sortedInsert, hfirst]
    · exact ⟨⟨rfl, none, Function.update_self _ _ _, rfl⟩, List.nodup_singleton _,
        fun x hx => (List.mem_singleton.mp hx) ▸ Nat.lt_succ_self _, rfl⟩
  | cons c rest =>
    obtain ⟨x, e₀⟩ := c
    obtain ⟨hfirst, next, hx, hrest⟩ := h.linked
    have hne : x ≠ l.fresh := (h.allocated x List.mem_cons_self).ne
    have hx' := (Function.update_of_ne hne (some ⟨none, sortKey, item⟩) l.heap).trans hx
    by_cases hlt : sortKey < e₀.key
    · refine ⟨{ l with
        first := some l.fresh
        heap := Function.update (Function.update l.heap l.fresh (some ⟨none, sortKey, item⟩))
          l.fresh (some ⟨some x, sortKey, item⟩)
        fresh := l.fresh + 1 }, ?_, ?_⟩
      · simp only [LinkedList.sortedInsert, hfirst, hx', if_pos hlt, Option.bind_eq_bind,
          Option.bind_some, setNext, Function.update_self, Option.map_some, Option.pure_def]
      · rw [SortedQueue.insert_front (f := fun c : Ptr × Entry α κ => c.2.key) hlt]
        refine ⟨⟨rfl, some x, Function.update_self _ _ _, ?_⟩, List.nodup_cons.mpr ⟨hy, h.nodup⟩,
          fun z hz => ?_, ?_⟩
        · rw [← hfirst]
          refine h.linked.congr fun z hz => ?_
          have hzy : z ≠ l.fresh := (h.allocated z hz).ne
          exact (Function.update_of_ne hzy _ _).trans (Function.update_of_ne hzy _ _)
        · rcases List.mem_cons.mp hz with rfl | hz
          · exact Nat.lt_succ_self _
          · exact Nat.lt_succ_of_lt (h.allocated z hz)
        · rw [show l.last = _ from h.last]
          simp
    · obtain ⟨l', hl', hcells⟩ := Cells.insertBehind (p := []) (e := ⟨sortKey, item⟩)
        (n := l.fresh + 1) (Nat.lt_succ_self l.fresh) (Function.update_self _ _ _) rest hnew hy
        (h.length_le.trans (Nat.le_succ _))
      refine ⟨l', ?_, ?_⟩
      · simp only [LinkedList.sortedInsert, hfirst, hx', if_neg hlt, Option.bind_eq_bind,
          Option.bind_some]
        rw [hfirst] at hl'
        exact hl'
      · rw [SortedQueue.insert_behind (f := fun c : Ptr × Entry α κ => c.2.key) hlt]
        exact hcells

theorem map_insert [LinearOrder κ] (x : Ptr) (e : Entry α κ) (cells : List (Ptr × Entry α κ)) :
    (SortedQueue.insert (fun c => c.2.key) (x, e) cells).map Prod.snd =
      SortedQueue.insert Entry.key e (cells.map Prod.snd) :=
  List.map_orderedInsert _ _ Prod.snd cells (x, e) (fun _ _ => Iff.rfl) fun _ _ => Iff.rfl

/-- `SortedInsert` puts the item behind those whose key is not larger. -/
theorem Holds.sortedInsert [LinearOrder κ] {l : LinkedList α κ} {entries : List (Entry α κ)}
    (h : l.Holds entries) (item : α) (sortKey : κ) :
    ∃ l', l.sortedInsert item sortKey = some l' ∧
      l'.Holds (SortedQueue.insert Entry.key ⟨sortKey, item⟩ entries) := by
  obtain ⟨cells, hcells, rfl⟩ := h
  obtain ⟨l', hl', hinsert⟩ := hcells.sortedInsert item sortKey
  exact ⟨l', hl', _, hinsert, map_insert _ _ _⟩

theorem Holds.sortedRemove_nil {l : LinkedList α κ} (h : l.Holds []) :
    l.sortedRemove = some (none, l) := by
  obtain ⟨cells, hcells, hnil⟩ := h
  obtain rfl := List.map_eq_nil_iff.mp hnil
  have hfirst : l.first = none := hcells.linked
  simp only [LinkedList.sortedRemove, hfirst]

/-- `SortedRemove` takes the first item. -/
theorem Holds.sortedRemove_cons {l : LinkedList α κ} {e : Entry α κ} {entries : List (Entry α κ)}
    (h : l.Holds (e :: entries)) :
    ∃ l', l.sortedRemove = some (some (e.item, e.key), l') ∧ l'.Holds entries := by
  obtain ⟨cells, hcells, hmap⟩ := h
  obtain ⟨⟨x, _⟩, rest, rfl, rfl, rfl⟩ := List.map_eq_cons_iff.mp hmap
  obtain ⟨hfirst, next, hx, hrest⟩ := hcells.linked
  obtain ⟨hnot, hnodup⟩ := List.nodup_cons.mp hcells.nodup
  have hheap : ∀ y ∈ rest.map Prod.fst, Function.update l.heap x none y = l.heap y :=
    fun y hy => Function.update_of_ne (fun heq : y = x => hnot (heq ▸ hy)) _ _
  cases rest with
  | nil =>
    have hlast : l.last = some x := hcells.last
    refine ⟨{ l with first := none, last := none, heap := Function.update l.heap x none }, ?_,
      [], ⟨rfl, List.nodup_nil, nofun, rfl⟩, rfl⟩
    simp only [LinkedList.sortedRemove, hfirst, hx, hlast, if_true, Option.bind_eq_bind,
      Option.bind_some, Option.pure_def]
  | cons c rest =>
    have hlast : l.last = ((c :: rest).map Prod.fst).getLast? := by
      rw [hcells.last]
      simp
    have hne : ¬ some x = l.last := by
      intro heq
      rw [hlast] at heq
      exact hnot (List.mem_of_getLast? heq.symm)
    refine ⟨{ l with first := next, heap := Function.update l.heap x none }, ?_,
      c :: rest, ⟨hrest.congr hheap, hnodup, fun y hy => ?_, hlast⟩, rfl⟩
    · simp only [LinkedList.sortedRemove, hfirst, hx, if_neg hne, Option.bind_eq_bind,
        Option.bind_some, Option.pure_def]
    · exact hcells.allocated y (List.mem_cons_of_mem _ hy)

theorem Holds.isEmpty_iff {l : LinkedList α κ} {entries : List (Entry α κ)} (h : l.Holds entries) :
    l.isEmpty = true ↔ entries = [] := by
  rw [← h.first_eq_none]
  exact Option.isNone_iff_eq_none

/-- `Append` puts the item behind all others, with key 0. -/
theorem Holds.append [OfNat κ 0] {l : LinkedList α κ} {entries : List (Entry α κ)}
    (h : l.Holds entries) (item : α) :
    ∃ l', l.append item = some l' ∧ l'.Holds (entries ++ [⟨0, item⟩]) := by
  obtain ⟨cells, hcells, rfl⟩ := h
  have hnew := hcells.allocate ⟨none, 0, item⟩
  have hy : l.fresh ∉ cells.map Prod.fst := fun hmem => (hcells.allocated _ hmem).ne rfl
  rcases List.eq_nil_or_concat cells with rfl | ⟨pre, c, rfl⟩
  · have hfirst : l.first = none := hcells.linked
    refine ⟨{ l with
      first := some l.fresh
      last := some l.fresh
      heap := Function.update l.heap l.fresh (some ⟨none, 0, item⟩)
      fresh := l.fresh + 1 }, ?_, [(l.fresh, ⟨0, item⟩)], ?_, rfl⟩
    · simp only [LinkedList.append, isEmpty, hfirst, Option.isNone_none, if_true]
    · exact ⟨⟨rfl, none, Function.update_self _ _ _, rfl⟩, List.nodup_singleton _,
        fun x hx => (List.mem_singleton.mp hx) ▸ Nat.lt_succ_self _, rfl⟩
  · obtain ⟨x, e⟩ := c
    rw [List.concat_eq_append] at hcells hnew hy ⊢
    obtain ⟨_, _, next, hx, hnext⟩ := hnew.linked.drop
    obtain rfl : next = none := hnext
    have hlast : l.last = some x := by
      rw [hcells.last]
      simp
    have hfirst : l.first.isNone = false := by
      rw [Bool.eq_false_iff, ne_eq, Option.isNone_iff_eq_none]
      intro hnone
      have hnil := (Holds.first_eq_none ⟨_, hcells, rfl⟩).mp hnone
      simp at hnil
    refine ⟨{ l with
      heap := Function.update (Function.update l.heap l.fresh (some ⟨none, 0, item⟩)) x
        (some ⟨some l.fresh, e.key, e.item⟩)
      last := some l.fresh
      fresh := l.fresh + 1 }, ?_, pre ++ [(x, e), (l.fresh, ⟨0, item⟩)], ?_, by simp⟩
    · have hx' : Function.update l.heap l.fresh (some ⟨none, 0, item⟩) x =
          some ⟨none, e.key, e.item⟩ := hx
      simp only [LinkedList.append, isEmpty, hfirst, hlast, setNext, hx', Option.bind_eq_bind,
        Option.bind_some, Option.map_some, Bool.false_eq_true, if_false, Option.pure_def]
    · have hne : l.fresh ≠ x := fun heq => hy (by simp [heq])
      refine hnew.insert hy (Nat.lt_succ_self _) le_rfl rfl (if_pos rfl).symm
        (fun z _ hzx => Function.update_of_ne hzx _ _) fun next hnext => ?_
      rw [hx] at hnext
      cases hnext
      exact ⟨Function.update_self _ _ _,
        (Function.update_of_ne hne _ _).trans (Function.update_self _ _ _)⟩

theorem Holds.remove_nil {l : LinkedList α κ} (h : l.Holds []) : l.remove = some (none, l) := by
  rw [LinkedList.remove, h.sortedRemove_nil]
  rfl

theorem Holds.remove_cons {l : LinkedList α κ} {e : Entry α κ} {entries : List (Entry α κ)}
    (h : l.Holds (e :: entries)) :
    ∃ l', l.remove = some (some e.item, l') ∧ l'.Holds entries := by
  obtain ⟨l', hl', hholds⟩ := h.sortedRemove_cons
  refine ⟨l', ?_, hholds⟩
  rw [LinkedList.remove, hl']
  rfl

end LinkedList

end Threads
end Nachos
