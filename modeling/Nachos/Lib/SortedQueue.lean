import Mathlib.Data.List.Sort

/-!
# Queues sorted by a key

A queue that is sorted by time, say, with new items inserted behind those of the
same time.  What is due is in front, and is not changed by an insertion of what
is not.
-/

namespace Lib
namespace SortedQueue

universe u v

variable {α : Type u} {κ : Type v} [LinearOrder κ]

section

variable (f : α → κ)

def Sorted (l : List α) : Prop := l.Pairwise fun a b => f a ≤ f b

/-- Behind the items with the same key. -/
def insert (a : α) (l : List α) : List α := l.orderedInsert (fun a b => f a < f b) a

/-- The items with a key up to `now`. -/
def due (now : κ) (l : List α) : List α := l.filter (f · ≤ now)

/-- The other items. -/
def later (now : κ) (l : List α) : List α := l.filter (now < f ·)

/-- The items with the key `k`. -/
def tied (k : κ) (l : List α) : List α := l.filter (f · = k)

end

variable {f : α → κ} {now k : κ} {a b : α} {l l' : List α}

theorem insert_front (h : f a < f b) : insert f a (b :: l) = a :: b :: l := if_pos h

theorem insert_behind (h : ¬ f a < f b) : insert f a (b :: l) = b :: insert f a l :=
  if_neg h

theorem insert_perm (a : α) (l : List α) : (insert f a l).Perm (a :: l) :=
  List.perm_orderedInsert _ a l

theorem Sorted.insert (h : Sorted f l) (a : α) : Sorted f (insert f a l) := by
  induction l with
  | nil => exact List.pairwise_singleton _ a
  | cons b l ih =>
    obtain ⟨hb, hl⟩ := List.pairwise_cons.mp h
    by_cases hlt : f a < f b
    · rw [insert_front hlt]
      refine List.pairwise_cons.mpr ⟨fun c hc => ?_, h⟩
      rcases List.mem_cons.mp hc with rfl | hc
      · exact hlt.le
      · exact hlt.le.trans (hb c hc)
    · rw [insert_behind hlt]
      refine List.pairwise_cons.mpr ⟨fun c hc => ?_, ih hl⟩
      rcases List.mem_cons.mp ((insert_perm a l).mem_iff.mp hc) with rfl | hc
      · exact not_lt.mp hlt
      · exact hb c hc

theorem Sorted.tail (h : Sorted f (a :: l)) : Sorted f l := (List.pairwise_cons.mp h).2

/-- When the first item is not due, none is. -/
theorem Sorted.due_nil (h : Sorted f (a :: l)) (ha : now < f a) :
    due f now (a :: l) = [] := by
  refine List.filter_eq_nil_iff.mpr fun b hb hle => ?_
  have hkey : f a ≤ f b := by
    rcases List.mem_cons.mp hb with rfl | hb
    · exact le_rfl
    · exact (List.pairwise_cons.mp h).1 b hb
  exact absurd (ha.trans_le hkey) (not_lt.mpr (of_decide_eq_true hle))

theorem due_cons (ha : f a ≤ now) : due f now (a :: l) = a :: due f now l :=
  List.filter_cons_of_pos (decide_eq_true ha)

theorem later_cons (ha : f a ≤ now) : later f now (a :: l) = later f now l :=
  List.filter_cons_of_neg (by simpa using ha)

theorem later_eq_self (h : due f now l = []) : later f now l = l := by
  refine List.filter_eq_self.mpr fun b hb => decide_eq_true (not_le.mp fun hle => ?_)
  exact List.filter_eq_nil_iff.mp h b hb (decide_eq_true hle)

theorem due_perm (h : l.Perm l') : (due f now l).Perm (due f now l') := h.filter _

theorem later_perm (h : l.Perm l') : (later f now l).Perm (later f now l') := h.filter _

/-- What is inserted for later leaves alone what is due. -/
theorem due_insert (ha : now < f a) (l : List α) :
    due f now (insert f a l) = due f now l := by
  have hnot : ¬ decide (f a ≤ now) = true := by simpa using ha
  induction l with
  | nil => exact List.filter_cons_of_neg hnot
  | cons b l ih =>
    by_cases hlt : f a < f b
    · rw [insert_front hlt]
      exact List.filter_cons_of_neg hnot
    · rw [insert_behind hlt]
      unfold due at ih ⊢
      rw [List.filter_cons, List.filter_cons, ih]

theorem later_insert (ha : now < f a) (l : List α) :
    (later f now (insert f a l)).Perm (a :: later f now l) := by
  have hperm : (later f now (insert f a l)).Perm (later f now (a :: l)) :=
    later_perm (insert_perm a l)
  have hcons : later f now (a :: l) = a :: later f now l :=
    List.filter_cons_of_pos (decide_eq_true ha)
  rwa [hcons] at hperm

theorem tied_cons : tied f k (a :: l) = (if f a = k then [a] else []) ++ tied f k l := by
  unfold tied
  rw [List.filter_cons]
  by_cases ha : f a = k
  · simp [ha]
  · simp [ha]

theorem Sorted.tied_nil (h : Sorted f (b :: l)) (hk : k < f b) : tied f k (b :: l) = [] := by
  refine List.filter_eq_nil_iff.mpr fun c hc heq => ?_
  have hle : f b ≤ f c := by
    rcases List.mem_cons.mp hc with rfl | hc
    · exact le_rfl
    · exact (List.pairwise_cons.mp h).1 c hc
  exact absurd (of_decide_eq_true heq) (hk.trans_le hle).ne'

/-- A new item goes behind those of its key. -/
theorem Sorted.tied_insert (h : Sorted f l) (a : α) :
    tied f k (SortedQueue.insert f a l) = tied f k l ++ if f a = k then [a] else [] := by
  induction l with
  | nil => exact tied_cons.trans (List.append_nil _)
  | cons b l ih =>
    by_cases hlt : f a < f b
    · rw [insert_front hlt, tied_cons]
      by_cases ha : f a = k
      · rw [if_pos ha, h.tied_nil (ha ▸ hlt), List.append_nil, List.nil_append]
      · rw [if_neg ha, List.append_nil, List.nil_append]
    · rw [insert_behind hlt, tied_cons, ih h.tail, tied_cons, List.append_assoc]

/-- The first item gets its place back just when no other item has its key. -/
theorem Sorted.insert_eq_cons (h : Sorted f (a :: l)) :
    SortedQueue.insert f a l = a :: l ↔ ∀ b ∈ l, f b = f a → b = a := by
  induction l with
  | nil => exact ⟨fun _ _ hb => absurd hb List.not_mem_nil, fun _ => rfl⟩
  | cons b l ih =>
    obtain ⟨ha, hl⟩ := List.pairwise_cons.mp h
    by_cases hlt : f a < f b
    · rw [insert_front hlt]
      refine ⟨fun _ c hc heq => ?_, fun _ => rfl⟩
      have hbc : f b ≤ f c := by
        rcases List.mem_cons.mp hc with rfl | hc
        · exact le_rfl
        · exact (List.pairwise_cons.mp hl).1 c hc
      exact absurd heq (hlt.trans_le hbc).ne'
    · have hkey : f b = f a := le_antisymm (not_lt.mp hlt) (ha b List.mem_cons_self)
      have htail : Sorted f (a :: l) :=
        List.pairwise_cons.mpr ⟨fun c hc => ha c (List.mem_cons_of_mem b hc), hl.tail⟩
      rw [insert_behind hlt, List.cons.injEq, List.forall_mem_cons, ← ih htail]
      refine ⟨fun ⟨hb, hrest⟩ => ⟨fun _ => hb, hb ▸ hrest⟩, fun ⟨hb, hrest⟩ => ?_⟩
      have hba : b = a := hb hkey
      exact ⟨hba, hba ▸ hrest⟩

/-! ## Histories -/

/-- `l` is what is left of the items put in so far, and the others were taken out in
this order.  The items of one key came out in the order they were put in. -/
structure Served (f : α → κ) (putIn takenOut l : List α) : Prop where
  sorted : Sorted f l
  once : (takenOut ++ l).Perm putIn
  fifo : ∀ k, tied f k putIn = tied f k takenOut ++ tied f k l

variable {putIn takenOut : List α}

theorem Served.nil : Served f [] [] ([] : List α) :=
  ⟨List.Pairwise.nil, List.Perm.nil, fun _ => rfl⟩

theorem Served.insert (h : Served f putIn takenOut l) (a : α) :
    Served f (putIn ++ [a]) takenOut (SortedQueue.insert f a l) := by
  constructor
  · exact h.sorted.insert a
  · have hperm : (takenOut ++ SortedQueue.insert f a l).Perm (takenOut ++ a :: l) :=
      (insert_perm a l).append_left takenOut
    have hback : (takenOut ++ a :: l).Perm (a :: putIn) :=
      List.perm_middle.trans (h.once.cons a)
    exact (hperm.trans hback).trans (List.perm_append_singleton a putIn).symm
  · intro k
    have hlast : tied f k [a] = if f a = k then [a] else [] :=
      tied_cons.trans (List.append_nil _)
    rw [h.sorted.tied_insert, ← List.append_assoc, ← h.fifo k, ← hlast]
    exact List.filter_append _ _

theorem Served.remove (h : Served f putIn takenOut (a :: l)) :
    Served f putIn (takenOut ++ [a]) l := by
  constructor
  · exact h.sorted.tail
  · rw [List.append_assoc]
    exact h.once
  · intro k
    have hback : tied f k (takenOut ++ [a]) = tied f k takenOut ++ tied f k [a] :=
      List.filter_append _ _
    have hfront : tied f k (a :: l) = tied f k [a] ++ tied f k l := List.filter_append [a] l
    rw [h.fifo k, hback, hfront, List.append_assoc]

/-- What is taken out next has the least key. -/
theorem Served.least (h : Served f putIn takenOut (a :: l)) : ∀ b ∈ a :: l, f a ≤ f b := by
  intro b hb
  rcases List.mem_cons.mp hb with rfl | hb
  · exact le_rfl
  · exact (List.pairwise_cons.mp h.sorted).1 b hb

end SortedQueue
end Lib
