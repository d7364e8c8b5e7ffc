import Mathlib.Data.List.Induction

/-!
# A store and the writes to it

A write puts a block of values at an address.  After any number of writes, in
which blocks may overlap, a cell holds what the last write that covers it has
put there.
-/

namespace Lib

universe u

structure Write (β : Type u) where
  start : Nat
  data : List β

namespace Write

variable {β : Type u}

/-- What the write puts in the cell `a`, if it covers it. -/
def cell (w : Write β) (a : Nat) : Option β :=
  if w.start ≤ a then w.data[a - w.start]? else none

def apply (store : Nat → β) (w : Write β) : Nat → β := fun a => (w.cell a).getD (store a)

/-- What the last of the writes that cover the cell has put there. -/
def latest (log : List (Write β)) (a : Nat) : Option β := log.reverse.findSome? (·.cell a)

theorem latest_snoc (log : List (Write β)) (w : Write β) (a : Nat) :
    latest (log ++ [w]) a = (w.cell a).or (latest log a) := by
  unfold latest
  rw [List.reverse_append, List.reverse_singleton, List.singleton_append, List.findSome?_cons]
  cases w.cell a with
  | none => rfl
  | some b => rfl

/-- The store after the writes. -/
theorem foldl_apply (log : List (Write β)) (store : Nat → β) (a : Nat) :
    log.foldl apply store a = (latest log a).getD (store a) := by
  induction log using List.reverseRecOn with
  | nil => rfl
  | append_singleton log w ih =>
    rw [List.foldl_append, latest_snoc]
    show (w.cell a).getD (log.foldl apply store a) = _
    rw [ih]
    cases w.cell a with
    | none => rfl
    | some b => rfl

end Write
end Lib
