import Nachos.Lib.System

/-!
# A channel that loses messages

A channel takes messages in at one end, may lose each of them on the way in,
and hands the others out at the far end in the order they came.
-/

namespace Lib

universe u v

/-- What was sent, what is on its way and what was handed out. -/
@[ext]
structure LossyChannel (α : Type u) where
  sent : List α
  carried : List α
  received : List α

namespace LossyChannel

variable {α : Type u} {c c' : LossyChannel α}

inductive Step (c : LossyChannel α) : LossyChannel α → Prop
  | transmit (x : α) : Step c { c with sent := c.sent ++ [x], carried := c.carried ++ [x] }
  | lose (x : α) : Step c { c with sent := c.sent ++ [x] }
  | receive {x : α} {rest : List α} (h : c.carried = x :: rest) :
      Step c { c with carried := rest, received := c.received ++ [x] }

/-- What was handed out and what is on its way come, in this order, from what was sent. -/
def InOrder (c : LossyChannel α) : Prop := (c.received ++ c.carried).Sublist c.sent

def empty : LossyChannel α := ⟨[], [], []⟩

def system (α : Type u) : System (LossyChannel α) where
  init c := c = empty
  step := Step

theorem InOrder.step (h : c.InOrder) (hstep : Step c c') : c'.InOrder := by
  unfold InOrder at h ⊢
  cases hstep with
  | transmit x =>
    show (c.received ++ (c.carried ++ [x])).Sublist (c.sent ++ [x])
    rw [← List.append_assoc]
    exact h.append (List.Sublist.refl [x])
  | lose x => exact h.trans (List.sublist_append_left _ _)
  | @receive x rest hc =>
    show (c.received ++ [x] ++ rest).Sublist c.sent
    rw [List.append_assoc, List.singleton_append, ← hc]
    exact h

theorem inOrder_of_reachable (h : (system α).Reachable c) : c.InOrder := by
  refine h.induct ?_ fun _ _ => InOrder.step
  rintro _ rfl
  exact List.Sublist.refl []

/-- Nothing is handed out twice, and nothing out of order. -/
theorem InOrder.received_sublist (h : c.InOrder) : c.received.Sublist c.sent :=
  (List.sublist_append_left _ _).trans h

/-! ## Systems with channels inside -/

variable {σ : Type v} {S : System σ} {view : σ → LossyChannel α}

/-- A system seen as a channel: each step of it is one of the channel, or is not seen. -/
structure Views (S : System σ) (J : σ → Prop) (view : σ → LossyChannel α) : Prop where
  init : ∀ s, S.init s → view s = empty
  step : ∀ s t, J s → S.step s t → view t = view s ∨ Step (view s) (view t)

theorem Views.reachable {J : σ → Prop} (h : Views S J view) (hJ : ∀ s, S.Reachable s → J s)
    {s : σ} (hs : S.Reachable s) : (system α).Reachable (view s) := by
  have hind : S.InductiveUnder J (fun s => (system α).Reachable (view s)) := by
    refine ⟨fun s hs => .of_init (h.init s hs), ?_⟩
    intro s t hj ih hst
    rcases h.step s t hj hst with heq | hstep
    · rwa [heq]
    · exact ih.step hstep
  exact hind.reachable hJ hs

end LossyChannel
end Lib
