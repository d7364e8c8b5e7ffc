import Nachos.Lib.Desk
import Nachos.Threads.SynchList

/-!
# The calls of a synchronized list

Calls of `Append`, written down when they are made.  Each puts its item on the list once, or
is on its way to the list.
-/

namespace Nachos
namespace Threads
namespace SynchList

open Lib Monitor

variable {τ σ α : Type}

/-- The item of a call of `Append` that is not yet on the list. -/
def Pc.item : Pc α → Option (Option α)
  | .appendAcquire item | .append item => some item
  | _ => none

/-- The list, where a call of `Append` waits until its item is there. -/
def appendDesk (s : State τ σ α) : Desk τ (Option α) :=
  ⟨fun t => (s.threads t).item, s.appended⟩

section Steps

variable [DecidableEq τ] {M : Monitor τ σ} {s s' : State τ σ α} {t : τ} {pc : Pc α}

theorem item_update (threads : τ → Pc α) (t : τ) (pc : Pc α) :
    (fun u => (Function.update threads t pc u).item) =
      Function.update (fun u => (threads u).item) t pc.item :=
  Function.comp_update Pc.item threads t pc

/-- A thread goes on, in `Append` or elsewhere. -/
theorem appendDesk_moveTo (hitem : pc.item = (s.threads t).item) :
    appendDesk (s.moveTo t pc) = appendDesk s := by
  refine congrArg (Desk.mk · _) ((item_update s.threads t pc).trans ?_)
  exact Function.update_eq_self_iff.mpr hitem

/-- The item of a call is put on the list. -/
theorem appendDesk_append {item : Option α} (ht : s.threads t = .append item) :
    (appendDesk s).Step [] (appendDesk (s.append t item)) := by
  unfold State.append
  split
  · have hserve := Desk.Step.serve (d := appendDesk s) (congrArg Pc.item ht)
    show (appendDesk s).Step [] ⟨fun u => (Function.update s.threads t .signal u).item,
      s.appended ++ [item]⟩
    rw [item_update]
    exact hserve
  · exact .quiet

theorem ThreadStep.appendDesk (h : ThreadStep M t s s') :
    ∃ made, (appendDesk s).Step made (appendDesk s') := by
  have hquiet : SynchList.appendDesk s' = SynchList.appendDesk s →
      ∃ made, (SynchList.appendDesk s).Step made (SynchList.appendDesk s') :=
    fun heq => ⟨[], heq ▸ .quiet⟩
  have hmove : ∀ {p pc : Pc α}, s.threads t = p → pc.item = p.item →
      SynchList.appendDesk (s.moveTo t pc) = SynchList.appendDesk s :=
    fun hp hitem => appendDesk_moveTo (hitem.trans (congrArg Pc.item hp.symm))
  cases h with
  | @call a pc lock hcall hlock =>
    generalize hp : s.threads t = p at hcall
    cases hcall with
    | append x =>
      have hcall := Desk.Step.call (d := SynchList.appendDesk s) (some x) (congrArg Pc.item hp)
      exact ⟨_, (item_update s.threads t (.appendAcquire (some x))) ▸ hcall⟩
    | appendEnter item | signal | appendRelease | remove | removeEnter | wait | waitEnter
      | removeRelease item => exact hquiet (hmove hp rfl)
  | append hp => exact ⟨[], appendDesk_append hp⟩
  | test hp =>
    refine hquiet (hmove hp ?_)
    split <;> rfl
  | remove hp =>
    refine hquiet ?_
    unfold State.remove
    split
    · exact hmove hp rfl
    · rfl
  | check hp =>
    refine hquiet ?_
    unfold State.check
    split
    · exact hmove hp rfl
    · rfl
  | finish hp => exact hquiet (hmove hp rfl)

theorem Step.appendDesk (h : Step M s s') :
    ∃ made, (appendDesk s).Step made (appendDesk s') := by
  cases h with
  | thread h => exact h.appendDesk
  | internal hlock => exact ⟨[], .quiet⟩

/-- Every run can be written down, call by call, and then each item that `Append` was called
with is put on the list once, or is on its way there. -/
theorem appended_of_calls (hs : (system M).Reachable s) :
    (∃ calls, (Desk.recorded (system M) appendDesk).Reachable (s, calls)) ∧
    ∀ calls, (Desk.recorded (system M) appendDesk).Reachable (s, calls) →
      Desk.Accounts calls (appendDesk s) :=
  ⟨Desk.exists_recorded (fun _ _ h => h.2.appendDesk) hs,
    fun _ h => Desk.accounts_of_recorded (fun _ hinit => by rw [hinit]; rfl) h⟩

end Steps

end SynchList
end Threads
end Nachos
