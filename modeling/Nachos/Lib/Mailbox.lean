import Mathlib.Data.List.Basic
import Nachos.Lib.System

/-!
# Mailboxes

A mailbox has a place for one value.  It is filled from a source, when it is empty, and
a reader takes what is there.  A source of bytes may hold codes of values.
-/

namespace Lib

universe u v w x

/-- What is still to be read, the value that waits, and those that were taken. -/
structure Mailbox (ι : Type u) (α : Type v) where
  source : ι
  place : Option α
  taken : List α

namespace Mailbox

variable {ι : Type u} {α : Type v} {next : ι → Option (α × ι)} {i j : ι} {m : Mailbox ι α}

/-- The steps of a mailbox; `next` reads from the source. -/
inductive Step (next : ι → Option (α × ι)) : Mailbox ι α → Mailbox ι α → Prop
  | fill {m a i} (hplace : m.place = none) (hnext : next m.source = some (a, i)) :
      Step next m ⟨i, some a, m.taken⟩
  | take {m a} (hplace : m.place = some a) : Step next m ⟨m.source, none, m.taken ++ [a]⟩

def system (next : ι → Option (α × ι)) (i : ι) : System (Mailbox ι α) where
  init m := m = ⟨i, none, []⟩
  step := Step next

/-- Values read one after the other take the source from `i` to `j`. -/
inductive Reads (next : ι → Option (α × ι)) (i : ι) : List α → ι → Prop
  | nil : Reads next i [] i
  | snoc {as j a k} (h : Reads next i as j) (hnext : next j = some (a, k)) :
      Reads next i (as ++ [a]) k

/-- No value is lost and none comes twice. -/
theorem reads (h : (system next i).Reachable m) :
    Reads next i (m.taken ++ m.place.toList) m.source := by
  refine h.induct (I := fun m => Reads next i (m.taken ++ m.place.toList) m.source) ?_ ?_
  · rintro m rfl
    exact .nil
  · intro m m' hm hstep
    cases hstep with
    | fill hplace hnext =>
      rw [hplace, Option.toList_none, List.append_nil] at hm
      exact hm.snoc hnext
    | take hplace =>
      rw [hplace] at hm
      exact (List.append_nil _).symm ▸ hm

/-! ## Codes -/

section Codes

variable {β : Type w} {γ : Type x} {value : γ → α} {eof : α} {cs : List γ} {as : List α}

/-- The value at position `n`: after the last, `eof` again and again. -/
def expected (value : γ → α) (eof : α) (cs : List γ) (n : Nat) : α := (cs.map value).getD n eof

theorem expected_get {n : Nat} (h : n < cs.length) : expected value eof cs n = value cs[n] := by
  rw [expected, List.getD_eq_getElem?_getD, List.getElem?_map, List.getElem?_eq_getElem h]
  rfl

theorem expected_cons_drop {n : Nat} {c : γ} {rest : List γ} (h : cs.drop n = c :: rest) :
    expected value eof cs n = value c := by
  have hget : cs[n]? = some c := by rw [← List.head?_drop, h, List.head?_cons]
  rw [expected, List.getD_eq_getElem?_getD, List.getElem?_map, hget]
  rfl

theorem expected_drop_nil {n : Nat} (h : cs.drop n = []) : expected value eof cs n = eof := by
  have hget : cs[n]? = none := by rw [← List.head?_drop, h, List.head?_nil]
  rw [expected, List.getD_eq_getElem?_getD, List.getElem?_map, hget]
  rfl

/-- `next` reads `eof` at the end, and the value of `c` where the code of `c` comes next. -/
structure Decodes (next : List β → Option (α × List β)) (code : γ → List β) (value : γ → α)
    (eof : α) (cs : List γ) : Prop where
  nil : next [] = some (eof, [])
  append : ∀ c ∈ cs, ∀ rest, next (code c ++ rest) = some (value c, rest)

variable {next : List β → Option (α × List β)} {code : γ → List β} {rest : List β}

/-- From the codes of `cs` after the first `n`, the next value is that at position `n`. -/
theorem Decodes.next_drop (h : Decodes next code value eof cs) (n : Nat) :
    next ((cs.drop n).flatMap code) =
      some (expected value eof cs n, (cs.drop (n + 1)).flatMap code) := by
  rw [← List.drop_drop]
  cases hdrop : cs.drop n with
  | nil => rw [List.drop_nil, List.flatMap_nil, h.nil, expected_drop_nil hdrop]
  | cons c tail =>
    have hmem : c ∈ cs := List.mem_of_mem_drop (hdrop ▸ List.mem_cons_self)
    rw [List.flatMap_cons, h.append c hmem, expected_cons_drop hdrop]
    rfl

/-- What is read from the codes of `cs` are the values in their order. -/
theorem Decodes.reads (h : Decodes next code value eof cs)
    (hreads : Reads next (cs.flatMap code) as rest) :
    as = (List.range as.length).map (expected value eof cs) ∧
      rest = (cs.drop as.length).flatMap code := by
  induction hreads with
  | nil => exact ⟨rfl, rfl⟩
  | @snoc as j a k hreads hnext ih =>
    obtain ⟨has, hj⟩ := ih
    rw [hj, h.next_drop as.length] at hnext
    cases hnext
    rw [List.length_append, List.length_singleton, List.range_succ, List.map_append, ← has]
    exact ⟨rfl, rfl⟩

section Reader

variable {m : Mailbox (List β) α}

theorem Decodes.next_ne_none (h : Decodes next code value eof cs)
    (hm : (system next (cs.flatMap code)).Reachable m) : next m.source ≠ none := by
  rw [(h.reads (Mailbox.reads hm)).2, h.next_drop]
  exact Option.some_ne_none _

/-- The reader of a mailbox has taken the values in their order, and the one that waits, or
else the one that comes, is the next. -/
theorem Decodes.inOrder (h : Decodes next code value eof cs)
    (hm : (system next (cs.flatMap code)).Reachable m) :
    m.taken = (List.range m.taken.length).map (expected value eof cs) ∧
      (∀ a, m.place = some a → a = expected value eof cs m.taken.length) ∧
      (m.place = none → ∃ i, next m.source = some (expected value eof cs m.taken.length, i)) := by
  obtain ⟨htaken, hsource⟩ := h.reads (Mailbox.reads hm)
  cases hplace : m.place with
  | none =>
    rw [hplace, Option.toList_none, List.append_nil] at htaken hsource
    exact ⟨htaken, nofun, fun _ => ⟨_, hsource ▸ h.next_drop m.taken.length⟩⟩
  | some a =>
    rw [hplace, Option.toList_some, List.length_append, List.length_singleton, List.range_succ,
      List.map_append] at htaken
    obtain ⟨htaken, hlast⟩ := List.append_inj' htaken rfl
    refine ⟨htaken, fun b hb => ?_, nofun⟩
    cases hb
    exact List.head_eq_of_cons_eq hlast

end Reader

end Codes

end Mailbox
end Lib
