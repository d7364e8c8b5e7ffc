import Mathlib.Data.List.Basic

/-!
# Overwriting part of a list

`splice l p s` is `l` with the elements from position `p` on replaced by those of
`s`.  Two adjacent splices are one.
-/

namespace Lib

variable {α : Type}

/-- The list `l` with `s` written over it from position `p` on. -/
def splice (l : List α) (p : Nat) (s : List α) : List α :=
  l.take p ++ s ++ l.drop (p + s.length)

section Splice

variable {l s t : List α} {p : Nat}

theorem splice_nil (l : List α) (p : Nat) : splice l p [] = l := by
  rw [splice, List.append_nil, List.length_nil, Nat.add_zero, List.take_append_drop]

theorem length_splice (h : p + s.length ≤ l.length) : (splice l p s).length = l.length := by
  simp only [splice, List.length_append, List.length_take, List.length_drop]
  omega

theorem getElem?_splice (h : p + s.length ≤ l.length) (k : Nat) :
    (splice l p s)[k]? = if p ≤ k ∧ k < p + s.length then s[k - p]? else l[k]? := by
  have htake : (l.take p).length = p := List.length_take_of_le (by omega)
  have hfront : (l.take p ++ s).length = p + s.length := by
    rw [List.length_append, htake]
  rw [splice]
  by_cases hlo : k < p
  · rw [if_neg (by omega), List.getElem?_append_left (by omega),
      List.getElem?_append_left (by omega), List.getElem?_take_of_lt hlo]
  · by_cases hhi : k < p + s.length
    · rw [if_pos (by omega), List.getElem?_append_left (by omega),
        List.getElem?_append_right (by omega), htake]
    · have hback : p + s.length + (k - (p + s.length)) = k := by omega
      rw [if_neg (by omega), List.getElem?_append_right (by omega), hfront,
        List.getElem?_drop, hback]

/-- What is written behind a splice goes on where the splice ends. -/
theorem splice_splice (h : p + (s ++ t).length ≤ l.length) :
    splice (splice l p s) (p + s.length) t = splice l p (s ++ t) := by
  rw [List.length_append] at h
  have hs : p + s.length ≤ l.length := by omega
  have hst : p + (s ++ t).length ≤ l.length := by
    rw [List.length_append]
    omega
  have hlen := length_splice hs
  apply List.ext_getElem?
  intro k
  rw [getElem?_splice (by omega), getElem?_splice hs, getElem?_splice hst, List.length_append]
  by_cases hback : p + s.length ≤ k ∧ k < p + s.length + t.length
  · have hsub : k - p - s.length = k - (p + s.length) := by omega
    rw [if_pos hback, if_pos (by omega), List.getElem?_append_right (by omega), hsub]
  · rw [if_neg hback]
    by_cases hfront : p ≤ k ∧ k < p + s.length
    · rw [if_pos hfront, if_pos (by omega), List.getElem?_append_left (by omega)]
    · rw [if_neg hfront, if_neg (by omega)]

/-- A splice over all of a list leaves nothing of it. -/
theorem splice_whole (h : s.length = l.length) : splice l 0 s = s := by
  rw [splice, List.take_zero, List.nil_append, Nat.zero_add, h, List.drop_length,
    List.append_nil]

end Splice

end Lib
