import Mathlib.Algebra.BigOperators.Fin
import Mathlib.Data.Fintype.Card
import Mathlib.Logic.Function.Basic

/-!
# Bounded maps and tables of slots

A bounded map binds at most `n` keys.  A table of `n` slots, each of them free or
holding one binding, represents such a map when no key is in two slots.
-/

namespace Lib

universe u

/-! ## Machines that answer calls -/

section Machine

variable {σ τ α ρ : Type u}

/-- The replies of a machine to the calls of a list, and the state it ends in. -/
def answers (call : σ → α → ρ × σ) : σ → List α → List ρ × σ
  | s, [] => ([], s)
  | s, a :: as =>
    let rest := answers call (call s a).2 as
    ((call s a).1 :: rest.1, rest.2)

/-- A relation that each call keeps, with the same reply, is kept by runs. -/
theorem answers_related {call : σ → α → ρ × σ} {call' : τ → α → ρ × τ} {R : σ → τ → Prop}
    (hcall : ∀ s t a, R s t → (call s a).1 = (call' t a).1 ∧ R (call s a).2 (call' t a).2)
    (as : List α) : ∀ s t, R s t → (answers call s as).1 = (answers call' t as).1 ∧
      R (answers call s as).2 (answers call' t as).2 := by
  induction as with
  | nil => exact fun s t h => ⟨rfl, h⟩
  | cons a as ih =>
    intro s t h
    obtain ⟨hreply, hnext⟩ := hcall s t a h
    obtain ⟨hreplies, hend⟩ := ih _ _ hnext
    exact ⟨by rw [answers, answers, hreply, hreplies], hend⟩

/-- A predicate that each call keeps holds at the end of a run. -/
theorem answers_invariant {call : σ → α → ρ × σ} {I : σ → Prop}
    (hcall : ∀ s a, I s → I (call s a).2) (as : List α) : ∀ s, I s → I (answers call s as).2 := by
  induction as with
  | nil => exact fun s h => h
  | cons a as ih => exact fun s h => ih _ (hcall s a h)

theorem answers_append (call : σ → α → ρ × σ) (as bs : List α) : ∀ s,
    (answers call s (as ++ bs)).2 = (answers call (answers call s as).2 bs).2 := by
  induction as with
  | nil => exact fun s => rfl
  | cons a as ih => exact fun s => ih _

end Machine

/-! ## Bounded maps -/

/-- A partial map with at most `n` keys. -/
structure BoundedMap (κ ν : Type u) (n : Nat) where
  lookup : κ → Option ν
  keys : Finset κ
  mem_keys : ∀ k, k ∈ keys ↔ (lookup k).isSome = true
  card_le : keys.card ≤ n

namespace BoundedMap

def empty (κ ν : Type u) (n : Nat) : BoundedMap κ ν n where
  lookup := fun _ => none
  keys := ∅
  mem_keys := by simp
  card_le := Nat.zero_le n

variable {κ ν : Type u} {n : Nat} [DecidableEq κ]

/-- Bind a key, if it is absent and fewer than `n` keys are present. -/
def add (m : BoundedMap κ ν n) (k : κ) (v : ν) : Bool × BoundedMap κ ν n :=
  if h : m.lookup k = none ∧ m.keys.card < n then
    (true,
      { lookup := Function.update m.lookup k (some v)
        keys := insert k m.keys
        mem_keys := by
          intro j
          by_cases hj : j = k
          · subst hj
            simp
          · rw [Function.update_of_ne hj, Finset.mem_insert, m.mem_keys]
            exact or_iff_right hj
        card_le := Nat.le_trans (Finset.card_insert_le k m.keys) h.2 })
  else (false, m)

/-- Unbind a key, if it is present. -/
def remove (m : BoundedMap κ ν n) (k : κ) : Bool × BoundedMap κ ν n :=
  if (m.lookup k).isSome then
    (true,
      { lookup := Function.update m.lookup k none
        keys := m.keys.erase k
        mem_keys := by
          intro j
          by_cases hj : j = k
          · subst hj
            simp
          · rw [Function.update_of_ne hj, Finset.mem_erase, m.mem_keys]
            exact and_iff_right hj
        card_le := Nat.le_trans (Finset.card_erase_le) m.card_le })
  else (false, m)

/-- Bind a key to another value, if it is present. -/
def set (m : BoundedMap κ ν n) (k : κ) (v : ν) : BoundedMap κ ν n where
  lookup := Function.update m.lookup k ((m.lookup k).map fun _ => v)
  keys := m.keys
  mem_keys := by
    intro j
    by_cases hj : j = k
    · subst hj
      rw [Function.update_self, Option.isSome_map, m.mem_keys]
    · rw [Function.update_of_ne hj, m.mem_keys]
  card_le := m.card_le

variable {m : BoundedMap κ ν n} {k : κ} {v : ν}

theorem lookup_set : (m.set k v).lookup =
    Function.update m.lookup k ((m.lookup k).map fun _ => v) := rfl

theorem add_of_room (h : m.lookup k = none ∧ m.keys.card < n) :
    (m.add k v).1 = true ∧ (m.add k v).2.lookup = Function.update m.lookup k (some v) := by
  rw [add, dif_pos h]
  exact ⟨rfl, rfl⟩

theorem remove_of_bound (h : (m.lookup k).isSome = true) :
    (m.remove k).1 = true ∧ (m.remove k).2.lookup = Function.update m.lookup k none := by
  rw [remove, if_pos h]
  exact ⟨rfl, rfl⟩

end BoundedMap

/-! ## Tables of slots -/

/-- The table holds each binding of the map in one slot. -/
structure Represents {κ ν : Type u} {n : Nat} (slots : Fin n → Option (κ × ν))
    (m : BoundedMap κ ν n) : Prop where
  distinct : ∀ i j k v w, slots i = some (k, v) → slots j = some (k, w) → i = j
  lookup : ∀ k v, m.lookup k = some v ↔ ∃ i, slots i = some (k, v)

namespace Represents

section Slots

variable {κ ν : Type u} {n : Nat} {slots : Fin n → Option (κ × ν)} {m : BoundedMap κ ν n} {k : κ}

theorem empty (hfree : ∀ i, slots i = none) : Represents slots (BoundedMap.empty κ ν n) := by
  refine ⟨fun i j k v w hi => ?_, fun k v => ?_⟩
  · rw [hfree i] at hi
    cases hi
  · simp only [BoundedMap.empty, hfree, reduceCtorEq, exists_false]

theorem lookup_none (h : Represents slots m) :
    m.lookup k = none ↔ ∀ i v, slots i ≠ some (k, v) := by
  rw [Option.eq_none_iff_forall_ne_some]
  constructor
  · exact fun hnone i v hi => hnone v ((h.lookup k v).mpr ⟨i, hi⟩)
  · intro hall v hv
    obtain ⟨i, hi⟩ := (h.lookup k v).mp hv
    exact hall i v hi

theorem mem_keys (h : Represents slots m) : k ∈ m.keys ↔ ∃ i v, slots i = some (k, v) := by
  rw [m.mem_keys, Option.isSome_iff_exists]
  constructor
  · rintro ⟨v, hv⟩
    obtain ⟨i, hi⟩ := (h.lookup k v).mp hv
    exact ⟨i, v, hi⟩
  · rintro ⟨i, v, hi⟩
    exact ⟨v, (h.lookup k v).mpr ⟨i, hi⟩⟩

/-- As many keys are bound as slots are taken. -/
theorem card_keys (h : Represents slots m) :
    m.keys.card = (Finset.univ.filter fun i => (slots i).isSome = true).card := by
  classical
  have himage : (Finset.univ.filter fun i => (slots i).isSome = true).image
      (fun i => (slots i).map Prod.fst) = m.keys.image some := by
    ext x
    simp only [Finset.mem_image, Finset.mem_filter, Finset.mem_univ, true_and]
    constructor
    · rintro ⟨i, hi, rfl⟩
      obtain ⟨⟨k, v⟩, hkv⟩ := Option.isSome_iff_exists.mp hi
      rw [hkv]
      exact ⟨k, h.mem_keys.mpr ⟨i, v, hkv⟩, rfl⟩
    · rintro ⟨k, hk, rfl⟩
      obtain ⟨i, v, hi⟩ := h.mem_keys.mp hk
      refine ⟨i, ?_, ?_⟩
      · rw [hi]
        rfl
      · rw [hi]
        rfl
  have hinj : Set.InjOn (fun i => (slots i).map Prod.fst)
      (Finset.univ.filter fun i => (slots i).isSome = true) := by
    intro i hi j hj hij
    simp only [Finset.coe_filter, Finset.mem_univ, true_and, Set.mem_ofPred_eq] at hi hj
    obtain ⟨⟨k, v⟩, hkv⟩ := Option.isSome_iff_exists.mp hi
    obtain ⟨⟨k', w⟩, hkw⟩ := Option.isSome_iff_exists.mp hj
    simp only [hkv, hkw, Option.map_some, Option.some.injEq] at hij
    subst hij
    exact h.distinct i j k v w hkv hkw
  rw [← Finset.card_image_of_injOn hinj, himage,
    Finset.card_image_of_injective _ (Option.some_injective κ)]

/-- A sum of what the bound values weigh, taken over the slots. -/
theorem sum_keys (h : Represents slots m) (weight : ν → Nat) :
    (∑ k ∈ m.keys, (m.lookup k).elim 0 weight) =
      ∑ i, (slots i).elim 0 fun b => weight b.2 := by
  classical
  have hzero : ∀ i, i ∉ Finset.univ.filter (fun i => (slots i).isSome = true) →
      ((slots i).elim 0 fun b => weight b.2) = 0 := by
    intro i hi
    rw [Finset.mem_filter, Option.isSome_iff_ne_none] at hi
    have hnone : slots i = none := by
      by_contra hne
      exact hi ⟨Finset.mem_univ i, hne⟩
    rw [hnone, Option.elim_none]
  rw [← Finset.sum_subset (Finset.filter_subset _ _) fun i _ hi => hzero i hi]
  refine (Finset.sum_bij (fun i hi => ((slots i).get (Finset.mem_filter.mp hi).2).1) ?_ ?_ ?_
    ?_).symm
  · intro i hi
    exact h.mem_keys.mpr ⟨i, _, (Option.some_get (Finset.mem_filter.mp hi).2).symm⟩
  · intro i hi j hj hij
    obtain ⟨⟨a, v⟩, hv⟩ := Option.isSome_iff_exists.mp (Finset.mem_filter.mp hi).2
    obtain ⟨⟨b, w⟩, hw⟩ := Option.isSome_iff_exists.mp (Finset.mem_filter.mp hj).2
    simp only [hv, hw, Option.get_some] at hij
    exact h.distinct i j a v w hv (by rw [hw, hij])
  · intro k hk
    obtain ⟨i, v, hi⟩ := h.mem_keys.mp hk
    refine ⟨i, Finset.mem_filter.mpr ⟨Finset.mem_univ i, ?_⟩, ?_⟩
    · rw [hi]
      rfl
    · simp only [hi, Option.get_some]
  · intro i hi
    obtain ⟨⟨k, v⟩, hkv⟩ := Option.isSome_iff_exists.mp (Finset.mem_filter.mp hi).2
    simp only [hkv, Option.get_some, (h.lookup k v).mpr ⟨i, hkv⟩, Option.elim_some]

/-- There is a free slot as long as there is room for a key. -/
theorem room_iff (h : Represents slots m) : m.keys.card < n ↔ ∃ i, slots i = none := by
  rw [h.card_keys]
  constructor
  · intro hlt
    by_contra hfull
    have hall : ∀ i ∈ Finset.univ, (slots i).isSome = true := fun i _ =>
      Option.isSome_iff_ne_none.mpr fun hi => hfull ⟨i, hi⟩
    rw [Finset.filter_true_of_mem hall, Finset.card_univ, Fintype.card_fin] at hlt
    exact Nat.lt_irrefl n hlt
  · rintro ⟨i, hi⟩
    have hout : i ∉ Finset.univ.filter fun i => (slots i).isSome = true := by
      simp [hi]
    have hlt := Finset.card_lt_univ_of_notMem hout
    rwa [Fintype.card_fin] at hlt

end Slots

section Calls

variable {κ ν : Type u} {n : Nat} [DecidableEq κ] {slots slots' : Fin n → Option (κ × ν)}
  {m : BoundedMap κ ν n} {k : κ} {v : ν} {i : Fin n}

/-- An absent key put in a free slot. -/
theorem add (h : Represents slots m) (hfree : slots i = none) (habsent : m.lookup k = none)
    (hself : slots' i = some (k, v)) (hother : ∀ j, j ≠ i → slots' j = slots j) :
    (m.add k v).1 = true ∧ Represents slots' (m.add k v).2 := by
  obtain ⟨hdone, hlookup⟩ := BoundedMap.add_of_room (v := v)
    ⟨habsent, h.room_iff.mpr ⟨i, hfree⟩⟩
  have hnone := h.lookup_none.mp habsent
  have hcases : ∀ j a w, slots' j = some (a, w) →
      j = i ∧ a = k ∧ w = v ∨ j ≠ i ∧ a ≠ k ∧ slots j = some (a, w) := by
    intro j a w hj
    by_cases hji : j = i
    · rw [hji, hself, Option.some.injEq, Prod.mk.injEq] at hj
      exact .inl ⟨hji, hj.1.symm, hj.2.symm⟩
    · rw [hother j hji] at hj
      exact .inr ⟨hji, fun hak => hnone j w (by rw [hj, hak]), hj⟩
  refine ⟨hdone, fun a b j x w ha hb => ?_, fun j w => ?_⟩
  · rcases hcases a j x ha with ⟨rfl, rfl, rfl⟩ | ⟨hai, hjk, ha⟩ <;>
      rcases hcases b j w hb with ⟨rfl, hbk, rfl⟩ | ⟨hbi, hjk', hb⟩
    · rfl
    · exact absurd rfl hjk'
    · exact absurd hbk hjk
    · exact h.distinct a b j x w ha hb
  · rw [hlookup]
    by_cases hjk : j = k
    · subst hjk
      rw [Function.update_self, Option.some.injEq]
      constructor
      · rintro rfl
        exact ⟨i, hself⟩
      · rintro ⟨a, ha⟩
        rcases hcases a j w ha with ⟨-, -, hw⟩ | ⟨-, hne, -⟩
        · exact hw.symm
        · exact absurd rfl hne
    · rw [Function.update_of_ne hjk, h.lookup]
      constructor
      · rintro ⟨a, ha⟩
        have hai : a ≠ i := fun e => by rw [e, hfree] at ha; cases ha
        exact ⟨a, by rw [hother a hai, ha]⟩
      · rintro ⟨a, ha⟩
        rcases hcases a j w ha with ⟨-, hk, -⟩ | ⟨-, -, ha⟩
        · exact absurd hk hjk
        · exact ⟨a, ha⟩

/-- A key that is present cannot be added, and neither can any key to a table
without a free slot. -/
theorem add_fails (h : Represents slots m)
    (hfail : (∃ w, m.lookup k = some w) ∨ ∀ i, slots i ≠ none) : m.add k v = (false, m) := by
  rw [BoundedMap.add, dif_neg]
  rintro ⟨hnone, hroom⟩
  rcases hfail with ⟨w, hw⟩ | hfull
  · rw [hnone] at hw
    cases hw
  · obtain ⟨i, hi⟩ := h.room_iff.mp hroom
    exact hfull i hi

/-- A slot that is freed unbinds its key. -/
theorem remove (h : Represents slots m) (htaken : slots i = some (k, v)) (hself : slots' i = none)
    (hother : ∀ j, j ≠ i → slots' j = slots j) :
    (m.remove k).1 = true ∧ Represents slots' (m.remove k).2 := by
  have hbound : (m.lookup k).isSome = true := by
    rw [(h.lookup k v).mpr ⟨i, htaken⟩]
    rfl
  have hcases : ∀ j a w, slots' j = some (a, w) ↔ a ≠ k ∧ slots j = some (a, w) := by
    intro j a w
    by_cases hji : j = i
    · subst hji
      rw [hself, htaken, Option.some.injEq, Prod.mk.injEq]
      refine ⟨fun hj => ?_, fun hj => absurd hj.2.1.symm hj.1⟩
      cases hj
    · rw [hother j hji]
      refine ⟨fun hj => ⟨fun hak => ?_, hj⟩, fun hj => hj.2⟩
      subst hak
      exact hji (h.distinct j i a w v hj htaken)
  obtain ⟨hdone, hlookup⟩ := BoundedMap.remove_of_bound hbound
  refine ⟨hdone, fun a b j x w ha hb => ?_, fun j w => ?_⟩
  · exact h.distinct a b j x w ((hcases a j x).mp ha).2 ((hcases b j w).mp hb).2
  · rw [hlookup]
    simp only [hcases]
    by_cases hjk : j = k
    · subst hjk
      simp
    · rw [Function.update_of_ne hjk, h.lookup]
      simp only [ne_eq, hjk, not_false_eq_true, true_and]

/-- A slot whose value is replaced. -/
theorem set (h : Represents slots m) {w : ν} (htaken : slots i = some (k, w))
    (hself : slots' i = some (k, v)) (hother : ∀ j, j ≠ i → slots' j = slots j) :
    Represents slots' (m.set k v) := by
  have hcases : ∀ j a, (∃ x, slots' j = some (a, x)) ↔ ∃ x, slots j = some (a, x) := by
    intro j a
    by_cases hji : j = i
    · rw [hji, hself, htaken]
      simp only [Option.some.injEq, Prod.mk.injEq, exists_and_left, exists_eq', and_true]
    · rw [hother j hji]
  refine ⟨fun a b j x y ha hb => ?_, fun j x => ?_⟩
  · obtain ⟨x', ha'⟩ := (hcases a j).mp ⟨x, ha⟩
    obtain ⟨y', hb'⟩ := (hcases b j).mp ⟨y, hb⟩
    exact h.distinct a b j x' y' ha' hb'
  · rw [BoundedMap.lookup_set]
    by_cases hjk : j = k
    · subst hjk
      rw [Function.update_self, (h.lookup j w).mpr ⟨i, htaken⟩, Option.map_some, Option.some.injEq]
      constructor
      · rintro rfl
        exact ⟨i, hself⟩
      · rintro ⟨a, ha⟩
        obtain ⟨x', ha'⟩ := (hcases a j).mp ⟨x, ha⟩
        rw [h.distinct a i j x' w ha' htaken, hself, Option.some.injEq, Prod.mk.injEq] at ha
        exact ha.2
    · rw [Function.update_of_ne hjk, h.lookup]
      have hne : ∀ a, ∀ y, slots a = some (j, y) → a ≠ i := fun a y ha hai => by
        rw [hai, htaken, Option.some.injEq, Prod.mk.injEq] at ha
        exact hjk ha.1.symm
      constructor
      · rintro ⟨a, ha⟩
        exact ⟨a, by rw [hother a (hne a x ha), ha]⟩
      · rintro ⟨a, ha⟩
        obtain ⟨x', ha'⟩ := (hcases a j).mp ⟨x, ha⟩
        exact ⟨a, by rw [← hother a (hne a x' ha'), ha]⟩

/-- A key that is absent cannot be removed. -/
theorem remove_fails (habsent : m.lookup k = none) : m.remove k = (false, m) := by
  rw [BoundedMap.remove, habsent]
  rfl

end Calls

end Represents

end Lib
