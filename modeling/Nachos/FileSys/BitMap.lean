import Mathlib.Data.List.Nodup
import Nachos.FileSys.Disk

/-!
# Bitmaps

An array of bits packed in `unsigned int` words, as `BitMap` keeps it.  What
callers see of a bitmap is the increasing list of its clear bits: `numClear` is
its length, `find` takes its head and `setBit` erases one element of it.
-/

namespace Nachos
namespace FileSys

open Lib

/-- `divRoundDown(n, s)`: C division truncates toward zero. -/
def divRoundDown (n s : Int) : Int := n.tdiv s

/-- `divRoundUp(n, s)`. -/
def divRoundUp (n s : Int) : Int := n.tdiv s + if n.tmod s > 0 then 1 else 0

theorem divRoundDown_of_nonneg {n : Int} (h : 0 ≤ n) (s : Int) : divRoundDown n s = n / s :=
  Int.tdiv_eq_ediv_of_nonneg h

theorem divRoundUp_of_nonneg {n : Int} (h : 0 ≤ n) (s : Int) :
    divRoundUp n s = n / s + if n % s > 0 then 1 else 0 := by
  rw [divRoundUp, Int.tdiv_eq_ediv_of_nonneg h, Int.tmod_eq_emod_of_nonneg h]

@[simp] abbrev bitsInWord : Nat := 32

/-- Words of storage for `numBits` bits. -/
def numWords (numBits : Nat) : Nat := (divRoundUp numBits bitsInWord).toNat

theorem div_lt_numWords {i n : Nat} (h : i < n) : i / 32 < numWords n := by
  have hn : (0 : Int) ≤ n := by omega
  simp only [numWords, divRoundUp_of_nonneg hn, bitsInWord]
  split <;> omega

structure BitMap (numBits : Nat) where
  map : Fin (numWords numBits) → BitVec 32

namespace BitMap

variable {n : Nat}

/-- The mask `1 << (which % BitsInWord)`. -/
def mask (i : Nat) : BitVec 32 := 1#32 <<< (i % bitsInWord)

def word (m : BitMap n) (w : Nat) : BitVec 32 := if h : w < numWords n then m.map ⟨w, h⟩ else 0

def bit (m : BitMap n) (i : Nat) : Bool := (m.word (i / bitsInWord) &&& mask i) != 0#32

def setBit (m : BitMap n) (i : Nat) : BitMap n :=
  { map := fun w => if (w : Nat) = i / bitsInWord then m.map w ||| mask i else m.map w }

def clearBit (m : BitMap n) (i : Nat) : BitMap n :=
  { map := fun w => if (w : Nat) = i / bitsInWord then m.map w &&& ~~~mask i else m.map w }

theorem and_mask_ne_zero (x : BitVec 32) (i : Nat) :
    ((x &&& mask i) != 0#32) = x.getLsbD (i % 32) := by
  have hi : i % 32 < 32 := Nat.mod_lt _ (by decide)
  have hbit : ∀ j, j < 32 → (x &&& mask i).getLsbD j = (x.getLsbD j && decide (i % 32 = j)) := by
    intro j hj
    simp only [mask, bitsInWord, BitVec.getLsbD_and, BitVec.getLsbD_shiftLeft, BitVec.getLsbD_one]
    by_cases hij : i % 32 = j
    · simp [hij, hj]
    · have : ¬ (i % 32 ≤ j ∧ j - i % 32 = 0) := by omega
      simp only [hij, decide_false, Bool.and_false]
      by_cases hlt : j < i % 32
      · simp [hlt]
      · have : j - i % 32 ≠ 0 := by omega
        simp [this]
  cases hx : x.getLsbD (i % 32) with
  | true =>
    rw [bne_iff_ne]
    intro h0
    have := hbit (i % 32) hi
    rw [h0, hx] at this
    simp at this
  | false =>
    rw [bne_eq_false_iff_eq]
    refine BitVec.eq_of_getLsbD_eq fun j hj => ?_
    rw [hbit j hj, BitVec.getLsbD_zero]
    by_cases hij : i % 32 = j
    · subst hij
      rw [hx, Bool.false_and]
    · rw [decide_eq_false hij, Bool.and_false]

theorem bit_eq_getLsbD (m : BitMap n) (i : Nat) : m.bit i = (m.word (i / 32)).getLsbD (i % 32) :=
  and_mask_ne_zero _ _

theorem getLsbD_mask (i : Nat) {j : Nat} (hj : j < 32) : (mask i).getLsbD j = decide (i % 32 = j) := by
  simp only [mask, bitsInWord, BitVec.getLsbD_shiftLeft, BitVec.getLsbD_one, hj, decide_true,
    Bool.true_and]
  by_cases hij : i % 32 = j
  · simp [hij]
  · by_cases hlt : j < i % 32
    · simp [hlt, hij]
    · have : j - i % 32 ≠ 0 := by omega
      simp [this, hij]

theorem bit_setBit (m : BitMap n) {i j : Nat} (hj : j < n) :
    (m.setBit i).bit j = (m.bit j || decide (j = i)) := by
  have hw := div_lt_numWords hj
  have hm : j % 32 < 32 := Nat.mod_lt _ (by decide)
  simp only [bit_eq_getLsbD, word, dif_pos hw, setBit]
  by_cases hd : j / 32 = i / 32
  · rw [if_pos hd, BitVec.getLsbD_or, getLsbD_mask i hm]
    congr 1
    exact decide_eq_decide.mpr (by omega)
  · have hne : j ≠ i := fun e => hd (by rw [e])
    rw [if_neg hd, decide_eq_false hne, Bool.or_false]

theorem bit_clearBit (m : BitMap n) {i j : Nat} (hj : j < n) :
    (m.clearBit i).bit j = (m.bit j && !decide (j = i)) := by
  have hw := div_lt_numWords hj
  have hm : j % 32 < 32 := Nat.mod_lt _ (by decide)
  simp only [bit_eq_getLsbD, word, dif_pos hw, clearBit]
  by_cases hd : j / 32 = i / 32
  · rw [if_pos hd, BitVec.getLsbD_and, BitVec.getLsbD_not, getLsbD_mask i hm]
    simp only [hm, decide_true, Bool.true_and]
    congr 2
    exact decide_eq_decide.mpr (by omega)
  · have hne : j ≠ i := fun e => hd (by rw [e])
    rw [if_neg hd, decide_eq_false hne, Bool.not_false, Bool.and_true]

/-! ## The operations -/

/-- `BitMap::Mark`. -/
def mark (m : BitMap n) (which : Int) : Except Fault (BitMap n) :=
  if 0 ≤ which ∧ which < n then .ok (m.setBit which.toNat) else .error .assertFailed

/-- `BitMap::Clear`. -/
def clear (m : BitMap n) (which : Int) : Except Fault (BitMap n) :=
  if 0 ≤ which ∧ which < n then .ok (m.clearBit which.toNat) else .error .assertFailed

/-- `BitMap::Test`. -/
def test (m : BitMap n) (which : Int) : Except Fault Bool :=
  if 0 ≤ which ∧ which < n then .ok (m.bit which.toNat) else .error .assertFailed

/-- `BitMap::Find`: the first clear bit, now marked, or -1.  The loop runs over
bits in range, so the `ASSERT`s of `Test` and `Mark` hold inside it. -/
def find (m : BitMap n) : Int × BitMap n :=
  match (List.range n).find? fun i => !m.bit i with
  | some i => (i, m.setBit i)
  | none => (-1, m)

/-- `BitMap::NumClear`. -/
def numClear (m : BitMap n) : Int := (List.range n).countP fun i => !m.bit i

/-- `BitMap::BitMap`: the words as `new` left them, with each bit cleared. -/
def new (n : Nat) (junk : Block) : BitMap n :=
  (List.range n).foldl clearBit { map := fun w => BitVec.ofInt 32 (junk.int w) }

/-- The words of the map in memory. -/
def toBlock (m : BitMap n) : Block := fun k => LittleEndian.byte (m.word (k / 4)).toInt (k % 4)

def ofBlock (n : Nat) (b : Block) : BitMap n := { map := fun w => BitVec.ofInt 32 (b.int w) }

theorem ofBlock_toBlock (m : BitMap n) : ofBlock n m.toBlock = m := by
  obtain ⟨map⟩ := m
  simp only [ofBlock, mk.injEq]
  funext w
  have hfit : LittleEndian.Fits (map w).toInt :=
    ⟨by have := (map w).le_toInt; omega, by have := (map w).toInt_lt; omega⟩
  rw [Block.int_image hfit, BitVec.ofInt_toInt]
  intro k hk
  have hw : (4 * (w : Nat) + k) / 4 = w := by omega
  have hmod : (4 * (w : Nat) + k) % 4 = k := by omega
  simp only [toBlock, hw, hmod, word, w.isLt, dif_pos]

theorem ofBlock_congr {b c : Block} (h : ∀ k, k < 4 * numWords n → b k = c k) :
    ofBlock n b = ofBlock n c := by
  simp only [ofBlock, mk.injEq]
  funext w
  rw [Block.int_congr fun k hk => h _ (by have := w.isLt; omega)]

theorem bit_foldl_clearBit (l : List Nat) (m : BitMap n) {j : Nat} (hj : j < n) :
    (l.foldl clearBit m).bit j = (m.bit j && !decide (j ∈ l)) := by
  induction l generalizing m with
  | nil => simp
  | cons i rest ih =>
    rw [List.foldl_cons, ih, bit_clearBit m hj]
    by_cases hji : j = i
    · simp [hji]
    · simp [hji]

theorem bit_new (junk : Block) {j : Nat} (hj : j < n) : (new n junk).bit j = false := by
  rw [new, bit_foldl_clearBit _ _ hj]
  simp [hj]

/-! ## The clear bits -/

/-- The clear bits in increasing order. -/
def clearBits (m : BitMap n) : List Nat := (List.range n).filter fun i => !m.bit i

theorem mem_clearBits {m : BitMap n} {i : Nat} : i ∈ m.clearBits ↔ i < n ∧ m.bit i = false := by
  simp [clearBits]

theorem clearBits_congr {m m' : BitMap n} (h : ∀ i, i < n → m'.bit i = m.bit i) :
    m'.clearBits = m.clearBits :=
  List.filter_congr fun i hi => by rw [h i (List.mem_range.mp hi)]

theorem nodup_clearBits (m : BitMap n) : m.clearBits.Nodup := List.nodup_range.filter _

theorem numClear_eq (m : BitMap n) : m.numClear = m.clearBits.length := by
  rw [numClear, clearBits, List.countP_eq_length_filter]

theorem find?_eq_head? (m : BitMap n) :
    ((List.range n).find? fun i => !m.bit i) = m.clearBits.head? := by
  rw [clearBits, List.head?_filter]

theorem find_of_nil {m : BitMap n} (h : m.clearBits = []) : m.find = (-1, m) := by
  rw [find, find?_eq_head?, h]
  rfl

theorem find_of_cons {m : BitMap n} {i : Nat} {rest : List Nat} (h : m.clearBits = i :: rest) :
    m.find = ((i : Int), m.setBit i) := by
  rw [find, find?_eq_head?, h]
  rfl

/-- Marking the first clear bit leaves the others. -/
theorem clearBits_setBit {m : BitMap n} {i : Nat} {rest : List Nat} (h : m.clearBits = i :: rest) :
    (m.setBit i).clearBits = rest := by
  have hnodup := m.nodup_clearBits
  rw [h, List.nodup_cons] at hnodup
  have hset : (m.setBit i).clearBits = m.clearBits.filter fun j => !decide (j = i) := by
    simp only [clearBits, List.filter_filter]
    refine List.filter_congr fun j hj => ?_
    rw [bit_setBit m (List.mem_range.mp hj), Bool.not_or, Bool.and_comm]
  have hrest : ∀ j ∈ rest, (!decide (j = i)) = true := by
    intro j hj
    have hne : j ≠ i := fun e => hnodup.1 (e ▸ hj)
    simp [hne]
  rw [hset, h, List.filter_cons_of_neg (by simp), List.filter_eq_self.mpr hrest]

theorem mark_ok (m : BitMap n) {which : Int} (h : 0 ≤ which ∧ which < n) :
    m.mark which = .ok (m.setBit which.toNat) := if_pos h

theorem clear_ok (m : BitMap n) {which : Int} (h : 0 ≤ which ∧ which < n) :
    m.clear which = .ok (m.clearBit which.toNat) := if_pos h

theorem test_ok (m : BitMap n) {which : Int} (h : 0 ≤ which ∧ which < n) :
    m.test which = .ok (m.bit which.toNat) := if_pos h

end BitMap
end FileSys
end Nachos
