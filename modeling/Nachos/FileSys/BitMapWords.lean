import Nachos.FileSys.BitMap
import Nachos.Lib.Agreement
import Mathlib.Data.Finset.Card
import Mathlib.Data.Finset.Range
import Mathlib.Order.Bounds.Basic

/-!
# The words of a bitmap and the set of its bits

The operations of `BitMap` with each access to a word checked against `numWords`, and
with their loops.  They compute what `mark`, `clear`, `test`, `find` and `numClear` say of
the bits, and these are the operations of a set of numbers below `numBits`.
-/

namespace Nachos
namespace FileSys

open Lib

/-- A `BitMap` object.  The first `numWords` words from `map` on are its own. -/
structure BitWords where
  numBits : Int
  numWords : Int
  map : Int → BitVec 32

namespace BitWords

/-- An operation on the object. -/
abbrev Op := EStateM Fault BitWords

def assert (c : Prop) [Decidable c] : Op Unit := if c then pure () else throw .assertFailed

def getWord (w : Int) : Op (BitVec 32) := do
  let s ← get
  if 0 ≤ w ∧ w < s.numWords then return s.map w else throw .outOfBounds

def setWord (w : Int) (x : BitVec 32) : Op Unit := do
  let s ← get
  if 0 ≤ w ∧ w < s.numWords then set { s with map := fun v => if v = w then x else s.map v }
  else throw .outOfBounds

/-- `1 << (which % BitsInWord)`. -/
def shifted (which : Int) : BitVec 32 := 1#32 <<< (which.tmod bitsInWord).toNat

/-- `BitMap::Mark`. -/
def mark (which : Int) : Op Unit := do
  let s ← get
  assert (0 ≤ which ∧ which < s.numBits)
  let x ← getWord (which.tdiv bitsInWord)
  setWord (which.tdiv bitsInWord) (x ||| shifted which)

/-- `BitMap::Clear`. -/
def clear (which : Int) : Op Unit := do
  let s ← get
  assert (0 ≤ which ∧ which < s.numBits)
  let x ← getWord (which.tdiv bitsInWord)
  setWord (which.tdiv bitsInWord) (x &&& ~~~shifted which)

/-- `BitMap::Test`. -/
def test (which : Int) : Op Bool := do
  let s ← get
  assert (0 ≤ which ∧ which < s.numBits)
  let x ← getWord (which.tdiv bitsInWord)
  return (x &&& shifted which) != 0#32

/-- The loop of `Find` from `i` on, with `k` bits to go. -/
def findFrom : Nat → Int → Op Int
  | 0, _ => return -1
  | k + 1, i => do
    if ← test i then findFrom k (i + 1)
    else
      mark i
      return i

/-- `BitMap::Find`. -/
def find : Op Int := do
  let s ← get
  findFrom s.numBits.toNat 0

/-- The loop of `NumClear` from `i` on, with `k` bits to go. -/
def countFrom : Nat → Int → Int → Op Int
  | 0, _, count => return count
  | k + 1, i, count => do
    if ← test i then countFrom k (i + 1) count
    else countFrom k (i + 1) (count + 1)

/-- `BitMap::NumClear`. -/
def numClear : Op Int := do
  let s ← get
  countFrom s.numBits.toNat 0 0

/-- The loop of the constructor. -/
def clearFrom : Nat → Int → Op Unit
  | 0, _ => return
  | k + 1, i => do
    clear i
    clearFrom k (i + 1)

/-- `BitMap::BitMap`, where `new` left `garbage` in the words. -/
def construct (nitems : Int) (garbage : Int → BitVec 32) : EStateM.Result Fault BitWords Unit :=
  clearFrom nitems.toNat 0 ⟨nitems, divRoundUp nitems bitsInWord, garbage⟩

/-! ## The bits -/

/-- A bitmap of `n` bits. -/
structure OfSize (n : Nat) (s : BitWords) : Prop where
  numBits : s.numBits = n
  numWords : s.numWords = FileSys.numWords n

/-- The words of the bitmap. -/
def view (n : Nat) (s : BitWords) : BitMap n := { map := fun w => s.map w }

/-- The operation returns `a` and leaves the words of `m`. -/
def Returns {α : Type} {n : Nat} (x : Op α) (s : BitWords) (a : α) (m : BitMap n) : Prop :=
  ∃ s', x s = .ok a s' ∧ s'.OfSize n ∧ s'.view n = m

section

variable {n : Nat} {s : BitWords}

theorem Returns.pure {α : Type} (hs : s.OfSize n) (a : α) :
    Returns (Pure.pure a : Op α) s a (s.view n) := ⟨s, rfl, hs, rfl⟩

theorem Returns.bind {α β : Type} {x : Op α} {f : α → Op β} {a : α} {b : β} {m m' : BitMap n}
    (hx : Returns x s a m) (hf : ∀ s', s'.OfSize n → s'.view n = m → Returns (f a) s' b m') :
    Returns (x >>= f) s b m' := by
  obtain ⟨s', hrun, hsize, hview⟩ := hx
  obtain ⟨s'', hrun', hfinal⟩ := hf s' hsize hview
  refine ⟨s'', ?_, hfinal⟩
  rw [bind_run hrun, hrun']

theorem view_word (s : BitWords) {i : Nat} (hi : i < n) :
    (s.view n).word (i / 32) = s.map ((i / 32 : Nat) : Int) :=
  dif_pos (div_lt_numWords hi)

/-- The word of a bit in range. -/
theorem getWord_run (hs : s.OfSize n) {i : Nat} (hi : i < n) :
    getWord (Int.tdiv i bitsInWord) s = .ok ((s.view n).word (i / 32)) s := by
  have hw := div_lt_numWords hi
  have hin : (0 : Int) ≤ (i / 32 : Nat) ∧ ((i / 32 : Nat) : Int) < s.numWords := by
    rw [hs.numWords]
    omega
  rw [show Int.tdiv i bitsInWord = ((i / 32 : Nat) : Int) from rfl, view_word s hi]
  show (if _ then _ else _ : Op (BitVec 32)) s = _
  rw [if_pos hin]
  rfl

theorem setWord_run (hs : s.OfSize n) {i : Nat} (hi : i < n) (x : BitVec 32) :
    setWord (Int.tdiv i bitsInWord) x s =
      .ok () { s with map := fun v => if v = ((i / 32 : Nat) : Int) then x else s.map v } := by
  have hw := div_lt_numWords hi
  have hin : (0 : Int) ≤ (i / 32 : Nat) ∧ ((i / 32 : Nat) : Int) < s.numWords := by
    rw [hs.numWords]
    omega
  rw [show Int.tdiv i bitsInWord = ((i / 32 : Nat) : Int) from rfl]
  show (if _ then _ else _ : Op Unit) s = _
  rw [if_pos hin]
  rfl

theorem assert_run {c : Prop} [Decidable c] (h : c) (s : BitWords) : assert c s = .ok () s := by
  unfold assert
  rw [if_pos h]
  rfl

theorem test_run (hs : s.OfSize n) {i : Nat} (hi : i < n) :
    test i s = .ok ((s.view n).bit i) s := by
  have hin : (0 : Int) ≤ i ∧ (i : Int) < s.numBits := by
    rw [hs.numBits]
    omega
  unfold test
  rw [bind_run (show (get : Op BitWords) s = .ok s s from rfl), bind_run (assert_run hin s),
    bind_run (getWord_run hs hi)]
  rfl

/-- A word with some of its bits changed. -/
theorem update_returns (hs : s.OfSize n) {i : Nat} (hi : i < n) (f : BitVec 32 → BitVec 32) :
    Returns (do
      let s ← get
      assert (0 ≤ (i : Int) ∧ (i : Int) < s.numBits)
      let x ← getWord (Int.tdiv i bitsInWord)
      setWord (Int.tdiv i bitsInWord) (f x)) s ()
      { map := fun w : Fin (FileSys.numWords n) =>
          if (w : Nat) = i / bitsInWord then f ((s.view n).map w) else (s.view n).map w } := by
  have hin : (0 : Int) ≤ i ∧ (i : Int) < s.numBits := by
    rw [hs.numBits]
    omega
  refine ⟨{ s with
    map := fun v => if v = ((i / 32 : Nat) : Int) then f ((s.view n).word (i / 32)) else s.map v },
    ?_, ⟨hs.numBits, hs.numWords⟩, ?_⟩
  · rw [bind_run (show (get : Op BitWords) s = .ok s s from rfl), bind_run (assert_run hin s),
      bind_run (getWord_run hs hi), setWord_run hs hi]
  · simp only [view, BitMap.mk.injEq]
    funext w
    by_cases hw : (w : Nat) = i / 32
    · have hw' : ((w : Nat) : Int) = ((i / 32 : Nat) : Int) := by omega
      rw [if_pos hw, if_pos hw', hw']
      exact congrArg f (view_word s hi)
    · have hw' : ¬ ((w : Nat) : Int) = ((i / 32 : Nat) : Int) := by omega
      rw [if_neg hw, if_neg hw']

theorem mark_returns (hs : s.OfSize n) {i : Nat} (hi : i < n) :
    Returns (mark i) s () ((s.view n).setBit i) :=
  update_returns hs hi fun x => x ||| BitMap.mask i

theorem clear_returns (hs : s.OfSize n) {i : Nat} (hi : i < n) :
    Returns (clear i) s () ((s.view n).clearBit i) :=
  update_returns hs hi fun x => x &&& ~~~BitMap.mask i

theorem test_returns (hs : s.OfSize n) {i : Nat} (hi : i < n) :
    Returns (test i) s ((s.view n).bit i) (s.view n) := ⟨s, test_run hs hi, hs, rfl⟩

/-! ## The loops -/

theorem clearFrom_returns {k : Nat} : ∀ {i : Nat}, i + k = n → s.OfSize n →
    Returns (clearFrom k i) s () ((List.range' i k).foldl BitMap.clearBit (s.view n)) := by
  induction k generalizing s with
  | zero =>
    intro i hik hs
    exact .pure hs ()
  | succ k ih =>
    intro i hik hs
    apply Returns.bind (clear_returns hs (by omega))
    intro s' hs' hview
    have hrest := ih (i := i + 1) (by omega) hs'
    rw [hview] at hrest
    exact hrest

theorem findFrom_returns {k : Nat} : ∀ {i : Nat}, i + k = n → s.OfSize n →
    (match (List.range' i k).find? fun j => !(s.view n).bit j with
    | some j => Returns (findFrom k i) s (j : Int) ((s.view n).setBit j)
    | none => Returns (findFrom k i) s (-1) (s.view n)) := by
  induction k with
  | zero =>
    intro i hik hs
    exact .pure hs (-1)
  | succ k ih =>
    intro i hik hs
    have htest := test_run hs (show i < n by omega)
    rw [List.range'_succ]
    cases hbit : (s.view n).bit i with
    | false =>
      rw [List.find?_cons_of_pos (by rw [hbit]; rfl)]
      dsimp only
      obtain ⟨s', hmark, hs', hview⟩ := mark_returns hs (show i < n by omega)
      refine ⟨s', ?_, hs', hview⟩
      rw [findFrom, bind_run htest, hbit, if_neg Bool.false_ne_true, bind_run hmark]
      rfl
    | true =>
      have hfind : findFrom (k + 1) i s = findFrom k ((i + 1 : Nat) : Int) s := by
        rw [findFrom, bind_run htest, hbit, if_pos rfl]
        rfl
      have hrest := ih (i := i + 1) (by omega) hs
      rw [List.find?_cons_of_neg (by rw [hbit]; decide)]
      unfold Returns at hrest ⊢
      rw [hfind]
      exact hrest

theorem countFrom_run {k : Nat} : ∀ {i : Nat} {count : Int}, i + k = n → s.OfSize n →
    countFrom k i count s =
      .ok (count + (List.range' i k).countP fun j => !(s.view n).bit j) s := by
  induction k with
  | zero =>
    intro i count hik hs
    simp [countFrom]
    rfl
  | succ k ih =>
    intro i count hik hs
    rw [countFrom, bind_run (test_run hs (show i < n by omega)), List.range'_succ]
    cases hbit : (s.view n).bit i with
    | false =>
      rw [if_neg Bool.false_ne_true, List.countP_cons_of_pos (by rw [hbit]; rfl)]
      have hrest : countFrom k ((i + 1 : Nat) : Int) (count + 1) s =
          .ok (count + 1 + (List.range' (i + 1) k).countP fun j => !(s.view n).bit j) s :=
        ih (by omega) hs
      refine hrest.trans ?_
      congr 1
      omega
    | true =>
      rw [if_pos rfl, List.countP_cons_of_neg (by rw [hbit]; decide)]
      exact ih (i := i + 1) (by omega) hs

theorem find_returns (hs : s.OfSize n) :
    Returns find s (s.view n).find.1 (s.view n).find.2 := by
  have hloop := findFrom_returns (k := n) (i := 0) (Nat.zero_add n) hs
  have hfind : find s = findFrom n ((0 : Nat) : Int) s := by
    show findFrom s.numBits.toNat 0 s = _
    rw [hs.numBits]
    rfl
  unfold Returns at hloop ⊢
  rw [hfind, BitMap.find, List.range_eq_range']
  generalize (List.range' 0 n).find? (fun j => !(s.view n).bit j) = found at hloop ⊢
  cases found with
  | some j => exact hloop
  | none => exact hloop

theorem numClear_returns (hs : s.OfSize n) :
    Returns numClear s (s.view n).numClear (s.view n) := by
  have hloop : countFrom n ((0 : Nat) : Int) 0 s =
      .ok (0 + (List.range' 0 n).countP fun j => !(s.view n).bit j) s :=
    countFrom_run (Nat.zero_add n) hs
  refine ⟨s, ?_, hs, rfl⟩
  show countFrom s.numBits.toNat 0 0 s = _
  rw [hs.numBits, BitMap.numClear, List.range_eq_range']
  refine hloop.trans ?_
  congr 1
  omega

/-- The constructor clears the bits below `n`, whatever was in the words. -/
theorem construct_returns (n : Nat) (garbage : Int → BitVec 32) :
    ∃ s, construct n garbage = .ok () s ∧ s.OfSize n ∧ ∀ i < n, (s.view n).bit i = false := by
  have hwords : divRoundUp n bitsInWord = FileSys.numWords n := by
    simp only [FileSys.numWords, divRoundUp_of_nonneg (Int.natCast_nonneg n), bitsInWord]
    split <;> omega
  obtain ⟨s, hrun, hs, hview⟩ := clearFrom_returns (k := n) (i := 0)
    (s := ⟨n, divRoundUp n bitsInWord, garbage⟩) (Nat.zero_add n) ⟨rfl, hwords⟩
  refine ⟨s, hrun, hs, ?_⟩
  intro i hi
  rw [hview, ← List.range_eq_range', BitMap.bit_foldl_clearBit _ _ hi]
  simp [hi]

end

end BitWords

/-! ## The set -/

/-- The public operations of a bitmap. -/
inductive BitCall
  | mark (which : Int)
  | clear (which : Int)
  | test (which : Int)
  | find
  | numClear

inductive BitReply
  | done
  | bit (b : Bool)
  | number (z : Int)
  deriving DecidableEq, Repr

namespace BitCall

/-- The argument is the number of a bit. -/
def InRange (n : Nat) : BitCall → Prop
  | mark which => 0 ≤ which ∧ which < n
  | clear which => 0 ≤ which ∧ which < n
  | test which => 0 ≤ which ∧ which < n
  | find => True
  | numClear => True

def run : BitCall → BitWords.Op BitReply
  | mark which => do
    BitWords.mark which
    return .done
  | clear which => do
    BitWords.clear which
    return .done
  | test which => return .bit (← BitWords.test which)
  | find => return .number (← BitWords.find)
  | numClear => return .number (← BitWords.numClear)

/-- The operations one after the other, and their replies. -/
def runAll : List BitCall → BitWords.Op (List BitReply)
  | [] => return []
  | call :: rest => do
    let reply ← call.run
    return reply :: (← runAll rest)

/-- What the operations are on a set of numbers below `n`. -/
inductive Serves (n : Nat) (S : Finset Nat) : BitCall → BitReply → Finset Nat → Prop
  | mark {i : Nat} : Serves n S (mark i) .done (insert i S)
  | clear {i : Nat} : Serves n S (clear i) .done (S.erase i)
  | test {i : Nat} : Serves n S (test i) (.bit (decide (i ∈ S))) S
  | found {i : Nat} (least : IsLeast {j | j < n ∧ j ∉ S} i) :
      Serves n S find (.number i) (insert i S)
  | full (all : ∀ j < n, j ∈ S) : Serves n S find (.number (-1)) S
  | numClear : Serves n S numClear (.number (n - S.card)) S

inductive ServesAll (n : Nat) : Finset Nat → List BitCall → List BitReply → Finset Nat → Prop
  | nil {S : Finset Nat} : ServesAll n S [] [] S
  | cons {S S' S'' : Finset Nat} {call : BitCall} {reply : BitReply} {calls : List BitCall}
      {replies : List BitReply} (first : Serves n S call reply S')
      (rest : ServesAll n S' calls replies S'') :
      ServesAll n S (call :: calls) (reply :: replies) S''

end BitCall

/-- The set bits of the map are the members of `S`. -/
structure BitMap.Represents {n : Nat} (m : BitMap n) (S : Finset Nat) : Prop where
  below : ∀ i ∈ S, i < n
  bit : ∀ i < n, m.bit i = decide (i ∈ S)

namespace BitMap

variable {n : Nat} {m : BitMap n} {S : Finset Nat}

theorem Represents.setBit (h : m.Represents S) {i : Nat} (hi : i < n) :
    (m.setBit i).Represents (insert i S) := by
  constructor
  · intro j hj
    rcases Finset.mem_insert.mp hj with rfl | hj
    · exact hi
    · exact h.below j hj
  · intro j hj
    rw [bit_setBit m hj, h.bit j hj, ← Bool.decide_or]
    simp [or_comm]

theorem Represents.clearBit (h : m.Represents S) {i : Nat} :
    (m.clearBit i).Represents (S.erase i) := by
  constructor
  · intro j hj
    exact h.below j (Finset.mem_of_mem_erase hj)
  · intro j hj
    rw [bit_clearBit m hj, h.bit j hj, ← decide_not, ← Bool.decide_and]
    simp [and_comm]

theorem Represents.mem_clearBits (h : m.Represents S) {i : Nat} :
    i ∈ m.clearBits ↔ i < n ∧ i ∉ S := by
  rw [BitMap.mem_clearBits]
  apply and_congr_right
  intro hi
  rw [h.bit i hi, decide_eq_false_iff_not]

/-- The clear bits are those of the complement. -/
theorem Represents.numClear (h : m.Represents S) : m.numClear = n - S.card := by
  have hsub : S ⊆ Finset.range n := by
    intro i hi
    exact Finset.mem_range.mpr (h.below i hi)
  have hclear : m.clearBits.toFinset = Finset.range n \ S := by
    ext i
    rw [List.mem_toFinset, h.mem_clearBits, Finset.mem_sdiff, Finset.mem_range]
  have hcard : m.clearBits.length = n - S.card := by
    rw [← List.toFinset_card_of_nodup m.nodup_clearBits, hclear,
      Finset.card_sdiff_of_subset hsub, Finset.card_range]
  have hle : S.card ≤ n := by
    rw [← Finset.card_range n]
    exact Finset.card_le_card hsub
  rw [numClear_eq, hcard]
  omega

/-- The head of the clear bits is the least of them. -/
theorem Represents.isLeast (h : m.Represents S) {i : Nat} {rest : List Nat}
    (hcons : m.clearBits = i :: rest) : IsLeast {j | j < n ∧ j ∉ S} i := by
  have hsorted : (i :: rest).Pairwise (· < ·) := by
    rw [← hcons]
    exact List.pairwise_lt_range.filter _
  constructor
  · apply h.mem_clearBits.mp
    rw [hcons]
    exact List.mem_cons_self
  · intro j hj
    have hmem := h.mem_clearBits.mpr hj
    rw [hcons, List.mem_cons] at hmem
    rcases hmem with rfl | hmem
    · exact Nat.le_refl j
    · exact Nat.le_of_lt (List.rel_of_pairwise_cons hsorted hmem)

/-- `Find` on the set. -/
theorem Represents.find (h : m.Represents S) :
    ∃ S', BitCall.Serves n S .find (.number m.find.1) S' ∧ m.find.2.Represents S' := by
  cases hclear : m.clearBits with
  | nil =>
    rw [find_of_nil hclear]
    refine ⟨S, .full fun j hj => ?_, h⟩
    by_contra hmem
    have hin := h.mem_clearBits.mpr ⟨hj, hmem⟩
    rw [hclear] at hin
    exact List.not_mem_nil hin
  | cons i rest =>
    rw [find_of_cons hclear]
    have hleast := h.isLeast hclear
    exact ⟨insert i S, .found hleast, h.setBit hleast.1.1⟩

end BitMap

namespace BitCall

variable {n : Nat} {s : BitWords} {S : Finset Nat}

/-- The object holds the set in its words. -/
def Holds (n : Nat) (s : BitWords) (S : Finset Nat) : Prop :=
  s.OfSize n ∧ (s.view n).Represents S

theorem reply_of_returns {α : Type} {x : BitWords.Op α} {a : α} {m : BitMap n}
    (hx : BitWords.Returns x s a m) (hm : m.Represents S) (f : α → BitReply) :
    ∃ s', (x >>= fun a => return f a) s = .ok (f a) s' ∧ Holds n s' S := by
  obtain ⟨s', hrun, hs', rfl⟩ := hx
  refine ⟨s', ?_, hs', hm⟩
  rw [bind_run hrun]
  rfl

/-- One operation on the words is one on the set. -/
theorem run_serves (h : Holds n s S) {call : BitCall} (hcall : call.InRange n) :
    ∃ reply s' S', call.run s = .ok reply s' ∧ Serves n S call reply S' ∧ Holds n s' S' := by
  obtain ⟨hs, hbits⟩ := h
  cases call with
  | mark which =>
    obtain ⟨i, rfl⟩ := Int.eq_ofNat_of_zero_le hcall.1
    have hi : i < n := by
      have := hcall.2
      omega
    obtain ⟨s', hrun, hs'⟩ := reply_of_returns (BitWords.mark_returns hs hi) (hbits.setBit hi)
      fun _ => .done
    exact ⟨_, s', _, hrun, .mark, hs'⟩
  | clear which =>
    obtain ⟨i, rfl⟩ := Int.eq_ofNat_of_zero_le hcall.1
    have hi : i < n := by
      have := hcall.2
      omega
    obtain ⟨s', hrun, hs'⟩ := reply_of_returns (BitWords.clear_returns hs hi) hbits.clearBit
      fun _ => .done
    exact ⟨_, s', _, hrun, .clear, hs'⟩
  | test which =>
    obtain ⟨i, rfl⟩ := Int.eq_ofNat_of_zero_le hcall.1
    have hi : i < n := by
      have := hcall.2
      omega
    obtain ⟨s', hrun, hs'⟩ := reply_of_returns (BitWords.test_returns hs hi) hbits .bit
    rw [hbits.bit i hi] at hrun
    exact ⟨_, s', _, hrun, .test, hs'⟩
  | find =>
    obtain ⟨S', hserves, hfinal⟩ := hbits.find
    obtain ⟨s', hrun, hs'⟩ := reply_of_returns (BitWords.find_returns hs) hfinal .number
    exact ⟨_, s', S', hrun, hserves, hs'⟩
  | numClear =>
    obtain ⟨s', hrun, hs'⟩ := reply_of_returns (BitWords.numClear_returns hs) hbits .number
    rw [hbits.numClear] at hrun
    exact ⟨_, s', S, hrun, .numClear, hs'⟩

theorem runAll_serves {calls : List BitCall} (hcalls : ∀ call ∈ calls, call.InRange n) :
    ∀ {s : BitWords} {S : Finset Nat}, Holds n s S → ∃ replies s' S',
      runAll calls s = .ok replies s' ∧ ServesAll n S calls replies S' ∧ Holds n s' S' := by
  induction calls with
  | nil =>
    intro s S h
    exact ⟨[], s, S, rfl, .nil, h⟩
  | cons call rest ih =>
    intro s S h
    obtain ⟨reply, s₁, S₁, hrun, hserves, h₁⟩ := run_serves h (hcalls call List.mem_cons_self)
    obtain ⟨replies, s', S', hrest, hall, h'⟩ :=
      ih (fun call hcall => hcalls call (List.mem_cons_of_mem _ hcall)) h₁
    refine ⟨reply :: replies, s', S', ?_, .cons hserves hall, h'⟩
    rw [runAll, bind_run hrun, bind_run hrest]
    rfl

/-- **The bitmap is a set.**  From the constructor on, and whatever the words held before
it, the operations with arguments in range return, so that each word they read or write
is one of the bitmap's, and their replies are those of a subset of the numbers below `n`
that starts empty. -/
theorem bitmap_refines_set (n : Nat) (garbage : Int → BitVec 32) (calls : List BitCall)
    (hcalls : ∀ call ∈ calls, call.InRange n) :
    ∃ s replies s' S, BitWords.construct n garbage = .ok () s ∧
      runAll calls s = .ok replies s' ∧ ServesAll n ∅ calls replies S ∧ Holds n s' S := by
  obtain ⟨s, hrun, hs, hclear⟩ := BitWords.construct_returns n garbage
  have hempty : Holds n s ∅ := by
    refine ⟨hs, ?_, ?_⟩
    · intro i hi
      exact absurd hi (Finset.notMem_empty i)
    · intro i hi
      rw [hclear i hi]
      simp
  obtain ⟨replies, s', S, hall, hserves, hholds⟩ := runAll_serves hcalls hempty
  exact ⟨s, replies, s', S, hrun, hall, hserves, hholds⟩

/-- 33 bits, with garbage in both words. -/
theorem bitmap_refines_set_33 :
    ∃ s replies s' S, BitWords.construct 33 (fun _ => 0xdeadbeef) = .ok () s ∧
      runAll [mark 0, mark 32, find, clear 0, find, test 32, numClear] s = .ok replies s' ∧
      ServesAll 33 ∅ [mark 0, mark 32, find, clear 0, find, test 32, numClear] replies S ∧
      Holds 33 s' S := by
  apply bitmap_refines_set 33
  simp [InRange]

end BitCall
end FileSys
end Nachos
