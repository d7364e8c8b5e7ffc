import Nachos.FileSys.Disk

/-!
# The NOFF format

The header of an executable file: a magic number and three segments, ten words
in all.  The host is little-endian, so that a header in memory is read from and
written to the file as it is.
-/

namespace Nachos
namespace UserProg

open Lib LittleEndian FileSys

structure Segment where
  virtualAddr : Int
  inFileAddr : Int
  size : Int
  deriving DecidableEq

structure NoffHeader where
  noffMagic : Int
  code : Segment
  initData : Segment
  uninitData : Segment
  deriving DecidableEq

/-- `NOFFMAGIC` -/
abbrev noffMagicNumber : Int := 0xbadfad

/-- `sizeof (NoffHeader)` -/
abbrev headerSize : Nat := 40

/-- The bytes of a file, with `junk` behind them. -/
def fileBlock (file : List UInt8) (junk : Block) : Block := fun k => file.getD k (junk k)

/-- The bytes of an `int` in memory. -/
def wordBytes (x : Int) : List UInt8 := [byte x 0, byte x 1, byte x 2, byte x 3]

namespace Segment

def ofBlock (b : Block) (w : Nat) : Segment := ⟨b.int w, b.int (w + 1), b.int (w + 2)⟩

def words (s : Segment) : List Int := [s.virtualAddr, s.inFileAddr, s.size]

def Fits (s : Segment) : Prop := ∀ x ∈ s.words, LittleEndian.Fits x

theorem fits_iff (s : Segment) : s.Fits ↔ LittleEndian.Fits s.virtualAddr ∧
    LittleEndian.Fits s.inFileAddr ∧ LittleEndian.Fits s.size := by
  simp [Fits, words]

end Segment

namespace NoffHeader

/-- The header read from the start of a block. -/
def ofBlock (b : Block) : NoffHeader := ⟨b.int 0, .ofBlock b 1, .ofBlock b 4, .ofBlock b 7⟩

def words (h : NoffHeader) : List Int :=
  h.noffMagic :: (h.code.words ++ h.initData.words ++ h.uninitData.words)

/-- The header as it is written to a file. -/
def bytes (h : NoffHeader) : List UInt8 := h.words.flatMap wordBytes

/-- Every field is a 32-bit `int`. -/
def Fits (h : NoffHeader) : Prop := ∀ x ∈ h.words, LittleEndian.Fits x

theorem fits_iff (h : NoffHeader) : h.Fits ↔ LittleEndian.Fits h.noffMagic ∧ h.code.Fits ∧
    h.initData.Fits ∧ h.uninitData.Fits := by
  unfold Fits words Segment.Fits
  simp only [List.forall_mem_cons, List.forall_mem_append, and_assoc]

theorem length_bytes (h : NoffHeader) : h.bytes.length = headerSize := rfl

theorem fits_ofBlock (b : Block) : (ofBlock b).Fits := by
  intro x hx
  simp only [words, Segment.words, ofBlock, Segment.ofBlock, List.mem_cons, List.cons_append,
    List.nil_append, List.not_mem_nil, or_false] at hx
  rcases hx with rfl | rfl | rfl | rfl | rfl | rfl | rfl | rfl | rfl | rfl <;>
    exact b.fits_int _

end NoffHeader

theorem getElem?_flatMap_wordBytes (ws : List Int) (w k : Nat) (hk : k < 4) :
    (ws.flatMap wordBytes)[4 * w + k]? = ws[w]?.map fun x => byte x k := by
  induction ws generalizing w with
  | nil => rfl
  | cons x ws ih =>
    rw [List.flatMap_cons]
    cases w with
    | zero =>
      rw [List.getElem?_append_left (by show _ < 4; omega)]
      have hcases : k = 0 ∨ k = 1 ∨ k = 2 ∨ k = 3 := by omega
      rcases hcases with rfl | rfl | rfl | rfl <;> rfl
    | succ w =>
      rw [List.getElem?_append_right (by show 4 ≤ _; omega)]
      have hsub : 4 * (w + 1) + k - (wordBytes x).length = 4 * w + k := by
        show 4 * (w + 1) + k - 4 = _
        omega
      rw [hsub, ih]
      rfl

/-- A word of a file that starts with the words `ws` reads as it was written. -/
theorem int_fileBlock {ws : List Int} {body : List UInt8} {junk : Block} {w : Nat} {x : Int}
    (hw : ws[w]? = some x) (hx : LittleEndian.Fits x) :
    (fileBlock (ws.flatMap wordBytes ++ body) junk).int w = x := by
  refine Block.int_image hx fun k hk => ?_
  have hbyte : (ws.flatMap wordBytes)[4 * w + k]? = some (byte x k) := by
    rw [getElem?_flatMap_wordBytes ws w k hk, hw]
    rfl
  obtain ⟨hlt, _⟩ := List.getElem?_eq_some_iff.mp hbyte
  show List.getD _ _ _ = _
  rw [List.getD_eq_getElem?_getD, List.getElem?_append_left hlt, hbyte]
  rfl

/-- What was written as a header is read back. -/
theorem NoffHeader.ofBlock_bytes {h : NoffHeader} (hfits : h.Fits) (body : List UInt8)
    (junk : Block) : ofBlock (fileBlock (h.bytes ++ body) junk) = h := by
  have hword : ∀ w x, h.words[w]? = some x → (fileBlock (h.bytes ++ body) junk).int w = x :=
    fun w x hx => int_fileBlock hx (hfits x (List.mem_of_getElem? hx))
  simp only [ofBlock, Segment.ofBlock, hword 0 _ rfl, hword 1 _ rfl, hword (1 + 1) _ rfl,
    hword (1 + 2) _ rfl, hword 4 _ rfl, hword (4 + 1) _ rfl, hword (4 + 2) _ rfl, hword 7 _ rfl,
    hword (7 + 1) _ rfl, hword (7 + 2) _ rfl]

end UserProg
end Nachos
