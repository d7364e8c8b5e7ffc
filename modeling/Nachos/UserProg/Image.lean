import Mathlib.Algebra.Order.BigOperators.Group.List
import Mathlib.Data.List.Pairwise
import Nachos.Lib.Intervals
import Nachos.UserProg.AddrSpace
import Nachos.UserProg.Coff2noff

/-!
# From COFF to memory

A program that `coff2noff` has converted and `AddrSpace` has loaded is in memory as
the COFF file describes it.
-/

namespace Nachos
namespace UserProg

open Lib LittleEndian FileSys Machine

/-! ## Kinds of sections -/

inductive Kind
  | empty | text | data | bss | other
  deriving DecidableEq

/-- A section that has a place in memory. -/
def Kind.Placed : Kind → Prop
  | .text | .data | .bss => True
  | .empty | .other => False

/-- A section that is copied from the file. -/
def Kind.Copied : Kind → Prop
  | .text | .data => True
  | .empty | .bss | .other => False

instance (k : Kind) : Decidable k.Placed := by cases k <;> unfold Kind.Placed <;> infer_instance

instance (k : Kind) : Decidable k.Copied := by cases k <;> unfold Kind.Copied <;> infer_instance

theorem Kind.Copied.placed {k : Kind} (h : k.Copied) : k.Placed := by
  cases k <;> trivial

def Scnhdr.kind (s : Scnhdr) : Kind :=
  if s.sSize = 0 then .empty
  else if s.sName = ".text".toList then .text
  else if s.sName = ".data".toList ∨ s.sName = ".rdata".toList then .data
  else if s.sName = ".bss".toList ∨ s.sName = ".sbss".toList then .bss
  else .other

/-- The end of a section in memory. -/
def Scnhdr.last (s : Scnhdr) : Int := s.sPaddr + s.sSize

/-- Two sections do not overlap. -/
def Scnhdr.Apart (s t : Scnhdr) : Prop := s.last ≤ t.sPaddr ∨ t.last ≤ s.sPaddr

instance : Std.Symm Scnhdr.Apart := ⟨fun _ _ => Or.symm⟩

def ofKind (ss : List Scnhdr) (k : Kind) : List Scnhdr := ss.filter (·.kind = k)

/-- The sections lie in memory as the linker script lays them out: there is at most
one of program text, they tile the first `total` bytes, and those for uninitialised
data come last and in order. -/
structure LaidOut (ss : List Scnhdr) (total : Nat) : Prop where
  text : (ofKind ss .text).length ≤ 1
  within : ∀ s ∈ ss, s.kind.Placed → 0 < s.sSize ∧ 0 ≤ s.sPaddr ∧ s.last ≤ total
  apart : (ss.filter (·.kind.Placed)).Pairwise Scnhdr.Apart
  covers : ∀ a : Nat, a < total → ∃ s ∈ ss, s.kind.Placed ∧ s.sPaddr ≤ a ∧ a < s.last
  bssLast : ∀ s ∈ ss, ∀ t ∈ ss, s.kind.Copied → t.kind = .bss → s.last ≤ t.sPaddr
  bssOrdered : (ofKind ss .bss).Pairwise fun s t => s.sPaddr < t.sPaddr

/-- The byte at an offset of a file. -/
def byteAt (file : List UInt8) (offset : Int) : Option UInt8 :=
  if 0 ≤ offset then file[offset.toNat]? else none

/-- Memory after bytes were stored in it. -/
def store (m : Int → UInt8) : List (Int × UInt8) → Int → UInt8
  | [] => m
  | w :: stored => store (Function.update m w.1 w.2) stored

/-- Memory that was zero, with the program loaded. -/
def AddrSpace.mainMemory (space : AddrSpace) : Int → UInt8 := store (fun _ => 0) space.stored

/-- A section is in memory as the file has it. -/
def AddrSpace.Shows (space : AddrSpace) (coff : List UInt8) (s : Scnhdr) : Prop :=
  ∀ k : Nat, (k : Int) < s.sSize →
    (s.kind.Copied → byteAt coff (s.sScnptr + k) = some (space.mainMemory (s.sPaddr + k))) ∧
    (s.kind = .bss → space.mainMemory (s.sPaddr + k) = 0)

/-! ## Sums of sizes -/

def sizeOf (ss : List Scnhdr) (k : Kind) : Int := ((ofKind ss k).map Scnhdr.sSize).sum

theorem ofKind_append (ss ts : List Scnhdr) (k : Kind) :
    ofKind (ss ++ ts) k = ofKind ss k ++ ofKind ts k := List.filter_append ..

theorem ofKind_singleton {s : Scnhdr} {k : Kind} (h : s.kind = k) : ofKind [s] k = [s] :=
  List.filter_cons_of_pos (decide_eq_true h)

theorem ofKind_singleton_ne {s : Scnhdr} {k : Kind} (h : s.kind ≠ k) : ofKind [s] k = [] :=
  List.filter_cons_of_neg (by simpa using h)

theorem sizeOf_append (ss ts : List Scnhdr) (k : Kind) :
    sizeOf (ss ++ ts) k = sizeOf ss k + sizeOf ts k := by
  unfold sizeOf
  rw [ofKind_append, List.map_append, List.sum_append]

theorem sizeOf_singleton {s : Scnhdr} {k : Kind} (h : s.kind = k) : sizeOf [s] k = s.sSize := by
  unfold sizeOf
  rw [ofKind_singleton h]
  exact Int.add_zero _

theorem sizeOf_singleton_ne {s : Scnhdr} {k : Kind} (h : s.kind ≠ k) : sizeOf [s] k = 0 := by
  unfold sizeOf
  rw [ofKind_singleton_ne h]
  rfl

/-- The sections that have a place in memory are together as long as they are by
kind. -/
theorem sum_placed (ss : List Scnhdr) :
    ((ss.filter (·.kind.Placed)).map Scnhdr.sSize).sum =
      sizeOf ss .text + sizeOf ss .data + sizeOf ss .bss := by
  induction ss with
  | nil => rfl
  | cons s ss ih =>
    have hcons : ∀ k, sizeOf (s :: ss) k = sizeOf [s] k + sizeOf ss k :=
      fun k => sizeOf_append [s] ss k
    rw [hcons, hcons, hcons]
    by_cases hplaced : s.kind.Placed
    · have hfilter : (s :: ss).filter (fun s => decide s.kind.Placed) =
          s :: ss.filter (fun s => decide s.kind.Placed) :=
        List.filter_cons_of_pos (decide_eq_true hplaced)
      rw [hfilter, List.map_cons, List.sum_cons, ih]
      cases hkind : s.kind with
      | empty => rw [hkind] at hplaced; exact absurd hplaced not_false
      | other => rw [hkind] at hplaced; exact absurd hplaced not_false
      | text =>
        rw [sizeOf_singleton hkind, sizeOf_singleton_ne (by rw [hkind]; nofun),
          sizeOf_singleton_ne (by rw [hkind]; nofun)]
        omega
      | data =>
        rw [sizeOf_singleton hkind, sizeOf_singleton_ne (k := .text) (by rw [hkind]; nofun),
          sizeOf_singleton_ne (k := .bss) (by rw [hkind]; nofun)]
        omega
      | bss =>
        rw [sizeOf_singleton hkind, sizeOf_singleton_ne (k := .text) (by rw [hkind]; nofun),
          sizeOf_singleton_ne (k := .data) (by rw [hkind]; nofun)]
        omega
    · have hfilter : (s :: ss).filter (fun s => decide s.kind.Placed) =
          ss.filter (fun s => decide s.kind.Placed) :=
        List.filter_cons_of_neg (by simpa using hplaced)
      rw [hfilter, ih]
      have hzero : ∀ k : Kind, k.Placed → sizeOf [s] k = 0 :=
        fun k hk => sizeOf_singleton_ne fun hkind => hplaced (hkind ▸ hk)
      rw [hzero .text trivial, hzero .data trivial, hzero .bss trivial]
      omega

/-! ## The loop over the sections -/

theorem read_ok {coff bytes : List UInt8} {pos pos' : Nat} {nBytes : Int}
    (h : read coff pos nBytes = .ok (bytes, pos')) (hn : 0 ≤ nBytes) :
    bytes = (coff.drop pos).take nBytes.toNat ∧ (bytes.length : Int) = nBytes := by
  unfold read at h
  simp only [if_neg (not_lt.mpr hn)] at h
  by_cases hcount : ((((coff.drop pos).take nBytes.toNat).length : Nat) : Int) ≠ nBytes
  · rw [if_pos hcount] at h
    cases h
  · rw [if_neg hcount] at h
    cases h
    exact ⟨rfl, not_not.mp hcount⟩

/-- The segment describes the bytes of the section in the body of the file. -/
structure Describes (coff body : List UInt8) (g : Segment) (s : Scnhdr) : Prop where
  virtualAddr : g.virtualAddr = s.sPaddr
  size : g.size = s.sSize
  start : headerSize ≤ g.inFileAddr
  inBody : g.inFileAddr - headerSize + s.sSize ≤ body.length
  bytes : 0 ≤ s.sScnptr → ∀ k : Nat, (k : Int) < s.sSize →
    body[(g.inFileAddr - headerSize).toNat + k]? = coff[s.sScnptr.toNat + k]?

theorem Describes.append {coff body : List UInt8} {g : Segment} {s : Scnhdr}
    (h : Describes coff body g s) (more : List UInt8) : Describes coff (body ++ more) g s := by
  have hstart := h.start
  have hin := h.inBody
  refine { h with inBody := ?_, bytes := fun hptr k hk => ?_ }
  · rw [List.length_append]
    omega
  · rw [List.getElem?_append_left (by omega)]
    exact h.bytes hptr k hk

/-- The segment for the sections of one kind, of which there is at most one. -/
def Segment.For (coff body : List UInt8) (g : Segment) (ss : List Scnhdr) : Prop :=
  (ss = [] ∧ g.size = 0) ∨ ∃ s, ss = [s] ∧ 0 < s.sSize ∧ Describes coff body g s

theorem Segment.For.append {coff body : List UInt8} {g : Segment} {ss : List Scnhdr}
    (h : g.For coff body ss) (more : List UInt8) : g.For coff (body ++ more) ss := by
  rcases h with h | ⟨s, hs, hpos, hdescribes⟩
  · exact .inl h
  · exact .inr ⟨s, hs, hpos, hdescribes.append more⟩

/-- What the loop has made of the sections `done`. -/
structure Converted (coff : List UInt8) (done : List Scnhdr) (l : Loop) : Prop where
  magic : l.noffH.noffMagic = noffMagicNumber
  fits : l.noffH.Fits
  inNoffFile : l.inNoffFile = headerSize + l.body.length
  length : (l.body.length : Int) = sizeOf done .text + sizeOf done .data
  code : l.noffH.code.For coff l.body (ofKind done .text)
  initData : l.noffH.initData.For coff l.body (ofKind done .data)
  uninitData : l.noffH.uninitData.size = sizeOf done .bss

/-- What is known of the sections so far. -/
structure Bounded (ss : List Scnhdr) : Prop where
  text : (ofKind ss .text).length ≤ 1
  positive : ∀ s ∈ ss, s.kind.Placed → 0 < s.sSize
  fits : ∀ s ∈ ss, LittleEndian.Fits s.sPaddr ∧ LittleEndian.Fits s.sSize
  sum : sizeOf ss .text + sizeOf ss .data + sizeOf ss .bss ≤ memorySize

variable {coff : List UInt8} {done : List Scnhdr} {l l' : Loop} {s : Scnhdr}

theorem Loop.copy_ok {g : Segment} (h : l.copy coff s = .ok (g, l'))
    (hposition : l.inNoffFile = headerSize + l.body.length) (hpos : 0 < s.sSize)
    (hfits : headerSize + l.body.length + s.sSize < 2147483648) :
    ∃ bytes, (bytes.length : Int) = s.sSize ∧ g = ⟨s.sPaddr, l.inNoffFile, s.sSize⟩ ∧
      l'.noffH = l.noffH ∧ l'.body = l.body ++ bytes ∧
      l'.inNoffFile = headerSize + l'.body.length ∧ Describes coff l'.body g s := by
  unfold Loop.copy at h
  cases hread : read coff (lseek l.pos s.sScnptr) s.sSize with
  | error e => rw [hread] at h; cases h
  | ok result =>
    obtain ⟨bytes, pos⟩ := result
    rw [hread] at h
    cases h
    obtain ⟨hbytes, hlength⟩ := read_ok hread hpos.le
    have hnext : wrap (l.inNoffFile + s.sSize) = l.inNoffFile + s.sSize :=
      wrap_of_fits ⟨by rw [hposition]; omega, by rw [hposition]; omega⟩
    have hbody : ((l.body ++ bytes).length : Int) = l.body.length + s.sSize := by
      rw [List.length_append, Int.natCast_add, hlength]
    refine ⟨bytes, hlength, rfl, rfl, rfl, ?_, rfl, rfl, ?_, ?_, fun hptr k hk => ?_⟩
    · show wrap (l.inNoffFile + s.sSize) = headerSize + ((l.body ++ bytes).length : Int)
      rw [hnext, hbody, hposition]
      omega
    · show _ ≤ l.inNoffFile
      rw [hposition]
      omega
    · show l.inNoffFile - headerSize + s.sSize ≤ ((l.body ++ bytes).length : Int)
      rw [hbody, hposition]
      omega
    · have hoff : (l.inNoffFile - headerSize).toNat = l.body.length := by
        rw [hposition]
        omega
      show (l.body ++ bytes)[(l.inNoffFile - headerSize).toNat + k]? = _
      rw [hoff, List.getElem?_append_right (Nat.le_add_right _ _), Nat.add_sub_cancel_left, hbytes,
        List.getElem?_take, if_pos (by omega), List.getElem?_drop, lseek, if_neg (by omega)]

theorem Bounded.sizeOf_nonneg {ss : List Scnhdr} (h : Bounded ss) {k : Kind} (hk : k.Placed) :
    0 ≤ sizeOf ss k := by
  refine List.sum_nonneg fun x hx => ?_
  obtain ⟨s, hs, rfl⟩ := List.mem_map.mp hx
  obtain ⟨hmem, hkind⟩ := List.mem_filter.mp hs
  exact (h.positive s hmem (of_decide_eq_true hkind ▸ hk)).le

/-- A section that is not copied. -/
theorem Converted.skip (h : Converted coff done l) (hkind : ¬ s.kind.Placed) :
    Converted coff (done ++ [s]) l := by
  have hnone : ∀ k : Kind, k.Placed → ofKind (done ++ [s]) k = ofKind done k := by
    intro k hk
    rw [ofKind_append, ofKind_singleton_ne fun heq => hkind (heq ▸ hk), List.append_nil]
  have hsize : ∀ k : Kind, k.Placed → sizeOf (done ++ [s]) k = sizeOf done k := by
    intro k hk
    unfold sizeOf
    rw [hnone k hk]
  refine ⟨h.magic, h.fits, h.inNoffFile, ?_, ?_, ?_, ?_⟩
  · rw [hsize .text trivial, hsize .data trivial]
    exact h.length
  · rw [hnone .text trivial]
    exact h.code
  · rw [hnone .data trivial]
    exact h.initData
  · rw [hsize .bss trivial]
    exact h.uninitData

/-- The body with a copied section behind it still fits. -/
theorem Converted.fits_append (h : Converted coff done l) (hb : Bounded (done ++ [s]))
    (hkind : s.kind.Copied) : headerSize + l.body.length + s.sSize < 2147483648 := by
  have hsum := hb.sum
  have hbss := hb.sizeOf_nonneg (k := .bss) trivial
  have hlength := h.length
  rw [sizeOf_append, sizeOf_append] at hsum
  have hmemory : (memorySize : Int) = 8192 := rfl
  cases hk : s.kind with
  | text =>
    rw [sizeOf_singleton hk, sizeOf_singleton_ne (k := .data) (by rw [hk]; nofun)] at hsum
    simp only [headerSize]
    omega
  | data =>
    rw [sizeOf_singleton hk, sizeOf_singleton_ne (k := .text) (by rw [hk]; nofun)] at hsum
    simp only [headerSize]
    omega
  | empty => rw [hk] at hkind; exact absurd hkind not_false
  | bss => rw [hk] at hkind; exact absurd hkind not_false
  | other => rw [hk] at hkind; exact absurd hkind not_false

/-- The round of the loop by the kind of the section. -/
theorem Loop.copySection_eq : l.copySection coff s = match s.kind with
    | .empty => pure l
    | .text => do
      let (code, l) ← l.copy coff s
      return { l with noffH := { l.noffH with code } }
    | .data =>
      if l.noffH.initData.size ≠ 0 then throw "Can't handle both data and rdata\n"
      else do
        let (initData, l) ← l.copy coff s
        return { l with noffH := { l.noffH with initData } }
    | .bss =>
      let uninitData := l.noffH.uninitData
      if uninitData.size ≠ 0 then
        if s.sPaddr > wrap (uninitData.virtualAddr + uninitData.size) then
          throw "Can't handle both bss and sbss\n"
        else pure { l with noffH := { l.noffH with
          uninitData := { uninitData with size := wrap (uninitData.size + s.sSize) } } }
      else pure { l with noffH := { l.noffH with uninitData := ⟨s.sPaddr, -1, s.sSize⟩ } }
    | .other =>
      if s.sName = ".drop".toList then pure l
      else if s.sName.take 6 = ".debug".toList then pure l
      else throw ("Unknown segment type: " ++ String.ofList s.sName ++ "\n") := by
  unfold copySection Scnhdr.kind
  by_cases hempty : s.sSize = 0
  · rw [if_pos hempty, if_pos hempty]
  · by_cases htext : s.sName = ".text".toList
    · rw [if_neg hempty, if_pos htext, if_neg hempty, if_pos htext]
    · by_cases hdata : s.sName = ".data".toList ∨ s.sName = ".rdata".toList
      · rw [if_neg hempty, if_neg htext, if_pos hdata, if_neg hempty, if_neg htext, if_pos hdata]
      · by_cases hbss : s.sName = ".bss".toList ∨ s.sName = ".sbss".toList
        · rw [if_neg hempty, if_neg htext, if_neg hdata, if_pos hbss, if_neg hempty,
            if_neg htext, if_neg hdata, if_pos hbss]
        · rw [if_neg hempty, if_neg htext, if_neg hdata, if_neg hbss, if_neg hempty,
            if_neg htext, if_neg hdata, if_neg hbss]

/-- A copied section is one of text or data, and its segment becomes that of the
header. -/
theorem Loop.copySection_copied (hstep : l.copySection coff s = .ok l') (hkind : s.kind.Copied) :
    ∃ g l₁, l.copy coff s = .ok (g, l₁) ∧
      ((s.kind = .text ∧ l' = { l₁ with noffH := { l₁.noffH with code := g } }) ∨
        (s.kind = .data ∧ l.noffH.initData.size = 0 ∧
          l' = { l₁ with noffH := { l₁.noffH with initData := g } })) := by
  rw [copySection_eq] at hstep
  cases hk : s.kind with
  | text =>
    rw [hk] at hstep
    cases hcopy : l.copy coff s with
    | error e => rw [hcopy] at hstep; cases hstep
    | ok result =>
      rw [hcopy] at hstep
      cases hstep
      exact ⟨_, _, rfl, .inl ⟨rfl, rfl⟩⟩
  | data =>
    rw [hk] at hstep
    by_cases hsize : l.noffH.initData.size ≠ 0
    · simp only [if_pos hsize] at hstep
      cases hstep
    · simp only [if_neg hsize] at hstep
      cases hcopy : l.copy coff s with
      | error e => rw [hcopy] at hstep; cases hstep
      | ok result =>
        rw [hcopy] at hstep
        cases hstep
        exact ⟨_, _, rfl, .inr ⟨rfl, not_not.mp hsize, rfl⟩⟩
  | empty => rw [hk] at hkind; exact absurd hkind not_false
  | bss => rw [hk] at hkind; exact absurd hkind not_false
  | other => rw [hk] at hkind; exact absurd hkind not_false

theorem Segment.For.nil_of_size {body : List UInt8} {g : Segment} {ss : List Scnhdr}
    (h : g.For coff body ss) (hsize : g.size = 0) : ss = [] := by
  rcases h with ⟨hnil, _⟩ | ⟨t, _, hpos, hdescribes⟩
  · exact hnil
  · rw [hdescribes.size] at hsize
    omega

theorem Converted.copied (h : Converted coff done l) (hstep : l.copySection coff s = .ok l')
    (hb : Bounded (done ++ [s])) (hkind : s.kind.Copied) : Converted coff (done ++ [s]) l' := by
  have hmem : s ∈ done ++ [s] := List.mem_append_right _ List.mem_cons_self
  have hpos := hb.positive s hmem hkind.placed
  have hfits := h.fits_append hb hkind
  obtain ⟨g, l₁, hcopy, hcase⟩ := Loop.copySection_copied hstep hkind
  obtain ⟨bytes, hlength, hg, hnoffH, hbody, hposition, hdescribes⟩ :=
    Loop.copy_ok hcopy h.inNoffFile hpos hfits
  have hgfits : g.Fits := by
    obtain ⟨haddr, hsize⟩ := hb.fits s hmem
    have hinFile : LittleEndian.Fits l.inNoffFile := by
      rw [h.inNoffFile]
      exact ⟨by omega, by omega⟩
    rw [hg]
    exact (Segment.fits_iff _).mpr ⟨haddr, hinFile, hsize⟩
  obtain ⟨hmagic, hcode, hdata, hbss⟩ := (NoffHeader.fits_iff _).mp h.fits
  have hlen := h.length
  have hbodyLength : (l₁.body.length : Int) = l.body.length + s.sSize := by
    rw [hbody, List.length_append, Int.natCast_add, hlength]
  rcases hcase with ⟨hk, rfl⟩ | ⟨hk, hsize, rfl⟩
  · have hnil : ofKind done .text = [] := by
      have hone := hb.text
      rw [ofKind_append, ofKind_singleton hk, List.length_append, List.length_singleton] at hone
      exact List.eq_nil_of_length_eq_zero (by omega)
    have hne : s.kind ≠ .data ∧ s.kind ≠ .bss := by rw [hk]; decide
    refine ⟨?_, (NoffHeader.fits_iff _).mpr ⟨?_, hgfits, ?_, ?_⟩, hposition, ?_, ?_, ?_, ?_⟩
    · exact hnoffH ▸ h.magic
    · exact hnoffH ▸ hmagic
    · exact hnoffH ▸ hdata
    · exact hnoffH ▸ hbss
    · rw [sizeOf_append, sizeOf_append, sizeOf_singleton hk, sizeOf_singleton_ne hne.1]
      show (l₁.body.length : Int) = _
      omega
    · rw [ofKind_append, hnil, ofKind_singleton hk]
      exact .inr ⟨s, rfl, hpos, hdescribes⟩
    · rw [ofKind_append, ofKind_singleton_ne hne.1, List.append_nil]
      show l₁.noffH.initData.For coff l₁.body _
      rw [hnoffH, hbody]
      exact h.initData.append bytes
    · rw [sizeOf_append, sizeOf_singleton_ne hne.2, Int.add_zero]
      show l₁.noffH.uninitData.size = _
      rw [hnoffH]
      exact h.uninitData
  · have hnil : ofKind done .data = [] := h.initData.nil_of_size hsize
    have hne : s.kind ≠ .text ∧ s.kind ≠ .bss := by rw [hk]; decide
    refine ⟨?_, (NoffHeader.fits_iff _).mpr ⟨?_, ?_, hgfits, ?_⟩, hposition, ?_, ?_, ?_, ?_⟩
    · exact hnoffH ▸ h.magic
    · exact hnoffH ▸ hmagic
    · exact hnoffH ▸ hcode
    · exact hnoffH ▸ hbss
    · rw [sizeOf_append, sizeOf_append, sizeOf_singleton hk, sizeOf_singleton_ne hne.1]
      show (l₁.body.length : Int) = _
      omega
    · rw [ofKind_append, ofKind_singleton_ne hne.1, List.append_nil]
      show l₁.noffH.code.For coff l₁.body _
      rw [hnoffH, hbody]
      exact h.code.append bytes
    · rw [ofKind_append, hnil, ofKind_singleton hk]
      exact .inr ⟨s, rfl, hpos, hdescribes⟩
    · rw [sizeOf_append, sizeOf_singleton_ne hne.2, Int.add_zero]
      show l₁.noffH.uninitData.size = _
      rw [hnoffH]
      exact h.uninitData

/-- The header of a file with another segment for uninitialised data. -/
theorem Converted.bss_of_size (h : Converted coff done l) {g : Segment} (hg : g.Fits)
    (hkind : s.kind = .bss) (hsize : g.size = l.noffH.uninitData.size + s.sSize) :
    Converted coff (done ++ [s]) { l with noffH := { l.noffH with uninitData := g } } := by
  have hne : s.kind ≠ .text ∧ s.kind ≠ .data := by rw [hkind]; decide
  obtain ⟨hmagic, hcode, hdata, _⟩ := (NoffHeader.fits_iff _).mp h.fits
  refine ⟨h.magic, (NoffHeader.fits_iff _).mpr ⟨hmagic, hcode, hdata, hg⟩, h.inNoffFile, ?_, ?_,
    ?_, ?_⟩
  · rw [sizeOf_append, sizeOf_append, sizeOf_singleton_ne hne.1, sizeOf_singleton_ne hne.2,
      Int.add_zero, Int.add_zero]
    exact h.length
  · rw [ofKind_append, ofKind_singleton_ne hne.1, List.append_nil]
    exact h.code
  · rw [ofKind_append, ofKind_singleton_ne hne.2, List.append_nil]
    exact h.initData
  · rw [sizeOf_append, sizeOf_singleton hkind, ← h.uninitData]
    exact hsize

theorem Converted.bss (h : Converted coff done l) (hstep : l.copySection coff s = .ok l')
    (hb : Bounded (done ++ [s])) (hkind : s.kind = .bss) : Converted coff (done ++ [s]) l' := by
  have hmem : s ∈ done ++ [s] := List.mem_append_right _ List.mem_cons_self
  obtain ⟨haddr, hfits⟩ := hb.fits s hmem
  obtain ⟨_, _, _, hbss⟩ := (NoffHeader.fits_iff _).mp h.fits
  have hsum : LittleEndian.Fits (l.noffH.uninitData.size + s.sSize) := by
    have hsum := hb.sum
    have htext := hb.sizeOf_nonneg (k := .text) trivial
    have hdata := hb.sizeOf_nonneg (k := .data) trivial
    have hnonneg := hb.sizeOf_nonneg (k := .bss) trivial
    have hmemory : (memorySize : Int) = 8192 := rfl
    have hsize : sizeOf (done ++ [s]) .bss = l.noffH.uninitData.size + s.sSize := by
      rw [sizeOf_append, sizeOf_singleton hkind, h.uninitData]
    rw [← hsize]
    exact ⟨by omega, by omega⟩
  rw [Loop.copySection_eq, hkind] at hstep
  by_cases hsize : l.noffH.uninitData.size ≠ 0
  · simp only [if_pos hsize] at hstep
    by_cases hgap : s.sPaddr >
        wrap (l.noffH.uninitData.virtualAddr + l.noffH.uninitData.size)
    · rw [if_pos hgap] at hstep
      cases hstep
    · rw [if_neg hgap] at hstep
      cases hstep
      obtain ⟨hvirtual, hinFile, _⟩ := (Segment.fits_iff _).mp hbss
      rw [wrap_of_fits hsum]
      exact h.bss_of_size ((Segment.fits_iff _).mpr ⟨hvirtual, hinFile, hsum⟩) hkind rfl
  · simp only [if_neg hsize] at hstep
    cases hstep
    have hnone : LittleEndian.Fits (-1) := ⟨by decide, by decide⟩
    refine h.bss_of_size ((Segment.fits_iff _).mpr ⟨haddr, hnone, hfits⟩) hkind ?_
    rw [not_not.mp hsize, Int.zero_add]

theorem Converted.step (h : Converted coff done l) (hstep : l.copySection coff s = .ok l')
    (hb : Bounded (done ++ [s])) : Converted coff (done ++ [s]) l' := by
  cases hk : s.kind with
  | text => exact h.copied hstep hb (by rw [hk]; trivial)
  | data => exact h.copied hstep hb (by rw [hk]; trivial)
  | bss => exact h.bss hstep hb hk
  | empty =>
    rw [Loop.copySection_eq, hk] at hstep
    cases hstep
    exact h.skip (by rw [hk]; exact not_false)
  | other =>
    rw [Loop.copySection_eq, hk] at hstep
    dsimp only at hstep
    have hskip : Converted coff (done ++ [s]) l := h.skip (by rw [hk]; exact not_false)
    split at hstep
    · cases hstep
      exact hskip
    · split at hstep
      · cases hstep
        exact hskip
      · cases hstep

theorem Bounded.left {ss ts : List Scnhdr} (h : Bounded (ss ++ ts)) : Bounded ss := by
  have hts : ∀ {k : Kind}, k.Placed → 0 ≤ sizeOf ts k := by
    intro k hk
    refine List.sum_nonneg fun x hx => ?_
    obtain ⟨s, hs, rfl⟩ := List.mem_map.mp hx
    obtain ⟨hmem, hkind⟩ := List.mem_filter.mp hs
    exact (h.positive s (List.mem_append_right _ hmem) (of_decide_eq_true hkind ▸ hk)).le
  have htext := hts (k := .text) trivial
  have hdata := hts (k := .data) trivial
  have hbss := hts (k := .bss) trivial
  have hone := h.text
  have hsum := h.sum
  rw [ofKind_append, List.length_append] at hone
  rw [sizeOf_append, sizeOf_append, sizeOf_append] at hsum
  exact ⟨by omega, fun s hs => h.positive s (List.mem_append_left _ hs),
    fun s hs => h.fits s (List.mem_append_left _ hs), by omega⟩

theorem Converted.loop {ss : List Scnhdr} (h : Converted coff done l)
    (hloop : ss.foldlM (Loop.copySection coff) l = .ok l') (hb : Bounded (done ++ ss)) :
    Converted coff (done ++ ss) l' := by
  induction ss generalizing done l with
  | nil =>
    cases hloop
    rwa [List.append_nil]
  | cons s ss ih =>
    rw [List.foldlM_cons] at hloop
    rw [List.append_cons] at hb ⊢
    cases hstep : l.copySection coff s with
    | error e => rw [hstep] at hloop; cases hloop
    | ok l₁ =>
      rw [hstep] at hloop
      exact ih (h.step hstep hb.left) hloop hb

theorem Converted.start (coff : List UInt8) (junk : Block) (pos : Nat) :
    Converted coff [] ⟨newHeader junk, headerSize, [], pos⟩ := by
  have hjunk := NoffHeader.fits_ofBlock junk
  obtain ⟨_, hcode, hdata, hbss⟩ := (NoffHeader.fits_iff _).mp hjunk
  have hzero : ∀ {g : Segment}, g.Fits → Segment.Fits { g with size := 0 } := by
    intro g hg
    obtain ⟨hvirtual, hinFile, _⟩ := (Segment.fits_iff g).mp hg
    have hempty : LittleEndian.Fits 0 := ⟨by decide, by decide⟩
    exact (Segment.fits_iff _).mpr ⟨hvirtual, hinFile, hempty⟩
  refine ⟨rfl, (NoffHeader.fits_iff _).mpr ⟨?_, hzero hcode, hzero hdata, hzero hbss⟩, rfl, rfl,
    .inl ⟨rfl, rfl⟩, .inl ⟨rfl, rfl⟩, rfl⟩
  show LittleEndian.Fits noffMagicNumber
  exact ⟨by decide, by decide⟩

/-- The file is a header that describes the sections, and a body that holds them. -/
theorem converted_of_coff2noff {noff : List UInt8} {junk : Block}
    (h : coff2noff junk coff = .ok noff) (hb : Bounded (sections coff)) :
    ∃ l, noff = l.noffH.bytes ++ l.body ∧ Converted coff (sections coff) l := by
  unfold coff2noff at h
  cases hfile : read coff 0 filehdrSize with
  | error e => rw [hfile] at h; cases h
  | ok file =>
    simp only [hfile, bind, Except.bind] at h
    split at h
    · cases h
    cases hsystem : read coff file.2 aouthdrSize with
    | error e => rw [hsystem] at h; cases h
    | ok system =>
      simp only [hsystem] at h
      split at h
      · cases h
      split at h
      · cases h
      rename_i headers _
      split at h
      · cases h
      · rename_i l hloop
        cases h
        have hstart := Converted.start coff junk headers.2
        exact ⟨l, rfl, hstart.loop hloop hb⟩

/-! ## The sections in memory -/

theorem LaidOut.sum_le {ss : List Scnhdr} {total : Nat} (h : LaidOut ss total) :
    sizeOf ss .text + sizeOf ss .data + sizeOf ss .bss ≤ total := by
  have happart : ((ss.filter (·.kind.Placed)).map fun s => (s.sPaddr, s.sSize)).Pairwise
      Intervals.Apart := List.pairwise_map.mpr h.apart
  have hwithin : ∀ i ∈ (ss.filter (·.kind.Placed)).map fun s => (s.sPaddr, s.sSize),
      Intervals.Within 0 total i := by
    intro i hi
    obtain ⟨s, hs, rfl⟩ := List.mem_map.mp hi
    obtain ⟨hmem, hkind⟩ := List.mem_filter.mp hs
    obtain ⟨hpos, hlo, hhi⟩ := h.within s hmem (of_decide_eq_true hkind)
    exact ⟨hlo, hhi, hpos.le⟩
  have hsum := Intervals.sum_le happart hwithin (Int.natCast_nonneg total)
  rw [List.map_map] at hsum
  rw [← sum_placed, ← Int.sub_zero (total : Int)]
  exact hsum

theorem sections_fits (coff : List UInt8) :
    ∀ s ∈ sections coff, LittleEndian.Fits s.sPaddr ∧ LittleEndian.Fits s.sSize := by
  intro s hs
  obtain ⟨i, _, rfl⟩ := List.mem_map.mp hs
  exact ⟨Block.fits_int _ _, Block.fits_int _ _⟩

theorem LaidOut.bounded {total : Nat} (h : LaidOut (sections coff) total)
    (htotal : total + userStacksAreaSize ≤ memorySize) : Bounded (sections coff) := by
  refine ⟨h.text, fun s hs hk => (h.within s hs hk).1, sections_fits coff, h.sum_le.trans ?_⟩
  exact_mod_cast (Nat.le_add_right _ _).trans htotal

theorem store_of_forall {stored : List (Int × UInt8)} {m : Int → UInt8} {a : Int} {b : UInt8}
    (h : ∀ w ∈ stored, w.1 = a → w.2 = b) (hm : m a = b) : store m stored a = b := by
  induction stored generalizing m with
  | nil => exact hm
  | cons w stored ih =>
    refine ih (fun w hw => h w (List.mem_cons_of_mem _ hw)) ?_
    by_cases hwa : w.1 = a
    · subst hwa
      rw [Function.update_self]
      exact h w List.mem_cons_self rfl
    · rw [Function.update_of_ne (Ne.symm hwa)]
      exact hm

theorem store_of_mem {stored : List (Int × UInt8)} {m : Int → UInt8} {a : Int} {b : UInt8}
    (h : ∀ w ∈ stored, w.1 = a → w.2 = b) (hmem : (a, b) ∈ stored) : store m stored a = b := by
  induction stored generalizing m with
  | nil => cases hmem
  | cons w stored ih =>
    have hrest := fun w hw => h w (List.mem_cons_of_mem _ hw)
    rcases List.mem_cons.mp hmem with rfl | hmem
    · show store (Function.update m a b) stored a = b
      exact store_of_forall hrest (Function.update_self _ _ _)
    · exact ih hrest hmem

variable {noff : List UInt8} {total : Nat} {junk : Block} {virtualPage : Nat → Word}

theorem Segment.For.size_eq {body : List UInt8} {g : Segment} {ss : List Scnhdr}
    (h : g.For coff body ss) : g.size = (ss.map Scnhdr.sSize).sum := by
  rcases h with ⟨rfl, hsize⟩ | ⟨s, rfl, _, hdescribes⟩
  · exact hsize
  · rw [hdescribes.size]
    exact (Int.add_zero _).symm

theorem headerOf_converted (h : Converted coff done l) :
    headerOf junk (l.noffH.bytes ++ l.body) = l.noffH := by
  have htake : (l.noffH.bytes ++ l.body).take headerSize = l.noffH.bytes ++ [] := by
    rw [List.append_nil, List.take_left' (NoffHeader.length_bytes _)]
  unfold headerOf
  rw [htake]
  exact NoffHeader.ofBlock_bytes h.fits [] junk

theorem Segment.For.start {body : List UInt8} {g : Segment} {ss : List Scnhdr}
    (h : g.For coff body ss) (hsize : 0 < g.size) : headerSize ≤ g.inFileAddr := by
  rcases h with ⟨_, hzero⟩ | ⟨s, _, _, hdescribes⟩
  · omega
  · exact hdescribes.start

/-- The loader accepts a converted program that fits. -/
theorem Converted.accepted (h : Converted coff (sections coff) l)
    (hlaid : LaidOut (sections coff) total) (htotal : total + userStacksAreaSize ≤ memorySize) :
    (headerOf junk (l.noffH.bytes ++ l.body)).Accepted := by
  rw [headerOf_converted h]
  have hb := hlaid.bounded htotal
  have hsum : l.noffH.code.size + l.noffH.initData.size + l.noffH.uninitData.size =
      sizeOf (sections coff) .text + sizeOf (sections coff) .data +
        sizeOf (sections coff) .bss := by
    rw [h.code.size_eq, h.initData.size_eq, h.uninitData]
    rfl
  have hle := hlaid.sum_le
  have htext := hb.sizeOf_nonneg (k := .text) trivial
  have hdata := hb.sizeOf_nonneg (k := .data) trivial
  have hbss := hb.sizeOf_nonneg (k := .bss) trivial
  have hmemory : total + 1024 ≤ 8192 := htotal
  have heq : l.noffH.total = sizeOf (sections coff) .text + sizeOf (sections coff) .data +
      sizeOf (sections coff) .bss := by
    unfold NoffHeader.total
    rw [hsum, wrap_of_fits ⟨by omega, by omega⟩]
  refine ⟨h.magic, ?_, ?_, fun g hg hsize => ?_⟩
  · rw [heq]
    simp only [userStacksAreaSize]
    omega
  · rw [heq]
    show _ ≤ (8192 : Int) - 1024
    omega
  · have hstart : headerSize ≤ g.inFileAddr := by
      rcases List.mem_pair.mp hg with rfl | rfl
      · exact h.code.start hsize
      · exact h.initData.start hsize
    exact (Int.natCast_nonneg _).trans hstart

/-- What a segment stores is the section that it is for. -/
theorem Segment.For.stored {body : List UInt8} {g : Segment} {ss : List Scnhdr}
    (h : g.For coff body ss) (header : List UInt8) (hheader : header.length = headerSize)
    {w : Int × UInt8} (hw : w ∈ g.stored (header ++ body)) :
    ∃ s ∈ ss, ∃ i : Nat, w.1 = s.sPaddr + i ∧ (i : Int) < s.sSize ∧
      (0 ≤ s.sScnptr → coff[s.sScnptr.toNat + i]? = some w.2) := by
  obtain ⟨i, haddr, hi, hbyte⟩ := Segment.mem_stored.mp hw
  rcases h with ⟨_, hzero⟩ | ⟨s, rfl, _, hdescribes⟩
  · omega
  · have hstart := hdescribes.start
    rw [hdescribes.virtualAddr] at haddr
    rw [hdescribes.size] at hi
    refine ⟨s, List.mem_cons_self, i, haddr, hi, fun hptr => ?_⟩
    rw [← hdescribes.bytes hptr i hi, ← hbyte, List.getElem?_append_right (by omega), hheader]
    congr 1
    omega

/-- All of the section is stored. -/
theorem Segment.For.mem_stored {body : List UInt8} {g : Segment} {s : Scnhdr}
    {ss : List Scnhdr} (h : g.For coff body ss) (hs : s ∈ ss) (header : List UInt8)
    (hheader : header.length = headerSize) {i : Nat} (hi : (i : Int) < s.sSize) :
    ∃ b, (s.sPaddr + i, b) ∈ g.stored (header ++ body) := by
  rcases h with ⟨rfl, _⟩ | ⟨t, rfl, _, hdescribes⟩
  · cases hs
  · obtain rfl := List.mem_singleton.mp hs
    have hstart := hdescribes.start
    have hin := hdescribes.inBody
    have hlt : g.inFileAddr.toNat + i < (header ++ body).length := by
      rw [List.length_append, hheader]
      omega
    refine ⟨(header ++ body)[g.inFileAddr.toNat + i], Segment.mem_stored.mpr ⟨i, ?_, ?_, ?_⟩⟩
    · rw [hdescribes.virtualAddr]
    · rw [hdescribes.size]
      exact hi
    · exact List.getElem?_eq_getElem hlt

theorem mem_ofKind {ss : List Scnhdr} {k : Kind} : s ∈ ofKind ss k ↔ s ∈ ss ∧ s.kind = k := by
  unfold ofKind
  rw [List.mem_filter]
  exact and_congr_right fun _ => decide_eq_true_iff

/-- Two sections that share an address are one. -/
theorem LaidOut.eq_of_overlap {ss : List Scnhdr} (h : LaidOut ss total) {t : Scnhdr} (hs : s ∈ ss)
    (ht : t ∈ ss) (hsk : s.kind.Placed) (htk : t.kind.Placed) {i k : Nat}
    (hi : (i : Int) < s.sSize) (hk : (k : Int) < t.sSize) (heq : s.sPaddr + i = t.sPaddr + k) :
    s = t := by
  by_contra hne
  have hapart := h.apart.forall (List.mem_filter.mpr ⟨hs, decide_eq_true hsk⟩)
    (List.mem_filter.mpr ⟨ht, decide_eq_true htk⟩) hne
  unfold Scnhdr.Apart Scnhdr.last at hapart
  omega

theorem Converted.shows (h : Converted coff (sections coff) l)
    (hlaid : LaidOut (sections coff) total) (hs : s ∈ sections coff)
    (hptr : s.kind.Copied → 0 ≤ s.sScnptr) :
    (loaded junk virtualPage (l.noffH.bytes ++ l.body)).Shows coff s := by
  have hheader := NoffHeader.length_bytes l.noffH
  have hspace : (loaded junk virtualPage (l.noffH.bytes ++ l.body)).stored =
      l.noffH.code.stored (l.noffH.bytes ++ l.body) ++
        l.noffH.initData.stored (l.noffH.bytes ++ l.body) := by
    show (headerOf junk _).code.stored _ ++ (headerOf junk _).initData.stored _ = _
    rw [headerOf_converted h]
  -- what is stored comes from a copied section
  have hsource : ∀ w ∈ (loaded junk virtualPage (l.noffH.bytes ++ l.body)).stored,
      ∃ t ∈ sections coff, t.kind.Copied ∧ ∃ i : Nat, w.1 = t.sPaddr + i ∧ (i : Int) < t.sSize ∧
        (0 ≤ t.sScnptr → coff[t.sScnptr.toNat + i]? = some w.2) := by
    intro w hw
    rw [hspace] at hw
    rcases List.mem_append.mp hw with hw | hw
    · obtain ⟨t, ht, hrest⟩ := h.code.stored _ hheader hw
      obtain ⟨hmem, hkind⟩ := mem_ofKind.mp ht
      exact ⟨t, hmem, by rw [hkind]; trivial, hrest⟩
    · obtain ⟨t, ht, hrest⟩ := h.initData.stored _ hheader hw
      obtain ⟨hmem, hkind⟩ := mem_ofKind.mp ht
      exact ⟨t, hmem, by rw [hkind]; trivial, hrest⟩
  intro k hk
  refine ⟨fun hkind => ?_, fun hkind => ?_⟩
  · have hstored : ∃ b, (s.sPaddr + k, b) ∈
        (loaded junk virtualPage (l.noffH.bytes ++ l.body)).stored := by
      rw [hspace]
      cases hcase : s.kind with
      | text =>
        obtain ⟨b, hb⟩ := h.code.mem_stored (mem_ofKind.mpr ⟨hs, hcase⟩) _ hheader hk
        exact ⟨b, List.mem_append_left _ hb⟩
      | data =>
        obtain ⟨b, hb⟩ := h.initData.mem_stored (mem_ofKind.mpr ⟨hs, hcase⟩) _ hheader hk
        exact ⟨b, List.mem_append_right _ hb⟩
      | empty => rw [hcase] at hkind; exact absurd hkind not_false
      | bss => rw [hcase] at hkind; exact absurd hkind not_false
      | other => rw [hcase] at hkind; exact absurd hkind not_false
    obtain ⟨b, hb⟩ := hstored
    have hbyte : ∀ w ∈ (loaded junk virtualPage (l.noffH.bytes ++ l.body)).stored,
        w.1 = s.sPaddr + k → coff[s.sScnptr.toNat + k]? = some w.2 := by
      intro w hw haddr
      obtain ⟨t, ht, htk, i, hti, hi, hsrc⟩ := hsource w hw
      have hst := hlaid.eq_of_overlap hs ht hkind.placed htk.placed hk hi (haddr ▸ hti)
      subst hst
      have hik : i = k := by omega
      subst hik
      exact hsrc (hptr hkind)
    have hmain : (loaded junk virtualPage (l.noffH.bytes ++ l.body)).mainMemory (s.sPaddr + k) =
        b := by
      refine store_of_mem (fun w hw haddr => ?_) hb
      exact Option.some.inj ((hbyte w hw haddr).symm.trans (hbyte _ hb rfl))
    have hnonneg := hptr hkind
    have hindex : (s.sScnptr + k).toNat = s.sScnptr.toNat + k := by omega
    rw [hmain, byteAt, if_pos (by omega), hindex]
    exact hbyte _ hb rfl
  · refine store_of_forall (fun w hw haddr => ?_) rfl
    obtain ⟨t, ht, htk, i, hti, hi, _⟩ := hsource w hw
    have hst := hlaid.eq_of_overlap hs ht (by rw [hkind]; trivial) htk.placed hk hi (haddr ▸ hti)
    rw [← hst, hkind] at htk
    exact absurd htk not_false

/-- A program of a COFF file that is laid out as the linker does and fits is in memory
as the file has it, unless the file pointer of a section that is copied is negative:
then `lseek` fails unnoticed. -/
theorem shows_iff_file_pointers {junk' : Block} (hnoff : coff2noff junk coff = .ok noff)
    (hlaid : LaidOut (sections coff) total) (htotal : total + userStacksAreaSize ≤ memorySize) :
    (∃ space, addrSpace junk' virtualPage noff = .ok space ∧
      ∀ s ∈ sections coff, space.Shows coff s) ↔
      ∀ s ∈ sections coff, s.kind.Copied → 0 ≤ s.sScnptr := by
  obtain ⟨l, rfl, hconverted⟩ := converted_of_coff2noff hnoff (hlaid.bounded htotal)
  have hok : addrSpace junk' virtualPage (l.noffH.bytes ++ l.body) =
      .ok (loaded junk' virtualPage (l.noffH.bytes ++ l.body)) :=
    addrSpace_ok (hconverted.accepted hlaid htotal)
  constructor
  · rintro ⟨space, _, hshows⟩ s hs hkind
    have hpos := (hlaid.within s hs hkind.placed).1
    have hbyte := (hshows s hs 0 hpos).1 hkind
    unfold byteAt at hbyte
    split at hbyte
    · omega
    · cases hbyte
  · intro hptr
    exact ⟨_, hok, fun s hs => hconverted.shows hlaid hs (hptr s hs)⟩

/-- A COFF file with four bytes of program text behind its headers, and `scnptr` as the
pointer to them. -/
def coffFile (scnptr : Int) : List UInt8 :=
  [0x62, 0x01, 1, 0] ++ List.replicate 16 0 ++ [0x07, 0x01] ++ List.replicate 54 0 ++
    [0x2e, 0x74, 0x65, 0x78, 0x74, 0, 0, 0] ++ [0, 0, 4, scnptr, 0, 0, 0, 0].flatMap wordBytes ++
    [1, 2, 3, 4]

/-- The NOFF file for it. -/
def noffFile : List UInt8 :=
  (⟨noffMagicNumber, ⟨0, headerSize, 4⟩, ⟨0, 0, 0⟩, ⟨0, 0, 0⟩⟩ : NoffHeader).bytes ++ [1, 2, 3, 4]

/-- The section of it. -/
def textSection (scnptr : Int) : Scnhdr := ⟨".text".toList, 0, 4, scnptr⟩

theorem laidOut_textSection (scnptr : Int) : LaidOut [textSection scnptr] 4 where
  text := le_rfl
  within := by
    intro s hs _
    rw [List.mem_singleton.mp hs]
    show (0 : Int) < 4 ∧ (0 : Int) ≤ 0 ∧ (0 : Int) + 4 ≤ (4 : Nat)
    decide
  apart := List.pairwise_singleton _ _
  covers := by
    intro a ha
    refine ⟨textSection scnptr, List.mem_cons_self, trivial, Int.natCast_nonneg a, ?_⟩
    show (a : Int) < 0 + 4
    omega
  bssLast := by
    intro s _ t ht _ hbss
    rw [List.mem_singleton.mp ht] at hbss
    cases hbss
  bssOrdered := List.Pairwise.nil

theorem sections_coffFile : sections (coffFile 116) = [textSection 116] := by rfl

theorem sections_coffFile_negative : sections (coffFile (-1)) = [textSection (-1)] := by rfl

theorem shows_iff_file_pointers_coffFile :
    (∃ space, addrSpace (fun _ => 0) (fun _ => 0) noffFile = .ok space ∧
      ∀ s ∈ sections (coffFile 116), space.Shows (coffFile 116) s) ↔
      ∀ s ∈ sections (coffFile 116), s.kind.Copied → 0 ≤ s.sScnptr := by
  have hnoff : coff2noff (fun _ => 0) (coffFile 116) = .ok noffFile := by rfl
  have hlaid : LaidOut (sections (coffFile 116)) 4 := by
    rw [sections_coffFile]
    exact laidOut_textSection 116
  exact shows_iff_file_pointers hnoff hlaid (by decide)

/-- A negative file pointer is not noticed: the bytes are taken from where the section
headers end. -/
theorem negative_file_pointer :
    coff2noff (fun _ => 0) (coffFile (-1)) = .ok noffFile ∧
      LaidOut (sections (coffFile (-1))) 4 ∧
      ¬ ∃ space, addrSpace (fun _ => 0) (fun _ => 0) noffFile = .ok space ∧
        ∀ s ∈ sections (coffFile (-1)), space.Shows (coffFile (-1)) s := by
  rw [sections_coffFile_negative]
  refine ⟨rfl, laidOut_textSection (-1), ?_⟩
  rintro ⟨space, _, hshows⟩
  have hbyte := (hshows (textSection (-1)) List.mem_cons_self 0 (by decide)).1 trivial
  cases hbyte

end UserProg
end Nachos