import Nachos.UserProg.Image

/-!
# Merging the uninitialised data

`coff2noff` keeps one interval for `.bss` and `.sbss`.  The first section starts it, and
each further one is added to its size, if it does not start behind the end.  One that
starts before the interval passes that check as well.
-/

namespace Nachos
namespace UserProg

open Lib LittleEndian FileSys

/-- The address is in the section. -/
def Scnhdr.Covers (s : Scnhdr) (a : Int) : Prop := s.sPaddr ≤ a ∧ a < s.last

instance (s : Scnhdr) (a : Int) : Decidable (s.Covers a) := inferInstanceAs (Decidable (_ ∧ _))

/-- Sections in any order that do not overlap, below the end of the address space. -/
structure Separate (ss : List Scnhdr) : Prop where
  nonneg : ∀ s ∈ ss, 0 ≤ s.sPaddr ∧ 0 ≤ s.sSize
  fits : ∀ s ∈ ss, s.last < 2147483648
  disjoint : ss.Pairwise fun s t => ∀ a, ¬ (s.Covers a ∧ t.Covers a)

/-- The addresses of the uninitialised data. -/
def InBss (ss : List Scnhdr) (a : Int) : Prop := ∃ s ∈ ofKind ss .bss, s.Covers a

/-- The address is in the segment. -/
def Segment.Covers (g : Segment) (a : Int) : Prop :=
  g.virtualAddr ≤ a ∧ a < g.virtualAddr + g.size

instance (g : Segment) (a : Int) : Decidable (g.Covers a) := inferInstanceAs (Decidable (_ ∧ _))

/-- No section of uninitialised data starts before the first of them in the file. -/
def FirstLowest (ss : List Scnhdr) : Prop :=
  ∀ first rest, ofKind ss .bss = first :: rest → ∀ t ∈ rest, first.sPaddr ≤ t.sPaddr

/-- The interval after some sections. -/
structure Merged (done : List Scnhdr) (g : Segment) : Prop where
  size : g.size = sizeOf done .bss
  start : ∀ first rest, ofKind done .bss = first :: rest → g.virtualAddr = first.sPaddr
  union : FirstLowest done → ∀ a, g.Covers a ↔ InBss done a

section

variable {ss done : List Scnhdr} {s : Scnhdr} {g : Segment}

theorem pos_of_bss (hs : Separate ss) (hmem : s ∈ ss) (hkind : s.kind = .bss) : 0 < s.sSize := by
  have hne : s.sSize ≠ 0 := by
    intro hzero
    rw [Scnhdr.kind, if_pos hzero] at hkind
    cases hkind
  have hnonneg := (hs.nonneg s hmem).2
  omega

theorem Separate.left (hs : Separate (done ++ ss)) : Separate done where
  nonneg s hmem := hs.nonneg s (List.mem_append_left _ hmem)
  fits s hmem := hs.fits s (List.mem_append_left _ hmem)
  disjoint := (List.pairwise_append.mp hs.disjoint).1

theorem mem_of_ofKind {k : Kind} (h : s ∈ ofKind ss k) : s ∈ ss ∧ s.kind = k := mem_ofKind.mp h

/-- Sections of uninitialised data are apart, so that their sizes add up to less than the
address space. -/
theorem Separate.sizeOf_le (hs : Separate ss) :
    0 ≤ sizeOf ss .bss ∧ sizeOf ss .bss ≤ 2147483647 := by
  have hpos : ∀ s ∈ ofKind ss .bss, 0 < s.sSize := by
    intro s hmem
    exact pos_of_bss hs (mem_of_ofKind hmem).1 (mem_of_ofKind hmem).2
  have hapart : ((ofKind ss .bss).map fun s => (s.sPaddr, s.sSize)).Pairwise Intervals.Apart := by
    apply List.pairwise_map.mpr
    have hsub : (ofKind ss .bss).Sublist ss := List.filter_sublist
    refine (hs.disjoint.sublist hsub).imp_of_mem ?_
    intro s t hmem hmem' hdisjoint
    have hs := hpos s hmem
    have ht := hpos t hmem'
    have hlow := hdisjoint s.sPaddr
    have hhigh := hdisjoint t.sPaddr
    simp only [Scnhdr.Covers, Scnhdr.last] at hlow hhigh
    simp only [Intervals.Apart]
    omega
  have hwithin : ∀ i ∈ (ofKind ss .bss).map fun s => (s.sPaddr, s.sSize),
      Intervals.Within 0 2147483647 i := by
    intro i hi
    obtain ⟨s, hmem, rfl⟩ := List.mem_map.mp hi
    obtain ⟨hin, _⟩ := mem_of_ofKind hmem
    have hfits := hs.fits s hin
    have hsize := hpos s hmem
    simp only [Scnhdr.last] at hfits
    exact ⟨(hs.nonneg s hin).1, by show s.sPaddr + s.sSize ≤ _; omega, hsize.le⟩
  have hsum := Intervals.sum_le hapart hwithin (by decide)
  rw [List.map_map] at hsum
  constructor
  · apply List.sum_nonneg
    intro x hx
    obtain ⟨s, hmem, rfl⟩ := List.mem_map.mp hx
    exact (hpos s hmem).le
  · exact hsum

theorem inBss_append {a : Int} :
    InBss (done ++ ss) a ↔ InBss done a ∨ InBss ss a := by
  unfold InBss
  rw [ofKind_append]
  simp only [List.mem_append, or_and_right, exists_or]

theorem inBss_singleton (hkind : s.kind = .bss) {a : Int} : InBss [s] a ↔ s.Covers a := by
  unfold InBss
  rw [ofKind_singleton hkind]
  simp

theorem FirstLowest.left (h : FirstLowest (done ++ ss)) : FirstLowest done := by
  intro first rest hfirst t ht
  apply h first (rest ++ ofKind ss .bss)
  · rw [ofKind_append, hfirst]
    rfl
  · exact List.mem_append_left _ ht

/-! ## One section -/

theorem Merged.skip (h : Merged done g) (hkind : s.kind ≠ .bss) : Merged (done ++ [s]) g := by
  have hof : ofKind (done ++ [s]) .bss = ofKind done .bss := by
    rw [ofKind_append, ofKind_singleton_ne hkind, List.append_nil]
  constructor
  · rw [sizeOf_append, sizeOf_singleton_ne hkind, Int.add_zero]
    exact h.size
  · intro first rest hfirst
    exact h.start first rest (hof ▸ hfirst)
  · intro hlowest a
    rw [h.union hlowest.left a]
    unfold InBss
    rw [hof]

theorem Separate.bss_nil (hs : Separate done) (hzero : sizeOf done .bss = 0) :
    ofKind done .bss = [] := by
  cases hof : ofKind done .bss with
  | nil => rfl
  | cons t rest =>
    have hmem : ∀ u ∈ t :: rest, u ∈ done ∧ u.kind = .bss := by
      intro u hu
      rw [← hof] at hu
      exact mem_of_ofKind hu
    obtain ⟨hin, htkind⟩ := hmem t List.mem_cons_self
    have hpos := pos_of_bss hs hin htkind
    have hrest : 0 ≤ (rest.map Scnhdr.sSize).sum := by
      apply List.sum_nonneg
      intro x hx
      obtain ⟨u, hu, rfl⟩ := List.mem_map.mp hx
      exact (hs.nonneg u (hmem u (List.mem_cons_of_mem _ hu)).1).2
    have hsum : sizeOf done .bss = t.sSize + (rest.map Scnhdr.sSize).sum := by
      unfold sizeOf
      rw [hof, List.map_cons, List.sum_cons]
    omega

/-- The first section of uninitialised data. -/
theorem Merged.first (h : Merged done g) (hs : Separate (done ++ [s])) (hkind : s.kind = .bss)
    (hsize : g.size = 0) : Merged (done ++ [s]) ⟨s.sPaddr, -1, s.sSize⟩ := by
  have hnil := hs.left.bss_nil (h.size.symm.trans hsize)
  have hof : ofKind (done ++ [s]) .bss = [s] := by
    rw [ofKind_append, hnil, ofKind_singleton hkind, List.nil_append]
  constructor
  · unfold sizeOf
    rw [hof]
    exact (Int.add_zero _).symm
  · intro first rest hfirst
    rw [hof] at hfirst
    cases hfirst
    rfl
  · intro _ a
    unfold InBss
    rw [hof]
    simp [Segment.Covers, Scnhdr.Covers, Scnhdr.last]

theorem Merged.exists_first (h : Merged done g) (hsize : g.size ≠ 0) :
    ∃ first rest, ofKind done .bss = first :: rest := by
  cases hof : ofKind done .bss with
  | nil =>
    have hzero := h.size
    rw [sizeOf, hof] at hzero
    exact absurd hzero hsize
  | cons first rest => exact ⟨first, rest, rfl⟩

/-- The interval ends with a section, so its end fits. -/
theorem Merged.wrap_end (h : Merged done g) (hs : Separate done) (hlowest : FirstLowest done)
    (hsize : g.size ≠ 0) : wrap (g.virtualAddr + g.size) = g.virtualAddr + g.size := by
  have hunion := h.union hlowest
  have hnonneg : 0 ≤ g.size := h.size ▸ hs.sizeOf_le.1
  obtain ⟨t, ht, htlast⟩ := (hunion (g.virtualAddr + g.size - 1)).mp ⟨by omega, by omega⟩
  obtain ⟨u, hu, hufirst⟩ := (hunion g.virtualAddr).mp ⟨by omega, by omega⟩
  have hfits := hs.fits t (mem_of_ofKind ht).1
  have hupos := (hs.nonneg u (mem_of_ofKind hu).1).1
  have hlow := hufirst.1
  have hhigh := htlast.2
  exact wrap_of_fits ⟨by omega, by omega⟩

theorem Merged.start_le (h : Merged done g) (hlowest : FirstLowest (done ++ [s]))
    (hkind : s.kind = .bss) (hsize : g.size ≠ 0) : g.virtualAddr ≤ s.sPaddr := by
  obtain ⟨first, rest, hof⟩ := h.exists_first hsize
  rw [h.start first rest hof]
  apply hlowest first (rest ++ [s])
  · rw [ofKind_append, hof, ofKind_singleton hkind]
    rfl
  · exact List.mem_append_right _ List.mem_cons_self

/-- A further section.  One behind the start of the interval is at its end, since it
overlaps none of the others. -/
theorem Merged.further (h : Merged done g) (hs : Separate (done ++ [s])) (hkind : s.kind = .bss)
    (hsize : g.size ≠ 0) (hcheck : ¬ s.sPaddr > wrap (g.virtualAddr + g.size)) :
    Merged (done ++ [s]) { g with size := wrap (g.size + s.sSize) } := by
  have hmem : s ∈ done ++ [s] := List.mem_append_right _ List.mem_cons_self
  have hpos := pos_of_bss hs hmem hkind
  have hsum : sizeOf (done ++ [s]) .bss = g.size + s.sSize := by
    rw [sizeOf_append, sizeOf_singleton hkind, h.size]
  have hwrap : wrap (g.size + s.sSize) = g.size + s.sSize := by
    apply wrap_of_fits
    have hle := hs.sizeOf_le
    rw [hsum] at hle
    exact ⟨by omega, by omega⟩
  constructor
  · exact hwrap.trans hsum.symm
  · intro first rest hfirst
    obtain ⟨first', rest', hof⟩ := h.exists_first hsize
    rw [ofKind_append, hof] at hfirst
    cases hfirst
    exact h.start _ _ hof
  · intro hlowest a
    have hunion := h.union hlowest.left
    have hnonneg : 0 ≤ g.size := h.size ▸ hs.left.sizeOf_le.1
    have hstart := h.start_le hlowest hkind hsize
    rw [h.wrap_end hs.left hlowest.left hsize] at hcheck
    have hbehind : s.sPaddr = g.virtualAddr + g.size := by
      by_contra hne
      obtain ⟨v, hv, hvcovers⟩ := (hunion s.sPaddr).mp ⟨hstart, by omega⟩
      have hdisjoint := (List.pairwise_append.mp hs.disjoint).2.2 v (mem_of_ofKind hv).1 s
        List.mem_cons_self s.sPaddr
      exact hdisjoint ⟨hvcovers, Int.le_refl _, by show s.sPaddr < s.sPaddr + s.sSize; omega⟩
    rw [inBss_append, inBss_singleton hkind, ← hunion a, hwrap]
    simp only [Segment.Covers, Scnhdr.Covers, Scnhdr.last]
    omega

end

/-! ## All sections -/

section

variable {coff : List UInt8} {ss done : List Scnhdr} {s : Scnhdr} {l l' : Loop}

theorem Loop.copy_noffH {g : Segment} (h : l.copy coff s = .ok (g, l')) : l'.noffH = l.noffH := by
  unfold Loop.copy at h
  cases hread : read coff (lseek l.pos s.sScnptr) s.sSize with
  | error e =>
    rw [hread] at h
    cases h
  | ok result =>
    rw [hread] at h
    cases h
    rfl

theorem Merged.copied (h : Merged done l.noffH.uninitData)
    (hstep : l.copySection coff s = .ok l') (hkind : s.kind.Copied) :
    Merged (done ++ [s]) l'.noffH.uninitData := by
  have hne : s.kind ≠ .bss := by
    intro hbss
    rw [hbss] at hkind
    exact hkind
  have hskip : Merged (done ++ [s]) l.noffH.uninitData := h.skip hne
  obtain ⟨g, l₁, hcopy, hl'⟩ := Loop.copySection_copied hstep hkind
  rw [← Loop.copy_noffH hcopy] at hskip
  rcases hl' with ⟨-, rfl⟩ | ⟨-, -, rfl⟩
  · exact hskip
  · exact hskip

theorem Merged.step (h : Merged done l.noffH.uninitData)
    (hstep : l.copySection coff s = .ok l') (hs : Separate (done ++ [s])) :
    Merged (done ++ [s]) l'.noffH.uninitData := by
  cases hk : s.kind with
  | text => exact h.copied hstep (by rw [hk]; trivial)
  | data => exact h.copied hstep (by rw [hk]; trivial)
  | empty =>
    rw [Loop.copySection_eq, hk] at hstep
    cases hstep
    exact h.skip (by rw [hk]; decide)
  | bss =>
    rw [Loop.copySection_eq, hk] at hstep
    by_cases hsize : l.noffH.uninitData.size ≠ 0
    · simp only [if_pos hsize] at hstep
      by_cases hcheck : s.sPaddr >
          wrap (l.noffH.uninitData.virtualAddr + l.noffH.uninitData.size)
      · rw [if_pos hcheck] at hstep
        cases hstep
      · rw [if_neg hcheck] at hstep
        cases hstep
        exact h.further hs hk hsize hcheck
    · simp only [if_neg hsize] at hstep
      cases hstep
      exact h.first hs hk (not_not.mp hsize)
  | other =>
    rw [Loop.copySection_eq, hk] at hstep
    have hskip : Merged (done ++ [s]) l.noffH.uninitData := h.skip (by rw [hk]; decide)
    dsimp only at hstep
    split at hstep
    · cases hstep
      exact hskip
    · split at hstep
      · cases hstep
        exact hskip
      · cases hstep

theorem Merged.loop (h : Merged done l.noffH.uninitData)
    (hloop : ss.foldlM (Loop.copySection coff) l = .ok l') (hs : Separate (done ++ ss)) :
    Merged (done ++ ss) l'.noffH.uninitData := by
  induction ss generalizing done l with
  | nil =>
    cases hloop
    rwa [List.append_nil]
  | cons s ss ih =>
    rw [List.foldlM_cons] at hloop
    rw [List.append_cons] at hs ⊢
    cases hstep : l.copySection coff s with
    | error e =>
      rw [hstep] at hloop
      cases hloop
    | ok l₁ =>
      rw [hstep] at hloop
      exact ih (h.step hstep hs.left) hloop hs

theorem merged_newHeader (junk : Block) : Merged [] (newHeader junk).uninitData := by
  constructor
  · rfl
  · intro first rest hfirst
    cases hfirst
  · intro _ a
    simp [Segment.Covers, newHeader, InBss, ofKind]

/-- A section before the first one is not in the interval. -/
theorem Merged.firstLowest {g : Segment} (h : Merged ss g) (hs : Separate ss)
    (hunion : ∀ a, g.Covers a ↔ InBss ss a) : FirstLowest ss := by
  intro first rest hfirst t ht
  have hmem : t ∈ ofKind ss .bss := by
    rw [hfirst]
    exact List.mem_cons_of_mem _ ht
  obtain ⟨hin, hkind⟩ := mem_of_ofKind hmem
  have hpos := pos_of_bss hs hin hkind
  have hcovers := (hunion t.sPaddr).mpr
    ⟨t, hmem, Int.le_refl _, by show t.sPaddr < t.sPaddr + t.sSize; omega⟩
  rw [← h.start first rest hfirst]
  exact hcovers.1

/-- **Uninitialised data.**  When the loop over the sections ends without an error, the
segment for uninitialised data covers the `.bss` and `.sbss` sections exactly, just when
none of them starts before the first in the file. -/
theorem uninitData_covers_iff {junk : Block} {inNoffFile : Int} {body : List UInt8} {pos : Nat}
    (hs : Separate ss) (hloop : ss.foldlM (Loop.copySection coff)
      ⟨newHeader junk, inNoffFile, body, pos⟩ = .ok l) :
    (∀ a, l.noffH.uninitData.Covers a ↔ InBss ss a) ↔ FirstLowest ss := by
  have hmerged : Merged ss l.noffH.uninitData :=
    Merged.loop (l := ⟨newHeader junk, inNoffFile, body, pos⟩) (merged_newHeader junk) hloop hs
  exact ⟨hmerged.firstLowest hs, hmerged.union⟩

end

/-- A section of uninitialised data. -/
def bssSection (name : String) (sPaddr sSize : Int) : Scnhdr := ⟨name.toList, sPaddr, sSize, 0⟩

theorem separate_two {s t : Scnhdr} (hs : 0 ≤ s.sPaddr ∧ 0 ≤ s.sSize ∧ s.last < 2147483648)
    (ht : 0 ≤ t.sPaddr ∧ 0 ≤ t.sSize ∧ t.last < 2147483648) (happart : s.Apart t) :
    Separate [s, t] := by
  constructor
  · intro u hu
    rcases List.mem_pair.mp hu with rfl | rfl
    · exact ⟨hs.1, hs.2.1⟩
    · exact ⟨ht.1, ht.2.1⟩
  · intro u hu
    rcases List.mem_pair.mp hu with rfl | rfl
    · exact hs.2.2
    · exact ht.2.2
  · apply List.pairwise_pair.mpr
    intro a hcovers
    obtain ⟨⟨hlo, hhi⟩, hlo', hhi'⟩ := hcovers
    rcases happart with hle | hle <;> omega

/-- `.sbss` behind `.bss`. -/
theorem uninitData_covers_iff_behind :
    ∃ l, [bssSection ".bss" 256 16, bssSection ".sbss" 272 8].foldlM (Loop.copySection [])
        ⟨newHeader fun _ => 0, headerSize, [], 0⟩ = .ok l ∧
      ∀ a, l.noffH.uninitData.Covers a ↔
        InBss [bssSection ".bss" 256 16, bssSection ".sbss" 272 8] a := by
  obtain ⟨l, hloop⟩ : ∃ l, [bssSection ".bss" 256 16, bssSection ".sbss" 272 8].foldlM
      (Loop.copySection []) ⟨newHeader fun _ => 0, headerSize, [], 0⟩ = .ok l := ⟨_, rfl⟩
  refine ⟨l, hloop, (uninitData_covers_iff (separate_two (by decide) (by decide)
    (.inl (by decide))) hloop).mpr ?_⟩
  intro first rest hfirst t ht
  cases hfirst
  cases List.mem_singleton.mp ht
  decide

/-- `.bss` in front of `.sbss`, which comes first in the file. -/
theorem uninitData_misses_front :
    ¬ ∀ (ss : List Scnhdr) (coff : List UInt8) (junk : Block) (inNoffFile : Int)
      (body : List UInt8) (pos : Nat) (l : Loop), Separate ss →
        ss.foldlM (Loop.copySection coff) ⟨newHeader junk, inNoffFile, body, pos⟩ = .ok l →
          ∀ a, l.noffH.uninitData.Covers a ↔ InBss ss a := by
  intro h
  have hseparate : Separate [bssSection ".sbss" 256 8, bssSection ".bss" 0 16] :=
    separate_two (by decide) (by decide) (.inr (by decide))
  have hcovers := h _ [] (fun _ => 0) headerSize [] 0 _ hseparate rfl 0
  have hfirst : InBss [bssSection ".sbss" 256 8, bssSection ".bss" 0 16] 0 :=
    ⟨bssSection ".bss" 0 16,
      mem_ofKind.mpr ⟨List.mem_cons_of_mem _ List.mem_cons_self, by decide⟩, by decide⟩
  exact absurd (hcovers.mpr hfirst) (by decide)

end UserProg
end Nachos
