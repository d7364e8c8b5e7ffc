import Nachos.UserProg.Dump

/-!
# Aborting

A failed `ASSERT` calls `Abort`, which draws the memory before it calls the `abort` of the
host.  An assertion that fails in the drawing calls `Abort` again, with the same spaces and
the same entries, so it fails again and the host is never reached.  The drawing asserts
that segments start and end with a page; the constructor of `AddrSpace` does not.
-/

namespace Nachos
namespace UserProg

open Lib LittleEndian Machine

/-- `Abort`, with its calls nested `n` deep at most: does it reach `abort()`?  Before the
machine is set up there is nothing to draw. -/
def abort (spaces : List LiveSpace) : Nat → Option Machine → Bool
  | 0, _ => false
  | _ + 1, none => true
  | n + 1, some m =>
    match dumpMem spaces m with
    | .ok _ _ => true
    | .error .assertion m' => abort spaces n (some m')
    | .error _ _ => false

/-- The constructor returned the space, and no page has been added to it or taken from it
since. -/
structure Live (m : Machine) (space : LiveSpace) : Prop where
  built : ∃ junk virtualPage executable s, addrSpace junk virtualPage executable = .ok s ∧
    space.noffH = s.noffH ∧ space.numPages = s.numPages ∧
    ∀ page e, s.pageTable[page]? = some e →
      (m.memory.pageTables space.pageTable page).valid = e.valid

section

variable {m s : Machine} {spaces : List LiveSpace} {space : LiveSpace}

/-! ## The chain of calls -/

theorem Alike.drawable_iff (h : Alike m s) : Drawable s space ↔ Drawable m space := by
  have htranslated : Translated s space.pageTable space.numPages ↔
      Translated m space.pageTable space.numPages := by
    simp only [Translated, h.valid, h.tlb]
  constructor
  · intro hs
    exact ⟨hs.aligned, htranslated.mp hs.translated⟩
  · intro hm
    exact ⟨hm.aligned, htranslated.mpr hm.translated⟩

/-- A dump that stops once stops at every level. -/
theorem abort_never (h : ¬ ∀ space ∈ spaces, Drawable m space) (n : Nat) :
    abort spaces n (some m) = false := by
  induction n generalizing m with
  | zero => rfl
  | succ n ih =>
    obtain ⟨s, hdump, halike⟩ := dumpMem_error m h
    rw [abort, hdump]
    apply ih
    intro hdrawable
    apply h
    intro space hspace
    exact halike.drawable_iff.mp (hdrawable space hspace)

theorem abort_once (h : ∀ space ∈ spaces, Drawable m space) : abort spaces 1 (some m) = true := by
  obtain ⟨drawn, hdump⟩ := dumpMem_ok m h
  rw [abort, hdump]

theorem abort_iff :
    (∃ n, abort spaces n (some m) = true) ↔ ∀ space ∈ spaces, Drawable m space := by
  constructor
  · rintro ⟨n, hn⟩
    by_contra h
    rw [abort_never h n] at hn
    cases hn
  · intro h
    exact ⟨1, abort_once h⟩

theorem dumpMem_returns_iff :
    (∃ drawn m', dumpMem spaces m = .ok drawn m') ↔ ∀ space ∈ spaces, Drawable m space := by
  constructor
  · rintro ⟨drawn, m', hdump⟩
    exact ((dumpMem_triple m spaces).ok rfl hdump).2
  · intro h
    obtain ⟨drawn, hdump⟩ := dumpMem_ok m h
    exact ⟨drawn, _, hdump⟩

/-! ## Live spaces -/

/-- The page table that the constructor leaves. -/
theorem newPageTable_modify (virtualPage : Nat → Word) {numPages page : Nat}
    (hpage : page < numPages) :
    ((newPageTable virtualPage numPages).modify 0 fun e => { e with valid := false })[page]? =
      some ⟨virtualPage page, BitVec.ofNat 32 page, page ≠ 0, false, false, false⟩ := by
  unfold newPageTable
  rw [List.getElem?_modify, List.getElem?_map, List.getElem?_range hpage]
  by_cases hzero : page = 0
  · subst hzero
    rfl
  · simp [hzero, Ne.symm hzero]

/-- An entry that the constructor leaves. -/
theorem loaded_entry {junk : FileSys.Block} {virtualPage : Nat → Word} {executable : List UInt8}
    {page : Nat} {e : TranslationEntry}
    (he : (loaded junk virtualPage executable).pageTable[page]? = some e) :
    e = ⟨virtualPage page, BitVec.ofNat 32 page, page ≠ 0, false, false, false⟩ := by
  have htable : (loaded junk virtualPage executable).pageTable =
      (newPageTable virtualPage (loaded junk virtualPage executable).numPages).modify 0
        fun e => { e with valid := false } := rfl
  rw [htable] at he
  have hpage : page < (loaded junk virtualPage executable).numPages := by
    have hlength := (List.getElem?_eq_some_iff.mp he).1
    rw [List.length_modify, newPageTable, List.length_map, List.length_range] at hlength
    exact hlength
  rw [newPageTable_modify virtualPage hpage] at he
  exact (Option.some.inj he).symm

/-- Every page but the first one is valid. -/
theorem Live.valid (h : Live m space) {page : Nat} (hpage : page < space.numPages) :
    (m.memory.pageTables space.pageTable page).valid = true ↔ page ≠ 0 := by
  obtain ⟨junk, virtualPage, executable, s, hbuilt, -, hnumPages, hvalid⟩ := h.built
  have hok : (headerOf junk executable).Accepted := by
    by_contra hno
    obtain ⟨e, he⟩ : ∃ e, addrSpace junk virtualPage executable = .error e := addrSpace_error hno
    rw [he] at hbuilt
    cases hbuilt
  rw [addrSpace_ok hok] at hbuilt
  cases hbuilt
  rw [hnumPages] at hpage
  rw [hvalid page _ (newPageTable_modify virtualPage hpage)]
  exact decide_eq_true_iff

theorem Live.translated_iff (h : Live m space) :
    Translated m space.pageTable space.numPages ↔ m.memory.tlb = none ∨ space.numPages ≤ 1 := by
  constructor
  · intro htranslated
    by_cases hpages : space.numPages ≤ 1
    · exact .inr hpages
    · left
      have hsecond : 1 < space.numPages := by omega
      exact htranslated 1 hsecond ((h.valid hsecond).mpr Nat.one_ne_zero)
  · intro hcases page hpage hvalid
    have hne := (h.valid hpage).mp hvalid
    rcases hcases with htlb | hpages
    · exact htlb
    · omega

theorem drawable_iff (hlive : ∀ space ∈ spaces, Live m space) :
    (∀ space ∈ spaces, Drawable m space) ↔
      (∀ space ∈ spaces, ∀ g ∈ space.noffH.segments, g.size ≠ 0 →
        (pageSize : Int) ∣ g.virtualAddr ∧ (pageSize : Int) ∣ g.size) ∧
      (m.memory.tlb = none ∨ ∀ space ∈ spaces, space.numPages ≤ 1) := by
  constructor
  · intro h
    constructor
    · intro space hspace
      exact (h space hspace).aligned
    · by_cases htlb : m.memory.tlb = none
      · exact .inl htlb
      · right
        intro space hspace
        exact ((hlive space hspace).translated_iff.mp (h space hspace).translated).resolve_left htlb
  · rintro ⟨haligned, htlb⟩ space hspace
    constructor
    · exact haligned space hspace
    · exact (hlive space hspace).translated_iff.mpr (htlb.imp_right fun h => h space hspace)

end

/-- **Aborting.**  `Abort` reaches the host just when it is called without a machine, or
the segments of all live spaces start and end with a page and there is no TLB or no page
to look up in it.  These are also the states in which the dump itself does not fail. -/
theorem abort_reaches_host_iff {spaces : List LiveSpace} {machine : Option Machine}
    (hlive : ∀ m, machine = some m → ∀ space ∈ spaces, Live m space) :
    ((∃ n, abort spaces n machine = true) ↔ ∀ m, machine = some m →
      (∀ space ∈ spaces, ∀ g ∈ space.noffH.segments, g.size ≠ 0 →
        (pageSize : Int) ∣ g.virtualAddr ∧ (pageSize : Int) ∣ g.size) ∧
      (m.memory.tlb = none ∨ ∀ space ∈ spaces, space.numPages ≤ 1)) ∧
    ((∀ m, machine = some m → ∃ drawn m', dumpMem spaces m = .ok drawn m') ↔
      ∃ n, abort spaces n machine = true) := by
  cases machine with
  | none =>
    have hreaches : ∃ n, abort spaces n none = true := ⟨1, rfl⟩
    exact ⟨iff_of_true hreaches nofun, iff_of_true nofun hreaches⟩
  | some m =>
    have hdrawable := drawable_iff (hlive m rfl)
    constructor
    · rw [abort_iff, hdrawable]
      constructor
      · intro h m' hm'
        cases hm'
        exact h
      · intro h
        exact h m rfl
    · rw [abort_iff, ← dumpMem_returns_iff]
      constructor
      · intro h
        exact h m rfl
      · intro h m' hm'
        cases hm'
        exact h

/-- An executable with so many bytes of code at address 0. -/
def codeHeader (size : Int) : NoffHeader :=
  ⟨noffMagicNumber, ⟨0, headerSize, size⟩, ⟨0, 0, 0⟩, ⟨0, 0, 0⟩⟩

/-- A machine without a TLB, with every page but the first one valid. -/
def freshMachine : Machine where
  registers := fun _ => 0
  memory :=
    { mainMemory := fun _ => 0
      tlb := none
      pageTables := fun _ n => ⟨0, BitVec.ofNat 32 n, n ≠ 0, false, false, false⟩
      currentPageTable := none
      currentPageTableSize := 0 }

theorem headerOf_codeHeader {size : Int} (h : size = 4 ∨ size = 128) :
    headerOf (fun _ => 0) (codeHeader size).bytes = codeHeader size := by
  rcases h with rfl | rfl
  · decide
  · decide

theorem live_codeHeader {size : Int} (h : size = 4 ∨ size = 128) :
    ∀ m, some freshMachine = some m → ∀ space ∈ [(⟨codeHeader size, 0, 9⟩ : LiveSpace)],
      Live m space := by
  intro m hm space hspace
  cases hm
  obtain rfl := List.mem_singleton.mp hspace
  have hheader := headerOf_codeHeader h
  have hok : (headerOf (fun _ => 0) (codeHeader size).bytes).Accepted := by
    rw [hheader]
    rcases h with rfl | rfl
    · exact ⟨rfl, by decide, by decide, by decide⟩
    · exact ⟨rfl, by decide, by decide, by decide⟩
  have hpages : (loaded (fun _ => 0) (fun _ => 0) (codeHeader size).bytes).numPages = 9 := by
    show (((headerOf (fun _ => 0) (codeHeader size).bytes).total + 1024 + 127) / 128).toNat = 9
    rw [hheader]
    rcases h with rfl | rfl
    · decide
    · decide
  constructor
  refine ⟨fun _ => 0, fun _ => 0, (codeHeader size).bytes, _, addrSpace_ok hok, hheader.symm,
    hpages.symm, ?_⟩
  intro page e he
  rw [loaded_entry he]
  rfl

/-- A space with a page of code. -/
theorem abort_reaches_host_iff_page :
    ((∃ n, abort [⟨codeHeader 128, 0, 9⟩] n (some freshMachine) = true) ↔
      ∀ m, some freshMachine = some m →
        (∀ space ∈ [(⟨codeHeader 128, 0, 9⟩ : LiveSpace)], ∀ g ∈ space.noffH.segments,
          g.size ≠ 0 → (pageSize : Int) ∣ g.virtualAddr ∧ (pageSize : Int) ∣ g.size) ∧
        (m.memory.tlb = none ∨
          ∀ space ∈ [(⟨codeHeader 128, 0, 9⟩ : LiveSpace)], space.numPages ≤ 1)) ∧
    ((∀ m, some freshMachine = some m →
        ∃ drawn m', dumpMem [⟨codeHeader 128, 0, 9⟩] m = .ok drawn m') ↔
      ∃ n, abort [⟨codeHeader 128, 0, 9⟩] n (some freshMachine) = true) :=
  abort_reaches_host_iff (live_codeHeader (.inr rfl))

/-- A space with one instruction of code. -/
theorem abort_not_reaches_host :
    ¬ ∀ (spaces : List LiveSpace) (machine : Option Machine),
      (∀ m, machine = some m → ∀ space ∈ spaces, Live m space) →
      ∃ n, abort spaces n machine = true := by
  intro h
  have hreaches := h [⟨codeHeader 4, 0, 9⟩] (some freshMachine) (live_codeHeader (.inl rfl))
  have hdrawable := abort_iff.mp hreaches _ (List.mem_singleton.mpr rfl)
  have haligned := hdrawable.aligned (codeHeader 4).code List.mem_cons_self (by decide)
  exact absurd haligned.2 (by decide)

end UserProg
end Nachos
