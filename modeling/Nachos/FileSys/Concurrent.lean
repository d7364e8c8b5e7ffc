import Nachos.FileSys.Crash

/-!
# Threads that use the file system at once

The file system has no locks of its own: `create`, `remove`, `open` and the
transfers of different threads take turns between any two sectors.  Each gets what
it would get alone as long as no two of them meet: two updates, an update and an
`open`, or a `WriteAt` and another transfer on one sector.
-/

namespace Nachos
namespace FileSys

open Lib LittleEndian FileSystem SectorProgram StoreProgram

/-- What a thread asks of the file system. -/
inductive Task
  | update (u : Update)
  | «open» (name : CString)
  | readAt (h : Handle) (into : Block) (numBytes position : Int)
  | writeAt (h : Handle) (src : Block) (numBytes position : Int)

namespace Task

inductive Result
  | success (b : Bool)
  | opened (f : Option OpenFile)
  | read (n : Int) (into : Block)
  | written (n : Int)

def program (fs : FileSystem) (junk : Junk) : Task → SectorProgram Result
  | update u => do
    let b ← u.program fs junk
    pure (.success b)
  | «open» name => do
    let f ← SectorProgram.FileSystem.open fs junk name
    pure (.opened f)
  | readAt h into numBytes position => do
    let result ← SectorProgram.OpenFile.readAt h.file into numBytes position
    pure (.read result.1 result.2)
  | writeAt h src numBytes position => do
    let n ← SectorProgram.OpenFile.writeAt h.file (junk 0) src numBytes position
    pure (.written n)

/-- Updates of legal sizes, and transfers in range through handles on files that are there. -/
def Legal (fs : FileSystem) (d : Disk) : Task → Prop
  | update u => u.Legal
  | «open» _ => True
  | readAt h _ numBytes position => h.Current fs d ∧ Transfer.Span numBytes position
  | writeAt h _ numBytes position => h.Current fs d ∧ Transfer.Span numBytes position

/-- The file has the byte `b`, and the request asks for it. -/
def Asks (h : Handle) (numBytes position : Int) (b : Nat) : Prop :=
  position.toNat ≤ b ∧
    b < position.toNat + (OpenFile.transferred h.file.hdr.numBytes numBytes position).toNat

/-- Two requests ask for bytes of one sector of a file. -/
def Overlap (h : Handle) (numBytes position : Int) (h' : Handle) (numBytes' position' : Int) :
    Prop :=
  h.sector = h'.sector ∧ ∃ b b', Asks h numBytes position b ∧ Asks h' numBytes' position' b' ∧
    b / sectorSize = b' / sectorSize

/-- The first task may write what the other one uses. -/
def Meets : Task → Task → Prop
  | update _, update _ => True
  | update _, «open» _ => True
  | writeAt h _ n p, readAt h' _ n' p' => Overlap h n p h' n' p'
  | writeAt h _ n p, writeAt h' _ n' p' => Overlap h n p h' n' p'
  | _, _ => False

/-- The sectors that a task reads. -/
def Reads (fs : FileSystem) (d : Disk) : Task → Fin numSectors → Prop
  | update u => fun k => InSystem fs k ∨ IsHeader fs d u.name.bytes k
  | «open» name => fun k => InSystem fs k ∨ IsHeader fs d name.bytes k
  | readAt h _ n p =>
    Holds h.file.hdr p.toNat (OpenFile.transferred h.file.hdr.numBytes n p).toNat
  | writeAt h _ n p =>
    Holds h.file.hdr p.toNat (OpenFile.transferred h.file.hdr.numBytes n p).toNat

/-- The sectors that a task writes. -/
def Writes (fs : FileSystem) (d : Disk) : Task → Fin numSectors → Prop
  | update _ => fun k => InSystem fs k ∨ IsNext fs d k
  | writeAt h _ n p =>
    Holds h.file.hdr p.toNat (OpenFile.transferred h.file.hdr.numBytes n p).toNat
  | _ => fun _ => False

end Task

section Tasks

variable {fs : FileSystem} {d : Disk} {h h' : Handle} {k : Fin numSectors}

/-! ## The sectors of a task -/

theorem update_touches (hc : Consistent fs d) (junk : Junk) (u : Update) :
    (u.program fs junk).Touches ((Task.update u).Reads fs d) ((Task.update u).Writes fs d) d := by
  cases u with
  | create name size =>
    exact ((create_touches hc junk size).bind fun _ _ _ => .done).mono (fun k hk => Or.inl hk)
      fun _ hk => hk
  | remove name =>
    exact (remove_touches hc junk).mono (fun _ hk => hk) fun k hk => Or.inl hk

theorem Task.touches (hc : Consistent fs d) (junk : Junk) {t : Task} (hlegal : t.Legal fs d) :
    (t.program fs junk).Touches (t.Reads fs d) (t.Writes fs d) d := by
  cases t with
  | update u => exact (update_touches hc junk u).bind fun _ _ _ => .done
  | «open» name => exact (open_touches hc junk).bind fun _ _ _ => .done
  | readAt h into n p =>
    exact (readAt_touches (hlegal.1.valid hc) into hlegal.2.1 hlegal.2.2).bind fun _ _ _ => .done
  | writeAt h src n p =>
    exact (writeAt_touches (hlegal.1.valid hc) (junk 0) src hlegal.2.1 hlegal.2.2).bind
      fun _ _ _ => .done

/-- A sector that a request goes through is one of the file's data sectors. -/
theorem holds_data (hv : h.file.hdr.Valid) {numBytes position : Int}
    (hspan : Transfer.Span numBytes position)
    (hk : Holds h.file.hdr position.toNat
      (OpenFile.transferred h.file.hdr.numBytes numBytes position).toNat k) :
    ((k : Nat) : Int) ∈ h.file.hdr.sectors := by
  refine hk.mem hv ((writeAt_eq hv (fun _ => 0) (fun _ => 0) hspan.1 hspan.2).1 fun hzero => ?_)
  obtain ⟨b, hlo, hhi, -⟩ := hk
  rw [hzero] at hhi
  omega

theorem not_system_of_data (hc : Consistent fs d) (hcur : h.Current fs d)
    (hk : ((k : Nat) : Int) ∈ h.file.hdr.sectors) : ¬ InSystem fs k := fun hsystem =>
  ((hcur.dataOnly hc) _ hk).1 (mem_systemSectors.mpr (Or.inr (Or.inr hsystem)))

theorem not_header_of_data (hc : Consistent fs d) (hcur : h.Current fs d)
    (hk : ((k : Nat) : Int) ∈ h.file.hdr.sectors) (name : Block) : ¬ IsHeader fs d name k := by
  rintro ⟨i, hfind, he⟩
  exact ((hcur.dataOnly hc) _ hk).2 i (Directory.findIndex_some hfind).1 he

theorem data_owned (hcur : h.Current fs d) : ∃ i,
    ((fs.directoryOn d).table i).sector = h.sector ∧
      ((fs.directoryOn d).table i).inUse = true ∧
      ∀ t ∈ h.file.hdr.sectors, t ∈ fs.owned d (some i) := by
  obtain ⟨i, hu, hsector, hheader⟩ := hcur
  exact ⟨i, hsector, hu, fun t ht => Consistent.data_mem hu (by rwa [hsector, hheader])⟩

theorem not_next_of_data (hc : Consistent fs d) (hcur : h.Current fs d)
    (hk : ((k : Nat) : Int) ∈ h.file.hdr.sectors) : ¬ IsNext fs d k := by
  intro hnext
  obtain ⟨i, -, -, howned⟩ := data_owned hcur
  exact hc.not_owned_of_clear (List.mem_of_mem_head? hnext) (some i) (howned _ hk)

/-- Requests that go through one sector overlap. -/
theorem overlap_of_holds (hc : Consistent fs d) (hcur : h.Current fs d) (hcur' : h'.Current fs d)
    {n p n' p' : Int} (hspan : Transfer.Span n p) (hspan' : Transfer.Span n' p')
    (hk : Holds h.file.hdr p.toNat (OpenFile.transferred h.file.hdr.numBytes n p).toNat k)
    (hk' : Holds h'.file.hdr p'.toNat (OpenFile.transferred h'.file.hdr.numBytes n' p').toNat k) :
    Task.Overlap h n p h' n' p' := by
  have hv := hcur.valid hc
  have hb := hv.numSectors_bounds
  have hmem := holds_data hv hspan hk
  have hmem' := holds_data (hcur'.valid hc) hspan' hk'
  obtain ⟨i, hsector, -, howned⟩ := data_owned hcur
  obtain ⟨j, hsector', -, howned'⟩ := data_owned hcur'
  have hij : i = j := Option.some.inj (hc.ownership.owner_eq (howned _ hmem) (howned' _ hmem'))
  have hsame : h.sector = h'.sector := by rw [← hsector, ← hsector', hij]
  have hhdr : h'.file.hdr = h.file.hdr := by
    obtain ⟨-, -, -, hheader⟩ := hcur
    obtain ⟨-, -, -, hheader'⟩ := hcur'
    rw [← hheader, ← hheader', hsame]
  obtain ⟨b, hlo, hhi, he⟩ := hk
  obtain ⟨b', hlo', hhi', he'⟩ := hk'
  have hend : ((b : Nat) : Int) < h.file.hdr.numBytes := by
    have := (writeAt_eq hv (fun _ => 0) (fun _ => 0) hspan.1 hspan.2).1
    omega
  have hend' : ((b' : Nat) : Int) < h.file.hdr.numBytes := by
    have := (writeAt_eq (hcur'.valid hc) (fun _ => 0) (fun _ => 0) hspan'.1 hspan'.2).1
    rw [hhdr] at this hhi'
    omega
  refine ⟨hsame, b, b', ⟨hlo, hhi⟩, ⟨hlo', hhi'⟩, ?_⟩
  rw [he, hhdr] at he'
  show b / 128 = b' / 128
  exact hv.sectorNo_inj (by omega) (by omega) he'

theorem Task.apart (hc : Consistent fs d) {t t' : Task} (hlegal : t.Legal fs d)
    (hlegal' : t'.Legal fs d) (hmeet : ¬ t.Meets t') (hk : t.Writes fs d k) :
    ¬ (t'.Reads fs d k ∨ t'.Writes fs d k) := by
  cases t with
  | update u =>
    have hout : ∀ g : Handle, g.Current fs d → ((k : Nat) : Int) ∉ g.file.hdr.sectors :=
      fun g hg hm => hk.elim (not_system_of_data hc hg hm) (not_next_of_data hc hg hm)
    cases t' with
    | update v => exact absurd trivial hmeet
    | «open» name => exact absurd trivial hmeet
    | readAt g into n p =>
      rintro (hread | hwrite)
      · exact hout g hlegal'.1 (holds_data (hlegal'.1.valid hc) hlegal'.2 hread)
      · exact hwrite
    | writeAt g src n p =>
      rintro (hread | hwrite)
      · exact hout g hlegal'.1 (holds_data (hlegal'.1.valid hc) hlegal'.2 hread)
      · exact hout g hlegal'.1 (holds_data (hlegal'.1.valid hc) hlegal'.2 hwrite)
  | «open» name => exact hk.elim
  | readAt g into n p => exact hk.elim
  | writeAt g src n p =>
    have hdata := holds_data (hlegal.1.valid hc) hlegal.2 hk
    have hsystem := not_system_of_data hc hlegal.1 hdata
    have hheader := not_header_of_data hc hlegal.1 hdata
    cases t' with
    | update v =>
      rintro (hread | hwrite)
      · exact hread.elim hsystem (hheader _)
      · exact hwrite.elim hsystem (not_next_of_data hc hlegal.1 hdata)
    | «open» name =>
      rintro (hread | hwrite)
      · exact hread.elim hsystem (hheader _)
      · exact hwrite
    | readAt g' into n' p' =>
      rintro (hread | hwrite)
      · exact hmeet (overlap_of_holds hc hlegal.1 hlegal'.1 hlegal.2 hlegal'.2 hk hread)
      · exact hwrite
    | writeAt g' src' n' p' =>
      rintro (hread | hwrite)
      · exact hmeet (overlap_of_holds hc hlegal.1 hlegal'.1 hlegal.2 hlegal'.2 hk hread)
      · exact hmeet (overlap_of_holds hc hlegal.1 hlegal'.1 hlegal.2 hlegal'.2 hk hwrite)

/-! ## What a task does alone -/

theorem run_update (fs : FileSystem) (junk : Junk) (u : Update) :
    (u.program fs junk).run = u.run fs junk := by
  cases u with
  | create name size =>
    rw [Update.program, Update.run, StoreProgram.run_bind, run_create]
    rfl
  | remove name => exact run_remove fs junk name

theorem Task.runs (hc : Consistent fs d) (junk : Junk) {t : Task} (hlegal : t.Legal fs d) :
    ∃ a d', (t.program fs junk).run d = .ok (a, d') := by
  cases t with
  | update u =>
    obtain ⟨b, d', hrun, -⟩ := update_run hc junk hlegal
    rw [← run_update] at hrun
    exact ⟨_, d', run_bind_of_ok hrun⟩
  | «open» name =>
    have hrun := open_run hc junk name
    rw [← run_open] at hrun
    exact ⟨_, d, run_bind_of_ok hrun⟩
  | readAt h into n p =>
    have hrun := OpenFile.readAt_run (d := d) (hlegal.1.valid hc) into hlegal.2.1 hlegal.2.2
    rw [← run_readAt] at hrun
    exact ⟨_, d, run_bind_of_ok hrun⟩
  | writeAt h src n p =>
    obtain ⟨d', hrun, -, -⟩ :=
      OpenFile.writeAt_run (hlegal.1.valid hc) (junk 0) src hlegal.2.1 hlegal.2.2 d
    rw [← run_writeAt] at hrun
    exact ⟨_, d', run_bind_of_ok hrun⟩

/-- Only an update writes a sector that is no file's data. -/
theorem Task.not_writes (hc : Consistent fs d) {t : Task} (hlegal : t.Legal fs d)
    (hnot : ∀ u, t ≠ .update u)
    (hout : ∀ g : Handle, g.Current fs d → ((k : Nat) : Int) ∉ g.file.hdr.sectors) :
    ¬ t.Writes fs d k := by
  cases t with
  | update u => exact absurd rfl (hnot u)
  | «open» name => exact id
  | readAt g into n p => exact id
  | writeAt g src n p =>
    exact fun hk => hout g hlegal.1 (holds_data (hlegal.1.valid hc) hlegal.2 hk)

/-- The headers of the files after an update are no file's data before it. -/
theorem header_not_data (hc : Consistent fs d) {d' : Disk} {u : Update} {b : Bool}
    (he : Effect fs d d' u b) {i : Fin numDirEntries}
    (hu : ((fs.directoryOn d').table i).inUse = true) (hcur : h.Current fs d) :
    ((fs.directoryOn d').table i).sector ∉ h.file.hdr.sectors := by
  have hdata := hcur.dataOnly hc
  have hold : ∀ j, (fs.directoryOn d').table j = (fs.directoryOn d).table j →
      ((fs.directoryOn d').table j).inUse = true →
      ((fs.directoryOn d').table j).sector ∉ h.file.hdr.sectors := by
    intro j hj huj hm
    rw [hj] at huj hm
    exact (hdata _ hm).2 j huj rfl
  cases he with
  | none _ hd => exact hold i (by rw [hd]) hu
  | adds name size j s _ ha =>
    by_cases hij : i = j
    · intro hm
      rw [hij, ha.table_self] at hm
      obtain ⟨e, -, -, howned⟩ := data_owned hcur
      exact hc.not_owned_of_clear ha.mem_clear (some e) (howned _ hm)
    · exact hold i (ha.table_other hij) hu
  | removes name j hr =>
    by_cases hij : i = j
    · rw [hij, hr.table_self] at hu
      exact absurd hu Bool.false_ne_true
    · exact hold i (hr.table_other hij) hu

end Tasks

/-! ## Interleavings -/

section Interleavings

variable {ι : Type} [DecidableEq ι] {fs : FileSystem} {d : Disk} {junk : ι → Junk}
  {tasks : ι → Task} {c : Threads ι (Fin numSectors) Sector Fault Task.Result}

omit [DecidableEq ι] in
theorem tasks_apart (hc : Consistent fs d) (junk : ι → Junk)
    (hlegal : ∀ i, (tasks i).Legal fs d)
    (hmeet : ∀ i j, i ≠ j → ¬ (tasks i).Meets (tasks j)) :
    Threads.Apart d (fun i => (tasks i).program fs (junk i)) (fun i => (tasks i).Reads fs d)
      fun i => (tasks i).Writes fs d :=
  ⟨fun i => Task.touches hc (junk i) (hlegal i), fun i j hij _ hk =>
    Task.apart hc (hlegal i) (hlegal j) (hmeet i j hij) hk⟩

/-- Threads that have returned leave a consistent disk. -/
theorem consistent_of_finished (hc : Consistent fs d) (hlegal : ∀ i, (tasks i).Legal fs d)
    (hmeet : ∀ i j, i ≠ j → ¬ (tasks i).Meets (tasks j))
    (hr : (Threads.system d fun i => (tasks i).program fs (junk i)).Reachable c)
    (hf : c.Finished) : Consistent fs c.store := by
  have hp := tasks_apart hc junk hlegal hmeet
  by_cases hupdate : ∃ i u, tasks i = .update u
  · -- the one update decides the directory and the free map
    obtain ⟨i, u, hi⟩ := hupdate
    obtain ⟨a, ha⟩ := hf i
    obtain ⟨d', hrun, hstore⟩ := Threads.done_run hp hr ha
    have hlegalu : u.Legal := by
      have := hlegal i
      rwa [hi] at this
    obtain ⟨b, d'', hrun', he⟩ := update_run hc (junk i) hlegalu
    have hsame : d' = d'' := by
      rw [← run_update] at hrun'
      rw [hi, Task.program, run_bind_of_ok hrun'] at hrun
      exact (Prod.mk.inj (Except.ok.inj hrun)).2.symm
    have hcell : ∀ k : Fin numSectors,
        (∀ g : Handle, g.Current fs d → ((k : Nat) : Int) ∉ g.file.hdr.sectors) →
        c.store k = d' k := by
      intro k hout
      by_cases hk : (tasks i).Reads fs d k ∨ (tasks i).Writes fs d k
      · exact hstore k hk
      · rw [(Task.touches hc (junk i) (hlegal i)).frame hrun fun hw => hk (Or.inr hw)]
        refine (Threads.alone_of_reachable hp hr).rest k fun j hw => ?_
        by_cases hji : j = i
        · exact hk (Or.inr (hji ▸ hw))
        · refine Task.not_writes hc (hlegal j) (fun v hv => ?_) hout hw
          have := hmeet i j (Ne.symm hji)
          rw [hi, hv] at this
          exact this trivial
    have hc' := he.consistent hc hlegalu
    rw [← hsame] at he hc'
    refine (hc'.data_write (fun t ht => ?_) fun j hu => ?_).1
    · have hdisk := hc'.onDisk_of_owned (k := none) ht
      rw [sector_eq_cell _ hdisk, sector_eq_cell _ hdisk]
      exact hcell _ fun g hg hm => ((hg.dataOnly hc) t (by rwa [cell_coe] at hm)).1 ht
    · have hdisk := hc'.sector_onDisk hu
      rw [sector_eq_cell _ hdisk, sector_eq_cell _ hdisk]
      exact hcell _ fun g hg hm => header_not_data hc he hu hg (by rwa [cell_coe] at hm)
  · have hcell : ∀ k : Fin numSectors,
        (∀ g : Handle, g.Current fs d → ((k : Nat) : Int) ∉ g.file.hdr.sectors) →
        c.store k = d k := fun k hout =>
      (Threads.alone_of_reachable hp hr).rest k fun j =>
        Task.not_writes hc (hlegal j) (fun u hu => hupdate ⟨j, u, hu⟩) hout
    refine (hc.data_write (fun t ht => ?_) fun j hu => ?_).1
    · have hdisk := hc.onDisk_of_owned (k := none) ht
      rw [sector_eq_cell _ hdisk, sector_eq_cell _ hdisk]
      exact hcell _ fun g hg hm => ((hg.dataOnly hc) t (by rwa [cell_coe] at hm)).1 ht
    · have hdisk := hc.sector_onDisk hu
      rw [sector_eq_cell _ hdisk, sector_eq_cell _ hdisk]
      exact hcell _ fun g hg hm =>
        ((hg.dataOnly hc) _ (by rwa [cell_coe] at hm)).2 j hu rfl

/-- Threads that do not meet, in any interleaving of their sector accesses: none fails, each
that returns gives what it gives alone, and when all have returned the disk is consistent and
is the one that the tasks leave one after the other, in any order. -/
theorem concurrent_serial (hc : Consistent fs d) (junk : ι → Junk)
    (hlegal : ∀ i, (tasks i).Legal fs d)
    (hmeet : ∀ i j, i ≠ j → ¬ (tasks i).Meets (tasks j))
    (hr : (Threads.system d fun i => (tasks i).program fs (junk i)).Reachable c) :
    (∀ i e, c.left i ≠ .fail e) ∧ (c.Finished ∨ ∃ c', Threads.Step c c') ∧
    (∀ i a, c.left i = .done a →
      ∃ d', ((tasks i).program fs (junk i)).run d = .ok (a, d')) ∧
    (c.Finished → Consistent fs c.store ∧ ∀ l : List ι, l.Nodup → (∀ i, i ∈ l) →
      ∃ as, Threads.inTurn (fun i => (tasks i).program fs (junk i)) l d = .ok (as, c.store) ∧
        l.map c.left = as.map .done) := by
  have hp := tasks_apart hc junk hlegal hmeet
  have hnever : ∀ i e, c.left i ≠ .fail e := by
    intro i e hfail
    obtain ⟨a, d', hrun⟩ := Task.runs hc (junk i) (hlegal i)
    have hfails := Threads.fail_run hp hr hfail
    rw [hrun] at hfails
    cases hfails
  refine ⟨hnever, ?_, fun i a ha => ?_,
    fun hf => ⟨consistent_of_finished hc hlegal hmeet hr hf, ?_⟩⟩
  · by_cases hf : c.Finished
    · exact Or.inl hf
    · obtain ⟨i, hi⟩ := not_forall.mp hf
      rcases c.progress i with hdone | ⟨e, hfail⟩ | hstep
      · exact absurd hdone hi
      · exact absurd hfail (hnever i e)
      · exact Or.inr hstep
  · obtain ⟨d', hrun, -⟩ := Threads.done_run hp hr ha
    exact ⟨d', hrun⟩
  · exact fun l hl hall => Threads.serial hp hr hf l hl _ (.of_init rfl) (fun _ _ => rfl)
      fun i hi => absurd (hall i) hi

end Interleavings

/-! ## Writes that meet -/

section Meeting

variable {ι : Type} [DecidableEq ι] {fs : FileSystem} {d : Disk} {junk : ι → Junk}
  {tasks : ι → Task} {h h' : Handle} {src src' : Block} {n p n' p' : Int}

/-- All bytes that the request asks for are in the sector `m` of the file. -/
def OneSector (h : Handle) (numBytes position : Int) (m : Nat) : Prop :=
  (∃ b, Task.Asks h numBytes position b) ∧
    ∀ b, Task.Asks h numBytes position b → b / sectorSize = m

theorem writes_one (hv : h.file.hdr.Valid) (junk : Junk) (src : Block)
    (hspan : Transfer.Span n p) {m : Nat} (hone : OneSector h n p m) (d : Disk) :
    ∃ k v, ((Task.writeAt h src n p).program fs junk).writes d = [(k, v)] ∧
      ((k : Nat) : Int) = h.file.hdr.sectorNo m := by
  obtain ⟨⟨b, hb⟩, hall⟩ := hone
  obtain ⟨d', hrun, -, -⟩ := OpenFile.writeAt_run hv (junk 0) src hspan.1 hspan.2 d
  rw [← run_writeAt] at hrun
  have hwrites : ((Task.writeAt h src n p).program fs junk).writes d =
      (SectorProgram.OpenFile.writeAt h.file (junk 0) src n p).writes d := writes_bind_pure _
  have hsectors := sectorsWritten_writeAt (d := d) hv (junk 0) src hspan.1 hspan.2 rfl
  have hlo := hall p.toNat ⟨Nat.le_refl _, by have := hb.1; have := hb.2; omega⟩
  have hhi := hall (p.toNat + (OpenFile.transferred h.file.hdr.numBytes n p).toNat - 1)
    ⟨by have := hb.1; have := hb.2; omega, by have := hb.1; have := hb.2; omega⟩
  simp only [sectorSize] at hlo hhi
  rw [if_neg (by have := hb.1; have := hb.2; omega), hlo, hhi, Nat.sub_self] at hsectors
  obtain ⟨w, hw, he⟩ := List.map_eq_singleton_iff.mp hsectors
  exact ⟨w.1, w.2, hwrites.trans hw, he⟩

/-- Two writes that meet in one sector, of bytes that may well be different ones: in some
interleaving both return as if all had gone well, and the disk is as if the second one had
never been made. -/
theorem lost_write (hc : Consistent fs d) (junk : ι → Junk) {i j : ι} (hij : i ≠ j)
    (hi : tasks i = .writeAt h src n p) (hj : tasks j = .writeAt h' src' n' p')
    (hlegal : ∀ i, (tasks i).Legal fs d) (hsame : h.sector = h'.sector) {m : Nat}
    (hone : OneSector h n p m) (hone' : OneSector h' n' p' m) :
    ∃ c, (Threads.system d fun i => (tasks i).program fs (junk i)).Reachable c ∧
      c.left i = .done (.written (OpenFile.transferred h.file.hdr.numBytes n p)) ∧
      c.left j = .done (.written (OpenFile.transferred h'.file.hdr.numBytes n' p')) ∧
      ((tasks i).program fs (junk i)).run d =
        .ok (.written (OpenFile.transferred h.file.hdr.numBytes n p), c.store) := by
  obtain ⟨hcur, hspan⟩ : h.Current fs d ∧ Transfer.Span n p := by
    have := hlegal i
    rwa [hi] at this
  obtain ⟨hcur', hspan'⟩ : h'.Current fs d ∧ Transfer.Span n' p' := by
    have := hlegal j
    rwa [hj] at this
  have hv := hcur.valid hc
  have hv' := hcur'.valid hc
  have hhdr : h'.file.hdr = h.file.hdr := by
    obtain ⟨-, -, -, hheader⟩ := hcur
    obtain ⟨-, -, -, hheader'⟩ := hcur'
    rw [← hheader, ← hheader', hsame]
  obtain ⟨t, hrun, -, -⟩ := OpenFile.writeAt_run hv (junk i 0) src hspan.1 hspan.2 d
  obtain ⟨u, hrun', -, -⟩ := OpenFile.writeAt_run hv' (junk j 0) src' hspan'.1 hspan'.2 d
  rw [← run_writeAt] at hrun hrun'
  obtain ⟨k, v, hw, hk⟩ := writes_one hv (junk i) src hspan hone d
  obtain ⟨k', v', hw', hk'⟩ := writes_one hv' (junk j) src' hspan' hone' d
  obtain rfl : k = k' := Fin.ext (Int.ofNat.inj (hk.trans (by rw [← hhdr]; exact hk'.symm)))
  have hruni : ((tasks i).program fs (junk i)).run d =
      .ok (.written (OpenFile.transferred h.file.hdr.numBytes n p), t) := by
    rw [hi]
    exact run_bind_of_ok hrun
  have hrunj : ((tasks j).program fs (junk j)).run d =
      .ok (.written (OpenFile.transferred h'.file.hdr.numBytes n' p'), u) := by
    rw [hj]
    exact run_bind_of_ok hrun'
  obtain ⟨c, hr, hci, hcj, hstore⟩ := Threads.lost_update
    (p := fun i => (tasks i).program fs (junk i)) hij hruni hrunj (by rw [hi]; exact hw)
    (by rw [hj]; exact hw')
  exact ⟨c, hr, hci, hcj, hstore ▸ hruni⟩

end Meeting

/-! ## Two threads and a file of 128 bytes -/

/-- A file of 128 bytes on a disk just formatted, and a handle on it. -/
theorem one_file : ∃ (fs : FileSystem) (d : Disk) (h : Handle),
    Consistent fs d ∧ h.Current fs d ∧ h.file.hdr.numBytes = 128 := by
  obtain ⟨fs, d₀, -, hf⟩ := format_run zeroJunk zeroDisk
  obtain ⟨d, i, -, ha, hc, -⟩ := hf.create zeroJunk fileA
  exact ⟨fs, d, ⟨⟨d.header (5 : Nat), 0⟩, (5 : Nat), true⟩, hc,
    ⟨i, by rw [ha.table_self]; rfl, by rw [ha.table_self]; rfl, rfl⟩, ha.length⟩

/-- One creates a file while the other writes. -/
def createAndWrite (h : Handle) : Bool → Task
  | true => .update (.create fileB 128)
  | false => .writeAt h (fun _ => 7) 100 20

theorem concurrent_serial_fileA : ∃ (fs : FileSystem) (d : Disk) (h : Handle)
      (c : Threads Bool (Fin numSectors) Sector Fault Task.Result),
    (Threads.system d fun i => (createAndWrite h i).program fs zeroJunk).Reachable c ∧
    (∃ a, c.left true = .done a) ∧
    (∀ i e, c.left i ≠ .fail e) ∧
    (c.Finished ∨ ∃ c', Threads.Step c c') ∧
    (∀ i a, c.left i = .done a →
      ∃ d', ((createAndWrite h i).program fs zeroJunk).run d = .ok (a, d')) ∧
    (c.Finished → Consistent fs c.store ∧ ∀ l : List Bool, l.Nodup → (∀ i, i ∈ l) →
      ∃ as, Threads.inTurn (fun i => (createAndWrite h i).program fs zeroJunk) l d =
        .ok (as, c.store) ∧ l.map c.left = as.map .done) := by
  obtain ⟨fs, d, h, hc, hcur, -⟩ := one_file
  have hlegal : ∀ i, (createAndWrite h i).Legal fs d
    | true => show (0 : Int) ≤ 128 ∧ (128 : Int) ≤ maxFileSize by decide
    | false => ⟨hcur, by decide, by decide⟩
  have hmeet : ∀ i j, i ≠ j → ¬ (createAndWrite h i).Meets (createAndWrite h j)
    | true, true => fun hne => absurd rfl hne
    | true, false => fun _ => id
    | false, true => fun _ => id
    | false, false => fun hne => absurd rfl hne
  obtain ⟨a, d', hrun⟩ := Task.runs hc zeroJunk (hlegal true)
  have hr := (System.Reachable.of_init (S := Threads.system d fun i =>
    (createAndWrite h i).program fs zeroJunk) rfl).run (Threads.run_alone d _ rfl hrun)
  exact ⟨fs, d, h, _, hr, ⟨a, rfl⟩,
    concurrent_serial hc (fun _ => zeroJunk) hlegal hmeet hr⟩

/-- Two threads write one byte each. -/
def writeTwo (h : Handle) : Bool → Task
  | true => .writeAt h (fun _ => 7) 1 20
  | false => .writeAt h (fun _ => 8) 1 21

theorem lost_write_fileA : ∃ (fs : FileSystem) (d : Disk) (h : Handle)
      (c : Threads Bool (Fin numSectors) Sector Fault Task.Result), (Threads.system d fun i =>
      (writeTwo h i).program fs zeroJunk).Reachable c ∧
    c.left true = .done (.written (OpenFile.transferred h.file.hdr.numBytes 1 20)) ∧
    c.left false = .done (.written (OpenFile.transferred h.file.hdr.numBytes 1 21)) ∧
    ((writeTwo h true).program fs zeroJunk).run d =
      .ok (.written (OpenFile.transferred h.file.hdr.numBytes 1 20), c.store) := by
  obtain ⟨fs, d, h, hc, hcur, hlen⟩ := one_file
  have hone : ∀ p : Nat, p < 127 → OneSector h 1 p 0 := by
    intro p hp
    have ht : (OpenFile.transferred h.file.hdr.numBytes 1 p).toNat = 1 := by
      rw [hlen, OpenFile.transferred]
      split <;> omega
    refine ⟨⟨p, by rw [Int.toNat_natCast], by rw [ht, Int.toNat_natCast]; omega⟩, ?_⟩
    rintro b ⟨hlo, hhi⟩
    rw [ht, Int.toNat_natCast] at hhi
    rw [Int.toNat_natCast] at hlo
    simp only [sectorSize]
    omega
  have hlegal : ∀ i, (writeTwo h i).Legal fs d := by
    intro i
    cases i with
    | true => exact ⟨hcur, by decide, by decide⟩
    | false => exact ⟨hcur, by decide, by decide⟩
  exact ⟨fs, d, h, lost_write hc (fun _ => zeroJunk) (i := true) (j := false) (by decide)
    rfl rfl hlegal rfl (hone 20 (by decide)) (hone 21 (by decide))⟩

end FileSys
end Nachos
