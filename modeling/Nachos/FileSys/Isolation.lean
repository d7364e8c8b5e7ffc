import Nachos.FileSys.Session

/-!
# Isolation of files

A transfer through a handle on a file that is still in the directory reaches
that file's data and nothing else.  A handle on a removed file reaches sectors
that nobody owns, until some `create` takes one of them: then it reaches the
new file.
-/

namespace Nachos
namespace FileSys

open Lib LittleEndian FileSystem

structure Session.Sound (s : Session) : Prop where
  consistent : Consistent s.fs s.disk
  current : ∀ h ∈ s.handles, h.live = true → h.Current s.fs s.disk

/-- A session just mounted on a disk just formatted. -/
def Mounted (s : Session) : Prop :=
  ∃ junk d, (format junk).run d = .ok (s.fs, s.disk) ∧ s.handles = []

variable {s t : Session}

/-! ## One step -/

theorem Mounted.sound (hm : Mounted s) : s.Sound := by
  obtain ⟨junk, d, hformat, hhandles⟩ := hm
  obtain ⟨fs, d', hrun, hf⟩ := format_run junk d
  rw [hformat, Except.ok.injEq, Prod.mk.injEq] at hrun
  obtain ⟨hfs, hd⟩ := hrun
  refine ⟨by rw [hfs, hd]; exact hf.consistent, fun h hh => ?_⟩
  rw [hhandles] at hh
  exact absurd hh List.not_mem_nil

theorem afterUpdate_false (s : Session) (u : Update) : s.afterUpdate u false = s.handles := by
  cases u <;> rfl

theorem Handle.unlink_of_ne {h : Handle} {sector : Int} (hne : h.sector ≠ sector) :
    h.unlink sector = h := if_neg hne

theorem Handle.unlink_live {h : Handle} {sector : Int} (hlive : (h.unlink sector).live = true) :
    h.unlink sector = h ∧ h.sector ≠ sector := by
  by_cases hs : h.sector = sector
  · rw [Handle.unlink, if_pos hs] at hlive
    exact absurd hlive Bool.false_ne_true
  · exact ⟨Handle.unlink_of_ne hs, hs⟩

/-- A file added to the directory leaves the current handles current. -/
theorem Handle.Current.adds {fs : FileSystem} {d d' : Disk} {h : Handle} {name : Block}
    {initialSize : Int} {i : Fin numDirEntries} {n : Nat} (hcur : h.Current fs d)
    (hc : Consistent fs d) (ha : Adds fs d d' name initialSize i n) : h.Current fs d' := by
  refine hcur.frame fun j hu hsector => ⟨ha.table_other fun he => ?_, ?_⟩
  · rw [he, ha.unused] at hu
    exact Bool.false_ne_true hu
  · rw [← hsector]
    exact ha.frame_owned hc (Consistent.sector_mem hu)

/-- So does the removal of another file. -/
theorem Handle.Current.removes {fs : FileSystem} {d d' : Disk} {h : Handle} {name : Block}
    {i : Fin numDirEntries} (hcur : h.Current fs d) (hc : Consistent fs d)
    (hr : Removes fs d d' name i) (hne : h.sector ≠ ((fs.directoryOn d).table i).sector) :
    h.Current fs d' := by
  refine hcur.frame fun j hu hsector => ⟨hr.table_other fun he => ?_, ?_⟩
  · rw [he] at hsector
    exact hne hsector.symm
  · rw [← hsector]
    exact hr.frame_owned hc (Consistent.sector_mem hu)

theorem Outcome.sound {c : Call} (hs : s.Sound) (hlegal : c.Legal s) (ho : Outcome s c t) :
    t.Sound := by
  cases ho with
  | idle => exact hs
  | updated u b d' he =>
    refine ⟨he.consistent hs.consistent hlegal, fun h hh hlive => ?_⟩
    cases he with
    | none _ hd =>
      subst hd
      rw [afterUpdate_false] at hh
      exact hs.current h hh hlive
    | adds name size i n hcan ha => exact (hs.current h hh hlive).adds hs.consistent ha
    | removes name i hr =>
      simp only [Session.afterUpdate, List.mem_map, find_of_some hr.found] at hh
      obtain ⟨h, hmem, rfl⟩ := hh
      obtain ⟨hsame, hne⟩ := Handle.unlink_live hlive
      rw [hsame] at hlive ⊢
      exact (hs.current h hmem hlive).removes hs.consistent hr hne
  | opened name h hlive hcur =>
    refine ⟨hs.consistent, fun h' hh hlive' => ?_⟩
    rcases List.mem_append.mp hh with hold | hnew
    · exact hs.current h' hold hlive'
    · rw [List.mem_singleton.mp hnew]
      exact hcur
  | transferred k tr h t hk htr =>
    obtain ⟨file, hhdr, hhandles⟩ := htr.handles
    refine ⟨by rw [htr.fs]; exact htr.consistent, fun h' hh hlive => ?_⟩
    have hframe : ∀ g : Handle, g.Current s.fs s.disk → g.Current t.fs t.disk := fun g hg => by
      rw [htr.fs]
      exact hg.frame fun i hu hsector => ⟨by rw [htr.directory], hsector ▸ htr.header i hu⟩
    rw [hhandles] at hh
    rcases List.mem_or_eq_of_mem_set hh with hold | rfl
    · exact hframe h' (hs.current h' hold hlive)
    · obtain ⟨i, hu, hsector, hheader⟩ :=
        hframe h (hs.current h (List.mem_of_getElem? hk) hlive)
      exact ⟨i, hu, hsector, hheader.trans hhdr.symm⟩

/-! ## Handles on files that are still there -/

/-- The runs in which transfers go through live handles only. -/
def liveSystem : System Session where
  init := Mounted
  step s t := ∃ junk c, c.Legal s ∧ (∀ h, c.Through s h → h.live = true) ∧ s.call junk c = .ok t

/-- In a sound session a call through a live handle, or through none, returns. -/
theorem Session.Sound.call {c : Call} (hs : s.Sound) (hlegal : c.Legal s)
    (hlive : ∀ h, c.Through s h → h.live = true) (junk : Junk) :
    ∃ t, s.call junk c = .ok t ∧ Outcome s c t := by
  refine s.call_outcome hs.consistent junk hlegal fun h hh => ?_
  have hmem : h ∈ s.handles := by
    cases c with
    | transfer k tr => exact List.mem_of_getElem? hh
    | update _ => exact hh.elim
    | «open» _ => exact hh.elim
  have hcur := hs.current h hmem (hlive h hh)
  exact ⟨hcur.valid hs.consistent, hcur.dataOnly hs.consistent⟩

theorem sound_of_reachable (hr : liveSystem.Reachable s) : s.Sound := by
  refine hr.induct (fun s hm => hm.sound) fun s t hs hstep => ?_
  obtain ⟨junk, c, hlegal, hlive, hcall⟩ := hstep
  obtain ⟨t', hcall', ho⟩ := hs.call hlegal hlive junk
  rw [hcall, Except.ok.injEq] at hcall'
  rw [hcall']
  exact ho.sound hs hlegal

/-- From `s` to `t` nothing has changed but the data of the file of `h`: not the
free map, the directory or a header, and not the data of another file. -/
structure Isolated (s t : Session) (h : Handle) : Prop where
  system : ∀ n ∈ s.fs.systemSectors, t.disk.sector n = s.disk.sector n
  headers : ∀ i, ((s.fs.directoryOn s.disk).table i).inUse = true →
    t.disk.sector ((s.fs.directoryOn s.disk).table i).sector =
      s.disk.sector ((s.fs.directoryOn s.disk).table i).sector
  others : ∀ i, ((s.fs.directoryOn s.disk).table i).inUse = true →
    ((s.fs.directoryOn s.disk).table i).sector ≠ h.sector →
    ∀ n ∈ (s.disk.header ((s.fs.directoryOn s.disk).table i).sector).sectors,
      t.disk.sector n = s.disk.sector n

/-- From `s` to `t` nothing has changed for the file of `h`: its header, and so
its length, and what any read through `h` returns. -/
structure Unaffected (s t : Session) (h : Handle) : Prop where
  handle : h ∈ t.handles
  header : t.disk.header h.sector = s.disk.header h.sector
  reads : ∀ into numBytes position, Transfer.Span numBytes position →
    ((h.file.readAt into numBytes position).run t.disk).map Prod.fst =
      ((h.file.readAt into numBytes position).run s.disk).map Prod.fst

/-- Reads depend on the file's data sectors only. -/
theorem readAt_congr {f : OpenFile} (hv : f.hdr.Valid) {d d' : Disk}
    (hsame : ∀ n ∈ f.hdr.sectors, d'.sector n = d.sector n) (into : Block)
    {numBytes position : Int} (hspan : Transfer.Span numBytes position) :
    ((f.readAt into numBytes position).run d').map Prod.fst =
      ((f.readAt into numBytes position).run d).map Prod.fst := by
  have hbytes : (fun k : Nat => if (k : Int) <
        OpenFile.transferred f.hdr.numBytes numBytes position
      then fileByte d' f.hdr (position.toNat + k) else into k) =
      fun k : Nat => if (k : Int) < OpenFile.transferred f.hdr.numBytes numBytes position
        then fileByte d f.hdr (position.toNat + k) else into k := by
    funext k
    by_cases hk : (k : Int) < OpenFile.transferred f.hdr.numBytes numBytes position
    · have hend := OpenFile.lt_of_transferred hspan.1 hk
      rw [if_pos hk, if_pos hk, OpenFile.fileByte_congr hv hsame hend]
    · rw [if_neg hk, if_neg hk]
  rw [OpenFile.readAt_run hv into hspan.1 hspan.2, OpenFile.readAt_run hv into hspan.1 hspan.2,
    hbytes]
  rfl

theorem Transferred.isolated {k : Nat} {h : Handle} (hs : s.Sound) (hk : s.handles[k]? = some h)
    (hlive : h.live = true) (htr : Transferred s t k h) : Isolated s t h := by
  have hcur := hs.current h (List.mem_of_getElem? hk) hlive
  have hdata := hcur.dataOnly hs.consistent
  obtain ⟨j, huj, hsj, hheader⟩ := hcur
  refine ⟨fun n hn => htr.frame n fun hm => (hdata n hm).1 hn, htr.header,
    fun i hu hne n hn => htr.frame n fun hm => ?_⟩
  -- the other file is another owner
  rw [← hheader, ← hsj] at hm
  have hij := hs.consistent.ownership.owner_eq (Consistent.data_mem hu hn)
    (Consistent.data_mem huj hm)
  rw [Option.some.inj hij] at hne
  exact hne hsj

theorem Outcome.unaffected {u : Update} {h : Handle} {i : Fin numDirEntries} (hs : s.Sound)
    (hmem : h ∈ s.handles) (hlive : h.live = true)
    (hu : ((s.fs.directoryOn s.disk).table i).inUse = true)
    (hsector : ((s.fs.directoryOn s.disk).table i).sector = h.sector)
    (hname : ((s.fs.directoryOn s.disk).table i).sameName u.name.bytes = false)
    (ho : Outcome s (.update u) t) : Unaffected s t h := by
  have hcur := hs.current h hmem hlive
  have hv := hcur.valid hs.consistent
  obtain ⟨j, huj, hsj, hheader⟩ := hcur
  have hmemHeader : h.sector ∈ s.fs.owned s.disk (some j) := by
    rw [← hsj]
    exact Consistent.sector_mem huj
  have hmemData : ∀ n ∈ h.file.hdr.sectors, n ∈ s.fs.owned s.disk (some j) := fun n hn =>
    Consistent.data_mem huj (by rwa [hsj, hheader])
  cases ho with
  | idle => exact ⟨hmem, rfl, fun _ _ _ _ => rfl⟩
  | updated u b d' he =>
    cases he with
    | none _ hd =>
      subst hd
      exact ⟨by rw [afterUpdate_false]; exact hmem, rfl, fun _ _ _ _ => rfl⟩
    | adds name size k n hcan ha =>
      exact ⟨hmem, header_congr (ha.frame_owned hs.consistent hmemHeader),
        fun into _ _ hspan => readAt_congr hv
          (fun n hn => ha.frame_owned hs.consistent (hmemData n hn)) into hspan⟩
    | removes name k hr =>
      have hne : h.sector ≠ (s.fs.directoryOn s.disk).find name.bytes := fun he => by
        rw [find_of_some hr.found, ← hsector] at he
        have hvictim := Consistent.sector_mem (Directory.findIndex_some hr.found).1
        rw [← he] at hvictim
        have hik := hs.consistent.ownership.owner_eq (Consistent.sector_mem hu) hvictim
        rw [Option.some.inj hik] at hname
        exact Bool.false_ne_true (hname.symm.trans (Directory.findIndex_some hr.found).2)
      have hkept : h ∈ s.afterUpdate (.remove name) true := by
        simp only [Session.afterUpdate, List.mem_map]
        exact ⟨h, hmem, Handle.unlink_of_ne hne⟩
      exact ⟨hkept, header_congr (hr.frame_owned hs.consistent hmemHeader),
        fun into _ _ hspan => readAt_congr hv
          (fun n hn => hr.frame_owned hs.consistent (hmemData n hn)) into hspan⟩

/-- Files that are in the directory do not interfere: a transfer through a live
handle changes the data of its own file only, and an update under another name
changes nothing that a live handle reads. -/
theorem live_handles_isolated (hr : liveSystem.Reachable s) :
    (∀ junk k tr h, s.handles[k]? = some h → h.live = true → tr.InRange h.file →
      ∃ t, s.call junk (.transfer k tr) = .ok t ∧ Isolated s t h) ∧
    ∀ junk u h i, u.Legal → h ∈ s.handles → h.live = true →
      ((s.fs.directoryOn s.disk).table i).inUse = true →
      ((s.fs.directoryOn s.disk).table i).sector = h.sector →
      ((s.fs.directoryOn s.disk).table i).sameName u.name.bytes = false →
      ∃ t, s.call junk (.update u) = .ok t ∧ Unaffected s t h := by
  have hs := sound_of_reachable hr
  constructor
  · intro junk k tr h hk hlive hrange
    have hcur := hs.current h (List.mem_of_getElem? hk) hlive
    obtain ⟨t, hcall, htr⟩ := s.call_transfer hs.consistent hk (hcur.valid hs.consistent)
      (hcur.dataOnly hs.consistent) junk hrange
    exact ⟨t, hcall, htr.isolated hs hk hlive⟩
  · intro junk u h i hlegal hmem hlive hu hsector hname
    obtain ⟨t, hcall, ho⟩ := hs.call (c := .update u) hlegal (fun _ hh => hh.elim) junk
    exact ⟨t, hcall, ho.unaffected hs hmem hlive hu hsector hname⟩

/-! ## Handles on removed files -/

/-- Through `h` no byte that anyone owns can be changed or learned. -/
structure Harmless (s : Session) (h : Handle) : Prop where
  writes : ∀ junk src numBytes position, Transfer.Span numBytes position →
    ∃ r d', (h.file.writeAt junk src numBytes position).run s.disk = .ok (r, d') ∧
      ∀ k, ∀ n ∈ s.fs.owned s.disk k, d'.sector n = s.disk.sector n
  reads : ∀ into numBytes position, Transfer.Span numBytes position → ∀ d' : Disk,
    (∀ n, (∀ k, n ∉ s.fs.owned s.disk k) → d'.sector n = s.disk.sector n) →
    ((h.file.readAt into numBytes position).run d').map Prod.fst =
      ((h.file.readAt into numBytes position).run s.disk).map Prod.fst

theorem Handle.Detached.harmless {h : Handle} (hdet : h.Detached s.fs s.disk) : Harmless s h := by
  refine ⟨fun junk src _ _ hspan => ?_, fun into _ _ hspan d' hsame => ?_⟩
  · obtain ⟨d', hrun, hframe, -⟩ :=
      OpenFile.writeAt_run hdet.1 junk src hspan.1 hspan.2 s.disk
    exact ⟨_, d', hrun, fun k n hn => hframe n fun hm => hdet.2 n hm k hn⟩
  · exact readAt_congr hdet.1 (fun n hn => hsame n (hdet.2 n hn)) into hspan

/-- A byte of the file in each of its sectors. -/
theorem first_byte_lt {h : FileHeader} (hv : h.Valid) {j : Nat} (hj : (j : Int) < h.numSectors) :
    ((j * 128 : Nat) : Int) < h.numBytes := by
  have hb := hv.numSectors_bounds
  omega

/-- A handle with an owned sector can change it. -/
theorem Harmless.detached {h : Handle} (hv : h.file.hdr.Valid) (hh : Harmless s h) :
    h.Detached s.fs s.disk := by
  refine ⟨hv, fun n hn k hk => ?_⟩
  obtain ⟨j, hj, rfl⟩ := FileHeader.mem_sectors.mp hn
  have hlt := first_byte_lt hv hj
  have hmax := OpenFile.numBytes_le hv
  have hspan : Transfer.Span 1 ((j * 128 : Nat) : Int) := ⟨by omega, by omega, by omega⟩
  -- write over the first byte of that sector
  let old := fileByte s.disk h.file.hdr (j * 128)
  obtain ⟨r, d', hrun, hsame⟩ := hh.writes (fun _ => 0) (fun _ => old + 1) 1 _ hspan
  obtain ⟨d₁, hrun₁, -, hbytes⟩ := OpenFile.writeAt_run hv (fun _ => 0) (fun _ => old + 1)
    hspan.1 hspan.2 s.disk
  rw [hrun, Except.ok.injEq, Prod.mk.injEq] at hrun₁
  rw [← hrun₁.2] at hbytes
  have ht : OpenFile.transferred h.file.hdr.numBytes 1 ((j * 128 : Nat) : Int) = 1 := by
    rw [OpenFile.transferred, if_neg (by omega)]
    omega
  have hnew : fileByte d' h.file.hdr (j * 128) = old + 1 := by
    rw [hbytes _ hlt, ht, if_pos (by omega)]
  have hdiv : j * 128 / sectorSize = j := by simp only [sectorSize]; omega
  have hold : fileByte d' h.file.hdr (j * 128) = old := by
    simp only [old, fileByte, hdiv, hsame k _ hk]
  rw [hold] at hnew
  have hnat := congrArg UInt8.toNat hnew
  rw [UInt8.toNat_add] at hnat
  have := old.toNat_lt
  simp only [UInt8.reduceToNat] at hnat
  omega

/-- A `create` that would succeed takes no sector that the handle of a removed
file leads to. -/
def Call.Spares (s : Session) : Call → Prop
  | update (.create name initialSize) =>
    ¬ CanCreate s.fs s.disk name.bytes initialSize ∨
      ∀ h ∈ s.handles, h.live = false → ∀ n ∈ h.file.hdr.sectors, n.toNat ∉
        (s.fs.freeMapOn s.disk).clearBits.take (1 + (divRoundUp initialSize sectorSize).toNat)
  | _ => True

/-- The runs in which every `create` spares the handles of removed files. -/
def sparingSystem : System Session where
  init := Mounted
  step s t := ∃ junk c, c.Legal s ∧ c.Spares s ∧ s.call junk c = .ok t

/-- A sound session whose dead handles lead to sectors nobody owns. -/
structure Spared (s : Session) : Prop where
  sound : s.Sound
  detached : ∀ h ∈ s.handles, h.live = false → h.Detached s.fs s.disk

theorem Spared.dataOnly (hs : Spared s) {h : Handle} (hmem : h ∈ s.handles) :
    h.file.hdr.Valid ∧ DataOnly s.fs s.disk h.file.hdr.sectors := by
  cases hlive : h.live with
  | true =>
    have hcur := hs.sound.current h hmem hlive
    exact ⟨hcur.valid hs.sound.consistent, hcur.dataOnly hs.sound.consistent⟩
  | false => exact ⟨(hs.detached h hmem hlive).1, (hs.detached h hmem hlive).dataOnly⟩

section Detached

variable {fs : FileSystem} {d d' : Disk} {h : Handle} {name : Block} {i : Fin numDirEntries}

theorem Handle.Detached.adds {initialSize : Int} {n : Nat} (hdet : h.Detached fs d)
    (hc : Consistent fs d) (ha : Adds fs d d' name initialSize i n)
    (hdirect : divRoundUp initialSize sectorSize ≤ numDirect)
    (hspare : ∀ m ∈ h.file.hdr.sectors, m.toNat ∉
      (fs.freeMapOn d).clearBits.take (1 + (divRoundUp initialSize sectorSize).toNat)) :
    h.Detached fs d' := by
  refine ⟨hdet.1, fun m hm k hk => ?_⟩
  by_cases hki : k = some i
  · rw [hki, owned, ha.sectors_self hdirect] at hk
    obtain ⟨b, hb, rfl⟩ := List.mem_map.mp hk
    exact hspare _ hm hb
  · rw [ha.owned_other hc hki] at hk
    exact hdet.2 m hm k hk

theorem Handle.Detached.removes (hdet : h.Detached fs d) (hc : Consistent fs d)
    (hr : Removes fs d d' name i) : h.Detached fs d' := by
  refine ⟨hdet.1, fun m hm k hk => ?_⟩
  by_cases hki : k = some i
  · rw [hki, hr.owned_self] at hk
    exact List.not_mem_nil hk
  · rw [hr.owned_other hc hki] at hk
    exact hdet.2 m hm k hk

/-- The removal of a file detaches the handles on it. -/
theorem Handle.Current.detach (hcur : h.Current fs d) (hc : Consistent fs d)
    (hr : Removes fs d d' name i) (hsector : h.sector = ((fs.directoryOn d).table i).sector) :
    h.Detached fs d' := by
  refine ⟨hcur.valid hc, fun m hm k hk => ?_⟩
  have hu := (Directory.findIndex_some hr.found).1
  obtain ⟨-, -, -, hheader⟩ := hcur
  rw [← hheader, hsector] at hm
  by_cases hki : k = some i
  · rw [hki, hr.owned_self] at hk
    exact List.not_mem_nil hk
  · rw [hr.owned_other hc hki] at hk
    exact hki (hc.ownership.owner_eq hk (Consistent.data_mem hu hm))

end Detached

theorem Outcome.spared {c : Call} (hs : Spared s) (hlegal : c.Legal s) (hspare : c.Spares s)
    (ho : Outcome s c t) : Spared t := by
  refine ⟨ho.sound hs.sound hlegal, fun h hh hdead => ?_⟩
  have hc := hs.sound.consistent
  cases ho with
  | idle => exact hs.detached h hh hdead
  | updated u b d' he =>
    cases he with
    | none _ hd =>
      subst hd
      rw [afterUpdate_false] at hh
      exact hs.detached h hh hdead
    | adds name size i n hcan ha =>
      refine (hs.detached h hh hdead).adds hc ha
        (FileHeader.divRoundUp_le_numDirect hlegal.1 hlegal.2) fun m hm => ?_
      exact hspare.resolve_left (not_not.mpr hcan) h hh hdead m hm
    | removes name i hr =>
      simp only [Session.afterUpdate, List.mem_map, find_of_some hr.found] at hh
      obtain ⟨g, hmem, rfl⟩ := hh
      rw [Handle.unlink] at hdead ⊢
      by_cases hsector : g.sector = ((s.fs.directoryOn s.disk).table i).sector
      · rw [if_pos hsector]
        cases hlive : g.live with
        | true => exact (hs.sound.current g hmem hlive).detach hc hr hsector
        | false => exact (hs.detached g hmem hlive).removes hc hr
      · rw [if_neg hsector] at hdead ⊢
        exact (hs.detached g hmem hdead).removes hc hr
  | opened name g hlive hcur =>
    rcases List.mem_append.mp hh with hold | hnew
    · exact hs.detached h hold hdead
    · rw [List.mem_singleton.mp hnew, hlive] at hdead
      exact absurd hdead.symm Bool.false_ne_true
  | transferred k tr g t hk htr =>
    obtain ⟨file, hhdr, hhandles⟩ := htr.handles
    have hframe : ∀ g : Handle, g.Detached s.fs s.disk → g.Detached t.fs t.disk := fun g hg => by
      rw [htr.fs]
      exact ⟨hg.1, by rw [htr.owned]; exact hg.2⟩
    rw [hhandles] at hh
    rcases List.mem_or_eq_of_mem_set hh with hold | rfl
    · exact hframe h (hs.detached h hold hdead)
    · obtain ⟨hv, hdet⟩ := hframe g (hs.detached g (List.mem_of_getElem? hk) hdead)
      exact ⟨by rw [hhdr]; exact hv, by rw [hhdr]; exact hdet⟩

theorem spared_of_reachable (hr : sparingSystem.Reachable s) : Spared s := by
  refine hr.induct (fun s hm => ⟨hm.sound, ?_⟩) fun s t hs hstep => ?_
  · obtain ⟨-, -, -, hhandles⟩ := hm
    rw [hhandles]
    exact fun h hh => absurd hh List.not_mem_nil
  · obtain ⟨junk, c, hlegal, hspare, hcall⟩ := hstep
    obtain ⟨t', hcall', ho⟩ := s.call_outcome hs.sound.consistent junk hlegal fun h hh =>
      hs.dataOnly (by
        cases c with
        | transfer k tr => exact List.mem_of_getElem? hh
        | update _ => exact hh.elim
        | «open» _ => exact hh.elim)
    rw [hcall, Except.ok.injEq] at hcall'
    rw [hcall']
    exact ho.spared hs hlegal hspare

/-- While every `create` spares them, the handles of removed files are harmless. -/
theorem dead_handles_harmless (hr : sparingSystem.Reachable s) {h : Handle} (hmem : h ∈ s.handles)
    (hdead : h.live = false) : Harmless s h :=
  ((spared_of_reachable hr).detached h hmem hdead).harmless

/-! ## A run that reuses the sectors of a removed file -/

section Reuse

variable {fs : FileSystem} {d d' d'' : Disk}

/-- Removing the file just added gives its sectors back to the free map. -/
theorem FileSystem.Removes.restores {name : Block} {initialSize : Int} {i : Fin numDirEntries} {n : Nat}
    (ha : Adds fs d d' name initialSize i n) (hr : Removes fs d' d'' name i)
    (hdirect : divRoundUp initialSize sectorSize ≤ numDirect) :
    (fs.freeMapOn d'').clearBits = (fs.freeMapOn d).clearBits := by
  refine BitMap.clearBits_congr fun j hj => ?_
  have hmem : ((j : Int) ∈ fs.owned d' (some i)) ↔ j ∈ (fs.freeMapOn d).clearBits.take
      (1 + (divRoundUp initialSize sectorSize).toNat) := by
    rw [owned, ha.sectors_self hdirect, List.mem_map]
    refine ⟨fun h => ?_, fun hm => ⟨j, hm, rfl⟩⟩
    obtain ⟨m, hm, he⟩ := h
    rwa [← Int.ofNat.inj he]
  rw [hr.freeMap j hj, ha.freeMap j hj, decide_eq_decide.mpr hmem]
  by_cases hin : j ∈ (fs.freeMapOn d).clearBits.take
      (1 + (divRoundUp initialSize sectorSize).toNat)
  · have hbit := (BitMap.mem_clearBits.mp (List.mem_of_mem_take hin)).2
    rw [decide_eq_true hin, hbit]
    rfl
  · rw [decide_eq_false hin, Bool.or_false, Bool.not_false, Bool.and_true]

/-- The first file of one sector on an empty disk has its header in sector 5 and
its data in sector 6. -/
theorem FileSystem.Fresh.create (hf : Fresh fs d) (junk : Junk) (name : CString) :
    ∃ d' i, ((Update.create name 128).run fs junk).run d = .ok (true, d') ∧
      Adds fs d d' name.bytes 128 i 5 ∧ Consistent fs d' ∧ (d'.header (5 : Nat)).sectors = [6] := by
  have hround : divRoundUp 128 sectorSize = 1 := by decide
  have hcan : CanCreate fs d name.bytes 128 := hf.canCreate name.bytes (by rw [hround]; decide)
  obtain ⟨d', i, n, hrun, ha⟩ := create_of_can hf.consistent junk (by decide) hcan
  obtain rfl : 5 = n := by
    have := ha.clear
    rw [hf.clear] at this
    exact Option.some.inj this
  have hsectors := ha.sectors (by decide)
  rw [hround, hf.clear] at hsectors
  exact ⟨d', i, by rw [Update.run, run_bind hrun, run_pure], ha,
    ha.consistent hf.consistent hcan.absent (by decide) (by decide), hsectors⟩

theorem FileSystem.Fresh.removes {name : Block} {i : Fin numDirEntries} {n : Nat} (hf : Fresh fs d)
    (ha : Adds fs d d' name 128 i n) (hc' : Consistent fs d') (hr : Removes fs d' d'' name i) :
    Fresh fs d'' := by
  refine ⟨hr.consistent hc', fun j => ?_, by rw [hr.restores ha (by decide), hf.clear]⟩
  by_cases hj : j = i
  · rw [hj, hr.table_self]
    rfl
  · rw [hr.table_other hj, ha.table_other hj]
    exact hf.empty j

end Reuse

theorem call_update {u : Update} {junk : Junk} {b : Bool} {d' : Disk}
    (hrun : (u.run s.fs junk).run s.disk = .ok (b, d')) :
    s.call junk (.update u) = .ok { s with disk := d', handles := s.afterUpdate u b } := by
  simp only [Session.call, hrun]
  rfl

def fileB : CString := ⟨[98], by simp⟩

/-- Create a file, open it, remove it, and create another one: the new file gets
the sectors of the old one, which the old handle still leads to. -/
theorem reuse_run : ∃ s₀ s₁ s₂ s₃ s₄ h, Mounted s₀ ∧
    s₀.call zeroJunk (.update (.create fileA 128)) = .ok s₁ ∧
    s₁.call zeroJunk (.open fileA) = .ok s₂ ∧
    s₂.call zeroJunk (.update (.remove fileA)) = .ok s₃ ∧
    s₃.call zeroJunk (.update (.create fileB 128)) = .ok s₄ ∧
    s₀.handles = [] ∧ s₂.handles = [h] ∧ h.live = true ∧
    s₃.handles = [{ h with live := false }] ∧ s₄.handles = s₃.handles ∧ h.file.hdr.Valid ∧
    (6 : Int) ∈ h.file.hdr.sectors ∧ ∃ k, (6 : Int) ∈ s₄.fs.owned s₄.disk k := by
  obtain ⟨fs, d₀, hformat, hf₀⟩ := format_run zeroJunk zeroDisk
  obtain ⟨d₁, i, hrun₁, ha₁, hc₁, hsectors₁⟩ := hf₀.create zeroJunk fileA
  have hfind := ha₁.findIndex hc₁
  obtain ⟨d₃, hrun₃, hr⟩ := remove_of_some hc₁ zeroJunk hfind
  have hf₃ := hf₀.removes ha₁ hc₁ hr
  obtain ⟨d₄, j, hrun₄, ha₄, hc₄, hsectors₄⟩ := hf₃.create zeroJunk fileB
  have hsector : (fs.directoryOn d₁).find fileA.bytes = (5 : Nat) := by
    rw [find_of_some hfind, ha₁.table_self]
    rfl
  let h : Handle := ⟨⟨d₁.header (5 : Nat), 0⟩, (5 : Nat), true⟩
  refine ⟨⟨fs, d₀, []⟩, ⟨fs, d₁, []⟩, ⟨fs, d₁, [h]⟩, ⟨fs, d₃, [{ h with live := false }]⟩,
    ⟨fs, d₄, [{ h with live := false }]⟩, h, ⟨zeroJunk, zeroDisk, hformat, rfl⟩,
    call_update hrun₁, ?_, ?_, call_update hrun₄, rfl, rfl, rfl, rfl, rfl,
    ha₁.valid (by decide) (by decide), ?_, some j, ?_⟩
  · simp only [Session.call, ha₁.open_run hc₁ zeroJunk, hsector]
    rfl
  · rw [call_update (s := ⟨fs, d₁, [h]⟩) (u := .remove fileA) hrun₃]
    simp only [Session.afterUpdate, hsector]
    rfl
  · rw [show h.file.hdr.sectors = [6] from hsectors₁]
    exact List.mem_singleton_self 6
  · rw [owned, ha₄.table_self, DirectoryEntry.sectors]
    exact List.mem_cons_of_mem _ (by
      rw [show ((fs.directoryOn d₃).table j |>.fill fileB.bytes (5 : Nat)).sector = (5 : Nat)
        from rfl, hsectors₄]
      exact List.mem_singleton_self 6)

theorem live_handles_isolated_fileA : ∃ s h, liveSystem.Reachable s ∧ h ∈ s.handles ∧
    h.live = true ∧
    (∀ junk k tr h, s.handles[k]? = some h → h.live = true → tr.InRange h.file →
      ∃ t, s.call junk (.transfer k tr) = .ok t ∧ Isolated s t h) ∧
    ∀ junk u h i, u.Legal → h ∈ s.handles → h.live = true →
      ((s.fs.directoryOn s.disk).table i).inUse = true →
      ((s.fs.directoryOn s.disk).table i).sector = h.sector →
      ((s.fs.directoryOn s.disk).table i).sameName u.name.bytes = false →
      ∃ t, s.call junk (.update u) = .ok t ∧ Unaffected s t h := by
  obtain ⟨s₀, s₁, s₂, -, -, h, hm, h₁, h₂, -, -, -, hhandles, hlive, -⟩ := reuse_run
  have hr₁ : liveSystem.Reachable s₁ := (System.Reachable.of_init hm).step
    ⟨zeroJunk, .update (.create fileA 128), ⟨by decide, by decide⟩, fun _ hh => hh.elim, h₁⟩
  have hr₂ : liveSystem.Reachable s₂ := hr₁.step
    ⟨zeroJunk, .open fileA, trivial, fun _ hh => hh.elim, h₂⟩
  exact ⟨s₂, h, hr₂, by rw [hhandles]; exact List.mem_singleton_self h, hlive,
    live_handles_isolated hr₂⟩

theorem dead_handles_harmless_fileA : ∃ s h, sparingSystem.Reachable s ∧ h ∈ s.handles ∧
    h.live = false ∧ Harmless s h := by
  obtain ⟨s₀, s₁, s₂, s₃, -, h, hm, h₁, h₂, h₃, -, hnone, -, -, hhandles, -⟩ := reuse_run
  have hr₁ : sparingSystem.Reachable s₁ := (System.Reachable.of_init hm).step
    ⟨zeroJunk, .update (.create fileA 128), ⟨by decide, by decide⟩, Or.inr fun h hh => by
      rw [hnone] at hh
      exact absurd hh List.not_mem_nil, h₁⟩
  have hr₂ : sparingSystem.Reachable s₂ := hr₁.step ⟨zeroJunk, .open fileA, trivial, trivial, h₂⟩
  have hr₃ : sparingSystem.Reachable s₃ := hr₂.step
    ⟨zeroJunk, .update (.remove fileA), trivial, trivial, h₃⟩
  have hmem : { h with live := false } ∈ s₃.handles := by
    rw [hhandles]
    exact List.mem_singleton_self _
  exact ⟨s₃, _, hr₃, hmem, rfl, dead_handles_harmless hr₃ hmem rfl⟩

/-- The handle of a removed file reaches the data of the file created next. -/
theorem dead_handle_reaches_new_file : ∃ s₀ s₁ s₂ s₃ s₄ h, Mounted s₀ ∧
    s₀.call zeroJunk (.update (.create fileA 128)) = .ok s₁ ∧
    s₁.call zeroJunk (.open fileA) = .ok s₂ ∧
    s₂.call zeroJunk (.update (.remove fileA)) = .ok s₃ ∧
    s₃.call zeroJunk (.update (.create fileB 128)) = .ok s₄ ∧
    h ∈ s₄.handles ∧ h.live = false ∧ ¬ Harmless s₄ h := by
  obtain ⟨s₀, s₁, s₂, s₃, s₄, h, hm, h₁, h₂, h₃, h₄, -, -, -, hhandles, hsame, hv, hmem, k, hk⟩ :=
    reuse_run
  refine ⟨s₀, s₁, s₂, s₃, s₄, { h with live := false }, hm, h₁, h₂, h₃, h₄, ?_, rfl, fun hh => ?_⟩
  · rw [hsame, hhandles]
    exact List.mem_singleton_self _
  · exact (Harmless.detached (h := { h with live := false }) hv hh).2 6 hmem k hk

end FileSys
end Nachos
