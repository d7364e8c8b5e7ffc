import Nachos.FileSys.Updates
import Nachos.Lib.System

/-!
# Sessions

A session is the mounted file system with the handles that `open` has given out.
Each handle keeps the header it read when it was opened, whatever happens to the
file later, and `remove` does not look at handles.
-/

namespace Nachos
namespace FileSys

open Lib LittleEndian FileSystem

/-- An open file.  The code has `file` only: `sector` records where its header
was read from, and `live` whether the file is still in the directory. -/
structure Handle where
  file : OpenFile
  sector : Int
  live : Bool

structure Session where
  fs : FileSystem
  disk : Disk
  handles : List Handle

/-- The calls on an open file. -/
inductive Transfer
  | readAt (numBytes position : Int)
  | writeAt (src : Block) (numBytes position : Int)
  | read (numBytes : Int)
  | write (src : Block) (numBytes : Int)
  | seek (position : Int)

namespace Transfer

def run (junk : Junk) (f : OpenFile) : Transfer → SynchDisk OpenFile
  | readAt numBytes position => do
    let _ ← f.readAt (junk 0) numBytes position
    pure f
  | writeAt src numBytes position => do
    let _ ← f.writeAt (junk 0) src numBytes position
    pure f
  | read numBytes => do
    let result ← f.read (junk 0) numBytes
    pure result.1
  | write src numBytes => do
    let result ← f.write (junk 0) src numBytes
    pure result.1
  | seek position => pure (f.seek position)

/-- A position from which `numBytes` can be counted in an `int`. -/
def Span (numBytes position : Int) : Prop := 0 ≤ position ∧ Fits (position + numBytes)

def InRange (f : OpenFile) : Transfer → Prop
  | readAt numBytes position => Span numBytes position
  | writeAt _ numBytes position => Span numBytes position
  | read numBytes => Span numBytes f.seekPosition
  | write _ numBytes => Span numBytes f.seekPosition
  | seek _ => True

/-- A transfer touches the file's own data sectors only, and the handle goes on
with the same header. -/
theorem run_frame {f : OpenFile} (hv : f.hdr.Valid) (junk : Junk) {tr : Transfer}
    (hr : tr.InRange f) (d : Disk) :
    ∃ f' d', (tr.run junk f).run d = .ok (f', d') ∧ f'.hdr = f.hdr ∧
      ∀ s, s ∉ f.hdr.sectors → d'.sector s = d.sector s := by
  cases tr with
  | readAt numBytes position =>
    exact ⟨f, d, by rw [run, run_bind (OpenFile.readAt_run hv _ hr.1 hr.2), run_pure], rfl,
      fun _ _ => rfl⟩
  | writeAt src numBytes position =>
    obtain ⟨d', hrun, hframe, -⟩ := OpenFile.writeAt_run hv (junk 0) src hr.1 hr.2 d
    exact ⟨f, d', by rw [run, run_bind hrun, run_pure], rfl, hframe⟩
  | read numBytes =>
    refine ⟨f.advance (OpenFile.transferred f.hdr.numBytes numBytes f.seekPosition), d, ?_, rfl,
      fun _ _ => rfl⟩
    rw [run, OpenFile.read, bind_assoc, run_bind (OpenFile.readAt_run hv _ hr.1 hr.2)]
    rfl
  | write src numBytes =>
    obtain ⟨d', hrun, hframe, -⟩ := OpenFile.writeAt_run hv (junk 0) src hr.1 hr.2 d
    refine ⟨f.advance (OpenFile.transferred f.hdr.numBytes numBytes f.seekPosition), d', ?_, rfl,
      hframe⟩
    rw [run, OpenFile.write, bind_assoc, run_bind hrun]
    rfl
  | seek position => exact ⟨f.seek position, d, rfl, rfl, fun _ _ => rfl⟩

end Transfer

inductive Call
  | update (u : Update)
  | «open» (name : CString)
  | transfer (handle : Nat) (tr : Transfer)

/-- The handle after the file with its header in `sector` is removed. -/
def Handle.unlink (h : Handle) (sector : Int) : Handle :=
  if h.sector = sector then { h with live := false } else h

namespace Session

/-- The handles after an update that gave `success`. -/
def afterUpdate (s : Session) (u : Update) (success : Bool) : List Handle :=
  match u, success with
  | .remove name, true =>
    s.handles.map fun h => h.unlink ((s.fs.directoryOn s.disk).find name.bytes)
  | _, _ => s.handles

/-- One call of the session. -/
def call (s : Session) (junk : Junk) : Call → Except Fault Session
  | .update u => do
    let (success, d) ← (u.run s.fs junk).run s.disk
    pure { s with disk := d, handles := s.afterUpdate u success }
  | .open name => do
    let (result, d) ← (s.fs.open junk name).run s.disk
    match result with
    | some file =>
      let sector := (s.fs.directoryOn s.disk).find name.bytes
      pure { s with disk := d, handles := s.handles ++ [{ file, sector, live := true }] }
    | none => pure { s with disk := d }
  | .transfer k tr =>
    match s.handles[k]? with
    | some h => do
      let (file, d) ← (tr.run junk h.file).run s.disk
      pure { s with disk := d, handles := s.handles.set k { h with file } }
    | none => pure s

end Session

namespace Handle

/-- The handle's header is the one a directory entry in use leads to. -/
def Current (h : Handle) (fs : FileSystem) (d : Disk) : Prop :=
  ∃ i, ((fs.directoryOn d).table i).inUse = true ∧
    ((fs.directoryOn d).table i).sector = h.sector ∧ d.header h.sector = h.file.hdr

/-- Nobody owns the sectors the handle leads to. -/
def Detached (h : Handle) (fs : FileSystem) (d : Disk) : Prop :=
  h.file.hdr.Valid ∧ ∀ t ∈ h.file.hdr.sectors, ∀ k, t ∉ fs.owned d k

end Handle

/-! ## Writes to the data of files -/

section DataWrite

variable {fs : FileSystem} {d d' : Disk}

/-- A write that spares the system's sectors and all headers of files leaves the
owners of all sectors as they are. -/
theorem FileSystem.Consistent.data_write (hc : Consistent fs d)
    (hsystem : ∀ t ∈ fs.systemSectors, d'.sector t = d.sector t)
    (hheader : ∀ i, ((fs.directoryOn d).table i).inUse = true →
      d'.sector ((fs.directoryOn d).table i).sector = d.sector ((fs.directoryOn d).table i).sector) :
    Consistent fs d' ∧ fs.directoryOn d' = fs.directoryOn d ∧ fs.owned d' = fs.owned d ∧
      fs.freeMapOn d' = fs.freeMapOn d := by
  have hdir : fs.directoryOn d' = fs.directoryOn d :=
    directoryOn_congr hc.files fun t ht => hsystem t (mem_systemSectors.mpr (by tauto))
  have hmap : fs.freeMapOn d' = fs.freeMapOn d :=
    freeMapOn_congr hc.files fun t ht => hsystem t (mem_systemSectors.mpr (by tauto))
  have howned : fs.owned d' = fs.owned d := by
    funext k
    cases k with
    | none => rfl
    | some i =>
      rw [owned, owned, hdir]
      exact DirectoryEntry.sectors_congr (hheader i)
  refine ⟨⟨hc.files, ?_, ?_, fun i hu => ?_, ?_, ?_⟩, hdir, howned, hmap⟩
  · rw [header_congr (hsystem _ (mem_systemSectors.mpr (Or.inl rfl))), hc.mapHeader]
  · rw [header_congr (hsystem _ (mem_systemSectors.mpr (Or.inr (Or.inl rfl)))), hc.dirHeader]
  · rw [hdir] at hu ⊢
    rw [header_congr (hheader i hu)]
    exact hc.fileValid i hu
  · rw [howned]
    exact hc.ownership.congr (fun _ => rfl) fun a => by rw [Marked, Marked, hmap]
  · rw [hdir]
    exact hc.names

end DataWrite

/-! ## The sectors of a handle -/

section HandleSectors

variable {fs : FileSystem} {d d' : Disk} {h : Handle}

/-- Sectors that are neither the system's nor a file's header. -/
def DataOnly (fs : FileSystem) (d : Disk) (l : List Int) : Prop :=
  ∀ t ∈ l, t ∉ fs.systemSectors ∧ ∀ i, ((fs.directoryOn d).table i).inUse = true →
    t ≠ ((fs.directoryOn d).table i).sector

theorem Handle.Current.valid (hc : Consistent fs d) (hcur : h.Current fs d) :
    h.file.hdr.Valid := by
  obtain ⟨i, hu, hsector, hhdr⟩ := hcur
  rw [← hhdr, ← hsector]
  exact hc.fileValid i hu

theorem Handle.Current.dataOnly (hc : Consistent fs d) (hcur : h.Current fs d) :
    DataOnly fs d h.file.hdr.sectors := by
  obtain ⟨i, hu, hsector, hhdr⟩ := hcur
  have hdata : ∀ t ∈ h.file.hdr.sectors,
      t ∈ (d.header ((fs.directoryOn d).table i).sector).sectors := fun t ht => by
    rwa [hsector, hhdr]
  have hnodup := hc.ownership.nodup (some i)
  rw [owned, DirectoryEntry.sectors, if_pos hu, List.nodup_cons] at hnodup
  refine fun t ht => ⟨hc.not_system (Consistent.data_mem hu (hdata t ht)), fun j hj he => ?_⟩
  have hmem := Consistent.sector_mem hj
  rw [← he] at hmem
  have hij := Option.some.inj (hc.ownership.owner_eq (Consistent.data_mem hu (hdata t ht)) hmem)
  rw [← hij] at he
  rw [← he] at hnodup
  exact hnodup.1 (by have := hdata t ht; rwa [← he] at this)

theorem Handle.Detached.dataOnly (hdet : h.Detached fs d) : DataOnly fs d h.file.hdr.sectors :=
  fun t ht => ⟨hdet.2 t ht none, fun i hu he => hdet.2 t ht (some i) (by
    rw [he]
    exact Consistent.sector_mem hu)⟩

/-- A handle stays current as long as its entry and its header stay. -/
theorem Handle.Current.frame (hcur : h.Current fs d)
    (hentry : ∀ i, ((fs.directoryOn d).table i).inUse = true →
      ((fs.directoryOn d).table i).sector = h.sector →
      (fs.directoryOn d').table i = (fs.directoryOn d).table i ∧
        d'.sector h.sector = d.sector h.sector) : h.Current fs d' := by
  obtain ⟨i, hu, hsector, hhdr⟩ := hcur
  obtain ⟨htable, hsame⟩ := hentry i hu hsector
  exact ⟨i, by rw [htable]; exact hu, by rw [htable]; exact hsector,
    by rw [header_congr hsame]; exact hhdr⟩

end HandleSectors

/-! ## One call -/

/-- What a transfer through the handle `h` at `k` does to the session. -/
structure Transferred (s t : Session) (k : Nat) (h : Handle) : Prop where
  fs : t.fs = s.fs
  handles : ∃ file : OpenFile, file.hdr = h.file.hdr ∧ t.handles = s.handles.set k { h with file }
  frame : ∀ n, n ∉ h.file.hdr.sectors → t.disk.sector n = s.disk.sector n
  consistent : Consistent s.fs t.disk
  directory : s.fs.directoryOn t.disk = s.fs.directoryOn s.disk
  header : ∀ i, ((s.fs.directoryOn s.disk).table i).inUse = true →
    t.disk.sector ((s.fs.directoryOn s.disk).table i).sector =
      s.disk.sector ((s.fs.directoryOn s.disk).table i).sector
  owned : s.fs.owned t.disk = s.fs.owned s.disk

/-- What a call that returns does to the session. -/
inductive Outcome (s : Session) : Call → Session → Prop
  | idle (c : Call) : Outcome s c s
  | updated (u : Update) (success : Bool) (d' : Disk) : Effect s.fs s.disk d' u success →
      Outcome s (.update u) { s with disk := d', handles := s.afterUpdate u success }
  | opened (name : CString) (h : Handle) : h.live = true → h.Current s.fs s.disk →
      Outcome s (.open name) { s with handles := s.handles ++ [h] }
  | transferred (k : Nat) (tr : Transfer) (h : Handle) (t : Session) :
      s.handles[k]? = some h → Transferred s t k h → Outcome s (.transfer k tr) t

/-- Arguments in the ranges that the calls are meant for. -/
def Call.Legal (s : Session) : Call → Prop
  | update u => u.Legal
  | .open _ => True
  | transfer k tr => ∀ h, s.handles[k]? = some h → tr.InRange h.file

/-- The handle a call goes through, if any. -/
def Call.Through (s : Session) (h : Handle) : Call → Prop
  | transfer k _ => s.handles[k]? = some h
  | _ => False

namespace Session

variable {s t : Session}

theorem call_transfer (hc : Consistent s.fs s.disk) {k : Nat} {h : Handle}
    (hk : s.handles[k]? = some h) (hv : h.file.hdr.Valid)
    (hdata : DataOnly s.fs s.disk h.file.hdr.sectors) (junk : Junk) {tr : Transfer}
    (hr : tr.InRange h.file) :
    ∃ t, s.call junk (.transfer k tr) = .ok t ∧ Transferred s t k h := by
  obtain ⟨file, d', hrun, hhdr, hframe⟩ := tr.run_frame hv junk hr s.disk
  have hheader : ∀ i, ((s.fs.directoryOn s.disk).table i).inUse = true →
      d'.sector ((s.fs.directoryOn s.disk).table i).sector =
        s.disk.sector ((s.fs.directoryOn s.disk).table i).sector :=
    fun i hu => hframe _ fun hm => (hdata _ hm).2 i hu rfl
  obtain ⟨hc', hdir, howned, -⟩ := hc.data_write
    (fun t ht => hframe t fun hm => (hdata t hm).1 ht) hheader
  refine ⟨{ s with disk := d', handles := s.handles.set k { h with file } }, ?_, rfl,
    ⟨file, hhdr, rfl⟩, hframe, hc', hdir, hheader, howned⟩
  simp only [call, hk, hrun]
  rfl

theorem call_open (hc : Consistent s.fs s.disk) (junk : Junk) (name : CString) :
    ∃ t, s.call junk (.open name) = .ok t ∧ Outcome s (.open name) t := by
  have hrun := open_run hc junk name
  cases hfind : (s.fs.directoryOn s.disk).findIndex name.bytes with
  | none =>
    rw [hfind, Option.map_none] at hrun
    refine ⟨s, ?_, .idle _⟩
    simp only [call, hrun]
    rfl
  | some i =>
    rw [hfind, Option.map_some] at hrun
    generalize hsector : ((s.fs.directoryOn s.disk).table i).sector = sector at hrun
    have hcall : s.call junk (.open name) = .ok
        { s with handles := s.handles ++ [⟨⟨s.disk.header sector, 0⟩, sector, true⟩] } := by
      rw [← hsector, ← find_of_some hfind] at hrun ⊢
      simp only [call, hrun]
      rfl
    refine ⟨_, hcall, .opened name _ rfl ?_⟩
    exact ⟨i, (Directory.findIndex_some hfind).1, hsector, rfl⟩

/-- On a consistent disk a legal call returns, provided that a transfer goes
through a handle that leads to data only. -/
theorem call_outcome (hc : Consistent s.fs s.disk) (junk : Junk) {c : Call} (hlegal : c.Legal s)
    (hdata : ∀ h, c.Through s h →
      h.file.hdr.Valid ∧ DataOnly s.fs s.disk h.file.hdr.sectors) :
    ∃ t, s.call junk c = .ok t ∧ Outcome s c t := by
  cases c with
  | update u =>
    obtain ⟨b, d', hrun, he⟩ := update_run hc junk hlegal
    exact ⟨_, by simp only [call, hrun]; rfl, .updated u b d' he⟩
  | «open» name => exact call_open hc junk name
  | transfer k tr =>
    cases hk : s.handles[k]? with
    | none => exact ⟨s, by simp only [call, hk]; rfl, .idle _⟩
    | some h =>
      obtain ⟨hv, hd⟩ := hdata h hk
      obtain ⟨t, hcall, htr⟩ := call_transfer hc hk hv hd junk (hlegal h hk)
      exact ⟨t, hcall, .transferred k tr h t hk htr⟩

end Session

end FileSys
end Nachos
