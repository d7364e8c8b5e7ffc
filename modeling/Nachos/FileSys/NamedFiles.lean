import Nachos.FileSys.FileStore
import Nachos.FileSys.Isolation

/-!
# The file system keeps a store of named files

A session shows a store: the entries in use are its keys, and the bytes that their
headers lead to are its files.  Each request changes the session as the store says.
-/

namespace Nachos
namespace FileSys

open Lib LittleEndian FileSystem

/-! ## Serving requests -/

/-- A transfer with its answer. -/
def Transfer.answer (junk : Junk) (f : OpenFile) : Transfer → SynchDisk (Answer × OpenFile)
  | readAt numBytes position => do
    let (n, into) ← f.readAt (junk 0) numBytes position
    pure (.data n (into.bytes n.toNat), f)
  | writeAt src numBytes position => do
    let n ← f.writeAt (junk 0) src numBytes position
    pure (.count n, f)
  | read numBytes => do
    let (f', n, into) ← f.read (junk 0) numBytes
    pure (.data n (into.bytes n.toNat), f')
  | write src numBytes => do
    let (f', n) ← f.write (junk 0) src numBytes
    pure (.count n, f')
  | seek position => pure (.done, f.seek position)

namespace Session

/-- A kernel that starts on the disk `d`. -/
def boot (d : Disk) : Except Fault (Answer × Session) := do
  let (fs, d) ← mount.run d
  pure (.done, ⟨fs, d, []⟩)

def serve (s : Session) (junk : Junk) : Request → Except Fault (Answer × Session)
  | .call (.update u) => do
    let (success, d) ← (u.run s.fs junk).run s.disk
    pure (.success success, { s with disk := d, handles := s.afterUpdate u success })
  | .call (.open name) => do
    let (result, d) ← (s.fs.open junk name).run s.disk
    match result with
    | some file =>
      let sector := (s.fs.directoryOn s.disk).find name.bytes
      pure (.success true,
        { s with disk := d, handles := s.handles ++ [{ file, sector, live := true }] })
    | none => pure (.success false, { s with disk := d })
  | .call (.transfer k tr) =>
    match s.handles[k]? with
    | some h => do
      let ((answer, file), d) ← (tr.answer junk h.file).run s.disk
      pure (answer, { s with disk := d, handles := s.handles.set k { h with file } })
    | none => pure (.done, s)
  | .length k =>
    match s.handles[k]? with
    | some h => pure (.count h.file.length, s)
    | none => pure (.done, s)
  | .restart => boot s.disk
  | .lost u n => boot ((u.program s.fs junk).stopped s.disk n)
  | .torn k src numBytes position n =>
    match s.handles[k]? with
    | some h => boot ((SectorProgram.OpenFile.writeAt h.file (junk 0) src numBytes
        position).stopped s.disk n)
    | none => boot s.disk

end Session

/-- Requests with arguments in the ranges that the calls are meant for, through handles on
files that are still there.  A machine that stops in an update stops where the disk is
consistent. -/
def Request.Legal (s : Session) (junk : Junk) : Request → Prop
  | call (.update u) => u.Legal
  | call (.open _) => True
  | call (.transfer k tr) => ∃ h, s.handles[k]? = some h ∧ h.live = true ∧ tr.InRange h.file ∧
      ∀ position, tr = .seek position → Fits position
  | length k => ∃ h, s.handles[k]? = some h ∧ h.live = true
  | restart => True
  | lost u n => u.Legal ∧ Consistent s.fs ((u.program s.fs junk).stopped s.disk n)
  | torn k _ numBytes position _ => ∃ h, s.handles[k]? = some h ∧ h.live = true ∧
      Transfer.Span numBytes position

/-- The runs of a file system on a disk just formatted, with the requests and answers. -/
def servedSystem : System (Session × List (Request × Answer)) where
  init s := Mounted s.1 ∧ s.2 = []
  step s t := ∃ junk r a, r.Legal s.1 junk ∧ s.1.serve junk r = .ok (a, t.1) ∧
    t.2 = s.2 ++ [(r, a)]

/-! ## The bits of a map -/

namespace BitMap

variable {n : Nat}

def marked (m : BitMap n) : Finset Nat := (Finset.range n).filter fun j => m.bit j = true

theorem mem_marked {m : BitMap n} {j : Nat} : j ∈ m.marked ↔ j < n ∧ m.bit j = true := by
  rw [marked, Finset.mem_filter, Finset.mem_range]

theorem card_marked_add (m : BitMap n) : m.marked.card + m.clearBits.length = n := by
  have hclear : (Finset.range n).filter (fun j => ¬ m.bit j = true) = m.clearBits.toFinset := by
    ext j
    rw [List.mem_toFinset, mem_clearBits, Finset.mem_filter, Finset.mem_range, Bool.not_eq_true]
  rw [marked, ← List.toFinset_card_of_nodup m.nodup_clearBits, ← hclear,
    Finset.card_filter_add_card_filter_not, Finset.card_range]

end BitMap

/-! ## The files of a disk -/

namespace FileSystem

variable {fs : FileSystem} {d d' : Disk} {i : Fin numDirEntries}

/-- The file of a directory entry: its key and its bytes. -/
def fileSlot (fs : FileSystem) (d : Disk) (i : Fin numDirEntries) :
    Option (List UInt8 × List UInt8) :=
  if ((fs.directoryOn d).table i).inUse then
    some (nameKey ((fs.directoryOn d).table i).nameBytes,
      contents d (d.header ((fs.directoryOn d).table i).sector))
  else none

theorem fileSlot_of_used (hu : ((fs.directoryOn d).table i).inUse = true) :
    fs.fileSlot d i = some (nameKey ((fs.directoryOn d).table i).nameBytes,
      contents d (d.header ((fs.directoryOn d).table i).sector)) := if_pos hu

theorem fileSlot_of_unused (hu : ((fs.directoryOn d).table i).inUse = false) :
    fs.fileSlot d i = none := if_neg (by rw [hu]; exact Bool.false_ne_true)

theorem fileSlot_eq_none : fs.fileSlot d i = none ↔ ((fs.directoryOn d).table i).inUse = false := by
  cases hu : ((fs.directoryOn d).table i).inUse with
  | false => exact iff_of_true (fileSlot_of_unused hu) rfl
  | true =>
    rw [fileSlot_of_used hu]
    exact iff_of_false (Option.some_ne_none _) (Bool.false_ne_true ∘ Eq.symm)

theorem fileSlot_of_found {name : CString} (h : (fs.directoryOn d).findIndex name.bytes = some i) :
    fs.fileSlot d i =
      some (name.key, contents d (d.header ((fs.directoryOn d).table i).sector)) := by
  obtain ⟨hu, hname⟩ := Directory.findIndex_some h
  rw [fileSlot_of_used hu, (DirectoryEntry.sameName_iff _ name).mp hname]

/-- The bytes of a file depend on its data sectors only. -/
theorem contents_congr {h : FileHeader} (hv : h.Valid)
    (hsame : ∀ t ∈ h.sectors, d'.sector t = d.sector t) : contents d' h = contents d h :=
  bytes_congr fun k hk => OpenFile.fileByte_congr hv hsame (by omega)

/-- An entry that stays, with its sectors, keeps its file. -/
theorem fileSlot_congr (hc : Consistent fs d)
    (htable : (fs.directoryOn d').table i = (fs.directoryOn d).table i)
    (hsame : ∀ t ∈ fs.owned d (some i), d'.sector t = d.sector t) :
    fs.fileSlot d' i = fs.fileSlot d i := by
  cases hu : ((fs.directoryOn d).table i).inUse with
  | false => rw [fileSlot_of_unused hu, fileSlot_of_unused (by rw [htable]; exact hu)]
  | true =>
    have hheader := header_congr (hsame _ (Consistent.sector_mem hu))
    rw [fileSlot_of_used hu, fileSlot_of_used (by rw [htable]; exact hu), htable, hheader,
      contents_congr (hc.fileValid i hu) fun t ht => hsame t (Consistent.data_mem hu ht)]

theorem fileSlot_removed {name : Block} (hr : Removes fs d d' name i) :
    fs.fileSlot d' i = none :=
  fileSlot_of_unused (by rw [hr.table_self]; rfl)

theorem fileSlot_removes (hc : Consistent fs d) {name : Block} (hr : Removes fs d d' name i)
    {j : Fin numDirEntries} (hj : j ≠ i) : fs.fileSlot d' j = fs.fileSlot d j :=
  fileSlot_congr hc (hr.table_other hj) fun _ ht => hr.frame_owned hc ht

theorem fileSlot_added {name : CString} {size : Int} {s : Nat}
    (ha : Adds fs d d' name.bytes size i s) :
    fs.fileSlot d' i = some (name.key, contents d' (d'.header s)) := by
  have hkey : nameKey ((fs.directoryOn d').table i).nameBytes = name.key := by
    rw [← DirectoryEntry.sameName_iff, ha.table_self, DirectoryEntry.sameName_fill]
    exact strncmpEq_refl _ _ _
  rw [fileSlot_of_used (by rw [ha.table_self]; rfl), hkey, ha.table_self]
  rfl

theorem fileSlot_adds (hc : Consistent fs d) {name : CString} {size : Int} {s : Nat}
    (ha : Adds fs d d' name.bytes size i s) {j : Fin numDirEntries} (hj : j ≠ i) :
    fs.fileSlot d' j = fs.fileSlot d j :=
  fileSlot_congr hc (ha.table_other hj) fun _ ht => ha.frame_owned hc ht

/-! ## Lookups and room -/

section Represented

variable {m : BoundedMap (List UInt8) (List UInt8) numDirEntries} {name : CString}

theorem lookup_of_found (hm : Represents (fs.fileSlot d) m)
    (h : (fs.directoryOn d).findIndex name.bytes = some i) :
    m.lookup name.key = some (contents d (d.header ((fs.directoryOn d).table i).sector)) :=
  (hm.lookup _ _).mpr ⟨i, fileSlot_of_found h⟩

theorem lookup_of_absent (hm : Represents (fs.fileSlot d) m)
    (h : (fs.directoryOn d).findIndex name.bytes = none) : m.lookup name.key = none := by
  rw [hm.lookup_none]
  intro i l hi
  have hu : ((fs.directoryOn d).table i).inUse = true := by
    by_contra hn
    rw [fileSlot_of_unused (Bool.not_eq_true _ ▸ hn)] at hi
    exact absurd hi (Option.some_ne_none _).symm
  rw [fileSlot_of_used hu, Option.some.injEq, Prod.mk.injEq] at hi
  have hname := Directory.findIndex_none h i hu
  rw [(DirectoryEntry.sameName_iff _ name).mpr hi.1] at hname
  exact Bool.false_ne_true hname.symm

theorem isSome_of_found (hm : Represents (fs.fileSlot d) m)
    (h : (fs.directoryOn d).findIndex name.bytes = some i) :
    (m.lookup name.key).isSome = true := by
  rw [lookup_of_found hm h]
  rfl

theorem lookup_none_iff_absent (hm : Represents (fs.fileSlot d) m) :
    m.lookup name.key = none ↔ (fs.directoryOn d).findIndex name.bytes = none := by
  cases h : (fs.directoryOn d).findIndex name.bytes with
  | none => exact iff_of_true (lookup_of_absent hm h) rfl
  | some i =>
    rw [lookup_of_found hm h]
    exact iff_of_false (Option.some_ne_none _) (Option.some_ne_none _)

/-- A file's header and data take as many sectors as its length asks for. -/
theorem length_owned (hc : Consistent fs d) (i : Fin numDirEntries) :
    (fs.owned d (some i)).length =
      (fs.fileSlot d i).elim 0 fun b => fileSectors b.2.length := by
  cases hu : ((fs.directoryOn d).table i).inUse with
  | false =>
    rw [fileSlot_of_unused hu, owned, DirectoryEntry.sectors,
      if_neg (by rw [hu]; exact Bool.false_ne_true)]
    rfl
  | true =>
    have hv := hc.fileValid i hu
    have hb := hv.numSectors_bounds
    rw [fileSlot_of_used hu, Option.elim_some, length_contents, owned, DirectoryEntry.sectors,
      if_pos hu, List.length_cons, FileHeader.sectors, List.length_map, List.length_range,
      fileSectors, sectorSize]
    have := hv.nonneg
    omega

theorem length_systemSectors (hf : fs.SystemFiles) : fs.systemSectors.length = 5 := by
  rw [systemSectors, List.length_cons, List.length_cons, List.length_append, hf.map_sectors,
    hf.dir_sectors]
  rfl

/-- The sectors that are clear are those that neither the system nor a file takes. -/
theorem numClear_of_represents (hc : Consistent fs d) (hm : Represents (fs.fileSlot d) m)
    (handles : List (Option (List UInt8) × Int)) :
    (fs.freeMapOn d).numClear + (5 + (FileStore.mk m handles).used : Nat) = numSectors := by
  have hused : (FileStore.mk m handles).used = ∑ i, (fs.owned d (some i)).length := by
    rw [FileStore.used, hm.sum_keys fun l => fileSectors l.length]
    exact Finset.sum_congr rfl fun i _ => (length_owned hc i).symm
  have hcard : (fs.freeMapOn d).marked.card = 5 + ∑ i, (fs.owned d (some i)).length := by
    have himage : ((fs.freeMapOn d).marked.image (Nat.cast : Nat → Int)).card =
        ∑ k, (fs.owned d k).length := by
      refine hc.ownership.card_marked fun a => ?_
      rw [Finset.mem_image, Marked]
      constructor
      · rintro ⟨j, hj, rfl⟩
        rw [BitMap.mem_marked] at hj
        exact ⟨⟨Int.natCast_nonneg j, Int.ofNat_lt.mpr hj.1⟩, hj.2⟩
      · rintro ⟨⟨hlo, hhi⟩, hbit⟩
        exact ⟨a.toNat, BitMap.mem_marked.mpr ⟨(Int.toNat_lt hlo).mpr hhi, hbit⟩,
          Int.toNat_of_nonneg hlo⟩
    rw [Finset.card_image_of_injective _ Nat.cast_injective, Fintype.sum_option] at himage
    rw [himage, owned, length_systemSectors hc.files]
  have hsplit := (fs.freeMapOn d).card_marked_add
  rw [BitMap.numClear_eq, hused]
  omega

/-- `create` can go through exactly when the store has room. -/
theorem canCreate_iff (hc : Consistent fs d) (hm : Represents (fs.fileSlot d) m)
    (handles : List (Option (List UInt8) × Int)) {size : Int} (hsize : 0 ≤ size) :
    CanCreate fs d name.bytes size ↔ (FileStore.mk m handles).HasRoom name.key size.toNat := by
  have hroom : 1 + max 0 (divRoundUp size sectorSize) = (fileSectors size.toNat : Nat) := by
    rw [divRoundUp_of_nonneg hsize, fileSectors]
    simp only [sectorSize]
    split <;> omega
  have hclear := numClear_of_represents hc hm handles
  have hentry : (∃ i, ((fs.directoryOn d).table i).inUse = false) ↔
      m.keys.card < numDirEntries := by
    rw [hm.room_iff]
    exact exists_congr fun i => fileSlot_eq_none.symm
  constructor
  · intro hcan
    have hle := hcan.room
    exact ⟨(lookup_none_iff_absent hm).mpr (Directory.findIndex_eq_none_iff.mpr hcan.absent),
      hentry.mp hcan.unused, by omega⟩
  · rintro ⟨habsent, hcard, hle⟩
    exact ⟨Directory.findIndex_eq_none_iff.mp ((lookup_none_iff_absent hm).mp habsent),
      hentry.mpr hcard, by omega⟩

end Represented

end FileSystem

/-! ## Transfers -/

section Transfers

variable {f : OpenFile} {numBytes position : Int}

theorem length_contents_int (hv : f.hdr.Valid) (d : Disk) :
    ((contents d f.hdr).length : Int) = f.length := by
  have hlength : f.length = f.hdr.numBytes := rfl
  rw [length_contents, hlength, Int.toNat_of_nonneg hv.nonneg]

/-- A request for part of a file asks for `n` bytes. -/
theorem transferred_contents (hv : f.hdr.Valid) (d : Disk) (numBytes position : Int) :
    ∃ n : Nat, OpenFile.transferred (contents d f.hdr).length numBytes position = n ∧
      OpenFile.transferred f.length numBytes position = n ∧
      (position + n ≤ f.length ∨ n = 0) := by
  obtain ⟨n, hn, hle⟩ := OpenFile.transferred_bounds f numBytes position
  exact ⟨n, by rw [length_contents_int hv, hn], hn.symm, hle⟩

theorem readAt_contents (hv : f.hdr.Valid) (into : Block) (hspan : Transfer.Span numBytes position)
    {d : Disk} {n : Nat} (hn : OpenFile.transferred f.length numBytes position = n)
    (hle : position + n ≤ f.length ∨ n = 0) :
    ∃ into', (f.readAt into numBytes position).run d = .ok (((n : Int), into'), d) ∧
      into'.bytes n = ((contents d f.hdr).drop position.toNat).take n := by
  have hlength : f.length = f.hdr.numBytes := rfl
  have hrun := OpenFile.readAt_run (d := d) hv into hspan.1 hspan.2
  rw [← hlength, hn] at hrun
  exact ⟨_, hrun, OpenFile.bytes_of_read hspan.1 hle fun k hk => if_pos (by omega)⟩

theorem writeAt_contents (hv : f.hdr.Valid) (junk src : Block)
    (hspan : Transfer.Span numBytes position) (d : Disk) {n : Nat}
    (hn : OpenFile.transferred f.length numBytes position = n)
    (hle : position + n ≤ f.length ∨ n = 0) :
    ∃ d', (f.writeAt junk src numBytes position).run d = .ok ((n : Int), d') ∧
      contents d' f.hdr = splice (contents d f.hdr) position.toNat (src.bytes n) ∧
      ∀ s, s ∉ f.hdr.sectors → d'.sector s = d.sector s := by
  have hlength : f.length = f.hdr.numBytes := rfl
  obtain ⟨d', hrun, hframe, hbytes⟩ := OpenFile.writeAt_run hv junk src hspan.1 hspan.2 d
  rw [← hlength, hn] at hrun
  refine ⟨d', hrun, OpenFile.contents_of_write hspan.1 hle fun k hk => ?_, hframe⟩
  rw [hbytes k hk, ← hlength, hn]

/-- A transfer does to the file's bytes and to the position what `onBytes` says. -/
theorem Transfer.answer_run (hv : f.hdr.Valid) (junk : Junk) {tr : Transfer}
    (hr : tr.InRange f) (hfit : Fits f.seekPosition)
    (hseek : ∀ position, tr = .seek position → Fits position) (d : Disk) :
    ∃ f' d', (tr.answer junk f).run d =
        .ok (((tr.onBytes (contents d f.hdr) f.seekPosition).1, f'), d') ∧
      f'.hdr = f.hdr ∧ contents d' f.hdr = (tr.onBytes (contents d f.hdr) f.seekPosition).2.1 ∧
      f'.seekPosition = (tr.onBytes (contents d f.hdr) f.seekPosition).2.2 ∧
      Fits f'.seekPosition ∧ ∀ s, s ∉ f.hdr.sectors → d'.sector s = d.sector s := by
  cases tr with
  | readAt numBytes position =>
    obtain ⟨n, hn, hn', hle⟩ := transferred_contents hv d numBytes position
    obtain ⟨into, hrun, hbytes⟩ := readAt_contents (d := d) hv (junk 0) hr hn' hle
    refine ⟨f, d, ?_, rfl, rfl, rfl, hfit, fun _ _ => rfl⟩
    simp only [onBytes, hn, Int.toNat_natCast, ← hbytes]
    rw [answer, run_bind hrun, run_pure]
    rfl
  | writeAt src numBytes position =>
    obtain ⟨n, hn, hn', hle⟩ := transferred_contents hv d numBytes position
    obtain ⟨d', hrun, hbytes, hframe⟩ := writeAt_contents hv (junk 0) src hr d hn' hle
    refine ⟨f, d', ?_, rfl, ?_, rfl, hfit, hframe⟩
    · simp only [onBytes, hn]
      rw [answer, run_bind hrun, run_pure]
    · simp only [onBytes, hn, Int.toNat_natCast, hbytes]
  | read numBytes =>
    obtain ⟨n, hn, hn', hle⟩ := transferred_contents hv d numBytes f.seekPosition
    obtain ⟨into, hrun, hbytes⟩ := readAt_contents (d := d) hv (junk 0) hr hn' hle
    have hmoved := OpenFile.fits_moved hv hfit hle
    refine ⟨f.advance n, d, ?_, rfl, rfl, ?_, ?_, fun _ _ => rfl⟩
    · simp only [onBytes, hn, Int.toNat_natCast, ← hbytes]
      rw [answer, OpenFile.read, bind_assoc, run_bind hrun]
      rfl
    · simp only [onBytes, hn]
      exact wrap_of_fits hmoved
    · rw [OpenFile.advance, wrap_of_fits hmoved]
      exact hmoved
  | write src numBytes =>
    obtain ⟨n, hn, hn', hle⟩ := transferred_contents hv d numBytes f.seekPosition
    obtain ⟨d', hrun, hbytes, hframe⟩ := writeAt_contents hv (junk 0) src hr d hn' hle
    have hmoved := OpenFile.fits_moved hv hfit hle
    refine ⟨f.advance n, d', ?_, rfl, ?_, ?_, ?_, hframe⟩
    · simp only [onBytes, hn]
      rw [answer, OpenFile.write, bind_assoc, run_bind hrun]
      rfl
    · simp only [onBytes, hn, Int.toNat_natCast, hbytes]
    · simp only [onBytes, hn]
      exact wrap_of_fits hmoved
    · rw [OpenFile.advance, wrap_of_fits hmoved]
      exact hmoved
  | seek position =>
    exact ⟨f.seek position, d, rfl, rfl, rfl, rfl, hseek position rfl, fun _ _ => rfl⟩

end Transfers

/-! ## What a session shows -/

/-- The store's record of a handle. -/
structure Handle.Shown (h : Handle) (fs : FileSystem) (d : Disk)
    (r : Option (List UInt8) × Int) : Prop where
  position : h.file.seekPosition = r.2
  fits : Fits r.2
  dead : h.live = false → r.1 = none
  live : h.live = true → ∃ i, ((fs.directoryOn d).table i).inUse = true ∧
    ((fs.directoryOn d).table i).sector = h.sector ∧
    r.1 = some (nameKey ((fs.directoryOn d).table i).nameBytes)

structure Session.Shows (s : Session) (st : FileStore) : Prop where
  sound : s.Sound
  files : Represents (s.fs.fileSlot s.disk) st.files
  handles : List.Forall₂ (fun h r => Handle.Shown h s.fs s.disk r) s.handles st.handles

section Shows

variable {fs : FileSystem} {d d' : Disk} {s t : Session} {st : FileStore} {h : Handle}
  {r : Option (List UInt8) × Int}

/-- A handle is shown as before as long as its entry stays. -/
theorem Handle.Shown.frame (hs : h.Shown fs d r)
    (hentry : ∀ i, ((fs.directoryOn d).table i).inUse = true →
      ((fs.directoryOn d).table i).sector = h.sector →
      (fs.directoryOn d').table i = (fs.directoryOn d).table i) : h.Shown fs d' r := by
  refine ⟨hs.position, hs.fits, hs.dead, fun hlive => ?_⟩
  obtain ⟨i, hu, hsector, hkey⟩ := hs.live hlive
  have htable := hentry i hu hsector
  exact ⟨i, by rw [htable]; exact hu, by rw [htable]; exact hsector, by rw [htable]; exact hkey⟩

/-- The entry of a live handle: its key, its sector and its bytes. -/
theorem Session.Shows.entry (hs : s.Shows st) {k : Nat} (hk : s.handles[k]? = some h)
    (hlive : h.live = true) : ∃ i key,
      ((s.fs.directoryOn s.disk).table i).inUse = true ∧
      ((s.fs.directoryOn s.disk).table i).sector = h.sector ∧
      st.handles[k]? = some (some key, h.file.seekPosition) ∧ Fits h.file.seekPosition ∧
      s.fs.fileSlot s.disk i = some (key, contents s.disk h.file.hdr) := by
  have hlt : k < s.handles.length := (List.getElem?_eq_some_iff.mp hk).1
  have hlt' : k < st.handles.length := by rwa [← hs.handles.length_eq]
  have hget : s.handles[k] = h := (List.getElem?_eq_some_iff.mp hk).2
  have hshown : Handle.Shown h s.fs s.disk st.handles[k] := by
    rw [← hget]
    exact hs.handles.get hlt hlt'
  obtain ⟨i, hu, hsector, hkey⟩ := hshown.live hlive
  obtain ⟨j, huj, hsj, hheader⟩ := hs.sound.current h (List.mem_of_getElem? hk) hlive
  refine ⟨i, nameKey ((s.fs.directoryOn s.disk).table i).nameBytes, hu, hsector, ?_,
    hshown.position ▸ hshown.fits, ?_⟩
  · rw [List.getElem?_eq_getElem hlt', hshown.position, ← hkey]
  · rw [fileSlot_of_used hu, hsector, hheader]

theorem Session.Shows.lookup (hs : s.Shows st) {i : Fin numDirEntries} {key l : List UInt8}
    (hi : s.fs.fileSlot s.disk i = some (key, l)) : st.files.lookup key = some l :=
  (hs.files.lookup _ _).mpr ⟨i, hi⟩

/-! ## Updates -/

/-- A new file: its key is bound to bytes of the length asked for. -/
theorem Session.Shows.created (hs : s.Shows st) {name : CString} {size : Int}
    (hlegal : 0 ≤ size ∧ size ≤ maxFileSize) {i : Fin numDirEntries} {n : Nat}
    (hcan : CanCreate s.fs s.disk name.bytes size)
    (ha : Adds s.fs s.disk d name.bytes size i n) :
    ∃ st', st.Updates (.create name size) true st' ∧ Session.Shows { s with disk := d } st' := by
  have hc := hs.sound.consistent
  have hroom := (canCreate_iff hc hs.files st.handles hlegal.1).mp hcan
  have hsound : Session.Sound { s with disk := d } :=
    (Outcome.updated _ _ d (.adds name size i n hcan ha)).sound hs.sound
      (c := .update (.create name size)) hlegal
  refine ⟨_, .created name size (contents d (d.header n)) hroom ?_, hsound, ?_, ?_⟩
  · rw [length_contents, ha.length]
  · exact (hs.files.add (fileSlot_of_unused ha.unused) hroom.1 (fileSlot_added ha) fun j hj =>
      fileSlot_adds hc ha hj).2
  · refine hs.handles.imp fun g r hg => hg.frame fun j hu _ => ha.table_other fun he => ?_
    rw [he, ha.unused] at hu
    exact Bool.false_ne_true hu

theorem Handle.Shown.unlink (hshown : h.Shown fs d r) (hc : Consistent fs d) {name : CString}
    {i : Fin numDirEntries} (hr : Removes fs d d' name.bytes i) :
    (h.unlink ((fs.directoryOn d).table i).sector).Shown fs d'
      (FileStore.unlink name.key r) := by
  obtain ⟨hu, hname⟩ := Directory.findIndex_some hr.found
  have hkey := (DirectoryEntry.sameName_iff _ name).mp hname
  by_cases hsector : h.sector = ((fs.directoryOn d).table i).sector
  · rw [Handle.unlink, if_pos hsector]
    have hnone : (FileStore.unlink name.key r).1 = none ∧
        (FileStore.unlink name.key r).2 = r.2 := by
      rw [FileStore.unlink]
      cases hlive : h.live with
      | false =>
        rw [if_neg (by rw [hshown.dead hlive]; exact (Option.some_ne_none _).symm)]
        exact ⟨hshown.dead hlive, rfl⟩
      | true =>
        obtain ⟨j, huj, hsj, hkj⟩ := hshown.live hlive
        have hji : j = i := Option.some.inj (hc.ownership.owner_eq (Consistent.sector_mem huj)
          (by rw [hsj, hsector]; exact Consistent.sector_mem hu))
        rw [if_pos (by rw [hkj, hji, hkey])]
        exact ⟨rfl, rfl⟩
    exact ⟨hnone.2 ▸ hshown.position, hnone.2 ▸ hshown.fits, fun _ => hnone.1,
      fun hlive => absurd hlive Bool.false_ne_true⟩
  · rw [Handle.unlink_of_ne hsector, FileStore.unlink, if_neg fun hsame => ?_]
    · refine hshown.frame fun j _ hsj => hr.table_other fun he => ?_
      rw [he] at hsj
      exact hsector hsj.symm
    · -- the handle's file has another name than the removed one
      cases hlive : h.live with
      | false =>
        rw [hshown.dead hlive] at hsame
        exact Option.some_ne_none _ hsame.symm
      | true =>
        obtain ⟨j, huj, hsj, hkj⟩ := hshown.live hlive
        have hji : j ≠ i := fun he => hsector (by rw [← hsj, he])
        have hdiff := hc.names j i hji huj hu
        rw [hkj, Option.some.injEq, ← hkey] at hsame
        rw [DirectoryEntry.sameName, strncmpEq_iff_cstr.mpr hsame] at hdiff
        exact Bool.false_ne_true hdiff.symm

theorem Session.Shows.removed (hs : s.Shows st) {name : CString} {i : Fin numDirEntries}
    (hr : Removes s.fs s.disk d name.bytes i) :
    ∃ st', st.Updates (.remove name) true st' ∧
      Session.Shows { s with disk := d, handles := s.afterUpdate (.remove name) true } st' := by
  have hc := hs.sound.consistent
  have hbound := isSome_of_found hs.files hr.found
  refine ⟨_, .removed name hbound, ?_, ?_, ?_⟩
  · exact (Outcome.updated _ _ d (.removes name i hr)).sound hs.sound
      (c := .update (.remove name)) trivial
  · exact (hs.files.remove (fileSlot_of_found hr.found) (fileSlot_removed hr) fun j hj =>
      fileSlot_removes hc hr hj).2
  · show List.Forall₂ _ (s.handles.map _) (st.handles.map _)
    rw [List.forall₂_map_left_iff, List.forall₂_map_right_iff, find_of_some hr.found]
    exact hs.handles.imp fun g r hg => hg.unlink hc hr

theorem Session.Shows.serve_update (hs : s.Shows st) (junk : Junk) {u : Update} (hu : u.Legal) :
    ∃ a t st', s.serve junk (.call (.update u)) = .ok (a, t) ∧
      st.Step (.call (.update u)) a st' ∧ t.Shows st' := by
  have hc := hs.sound.consistent
  cases u with
  | create name size =>
    by_cases hcan : CanCreate s.fs s.disk name.bytes size
    · obtain ⟨d, i, n, hrun, ha⟩ := create_of_can hc junk (fits_of_legal hu) hcan
      obtain ⟨st', hstep, hshows⟩ := hs.created hu hcan ha
      have hrun' : ((Update.create name size).run s.fs junk).run s.disk = .ok (true, d) := by
        rw [Update.run, run_bind hrun, run_pure]
      exact ⟨_, _, st', by simp only [serve, hrun']; rfl, .updated _ _ _ hstep, hshows⟩
    · have hroom := (canCreate_iff hc hs.files st.handles hu.1).not.mp hcan
      have hrun : ((Update.create name size).run s.fs junk).run s.disk = .ok (false, s.disk) := by
        rw [Update.run, run_bind (create_of_not hc junk hcan), run_pure]
      exact ⟨_, s, st, by simp only [serve, hrun]; rfl,
        .updated _ _ _ (.refused name size hroom), hs⟩
  | remove name =>
    cases hfind : (s.fs.directoryOn s.disk).findIndex name.bytes with
    | none =>
      have hrun : ((Update.remove name).run s.fs junk).run s.disk = .ok (false, s.disk) :=
        remove_of_none hc junk hfind
      exact ⟨_, s, st, by simp only [serve, hrun]; rfl,
        .updated _ _ _ (.absent name (lookup_of_absent hs.files hfind)), hs⟩
    | some i =>
      obtain ⟨d, hrun, hr⟩ := remove_of_some hc junk hfind
      obtain ⟨st', hstep, hshows⟩ := hs.removed hr
      have hrun' : ((Update.remove name).run s.fs junk).run s.disk = .ok (true, d) := hrun
      exact ⟨_, _, st', by simp only [serve, hrun']; rfl, .updated _ _ _ hstep, hshows⟩

/-! ## Opening -/

theorem fits_zero : Fits 0 := by decide

theorem Session.Shows.serve_open (hs : s.Shows st) (junk : Junk) (name : CString) :
    ∃ a t st', s.serve junk (.call (.open name)) = .ok (a, t) ∧
      st.Step (.call (.open name)) a st' ∧ t.Shows st' := by
  have hc := hs.sound.consistent
  have hrun := open_run hc junk name
  cases hfind : (s.fs.directoryOn s.disk).findIndex name.bytes with
  | none =>
    rw [hfind, Option.map_none] at hrun
    exact ⟨_, s, st, by simp only [serve, hrun]; rfl,
      .unknown name (lookup_of_absent hs.files hfind), hs⟩
  | some i =>
    rw [hfind, Option.map_some] at hrun
    obtain ⟨hu, hname⟩ := Directory.findIndex_some hfind
    let h : Handle := ⟨⟨s.disk.header ((s.fs.directoryOn s.disk).table i).sector, 0⟩,
      ((s.fs.directoryOn s.disk).table i).sector, true⟩
    have hserve : s.serve junk (.call (.open name)) =
        .ok (.success true, { s with handles := s.handles ++ [h] }) := by
      simp only [serve, hrun, find_of_some hfind]
      rfl
    have hcur : h.Current s.fs s.disk := ⟨i, hu, rfl, rfl⟩
    refine ⟨_, _, _, hserve, .opened name (isSome_of_found hs.files hfind), ?_, hs.files, ?_⟩
    · exact (Outcome.opened name h rfl hcur).sound hs.sound (c := .open name) trivial
    · refine List.rel_append hs.handles (.cons ⟨rfl, fits_zero, fun hdead => ?_, fun _ => ?_⟩ .nil)
      · exact absurd hdead.symm Bool.false_ne_true
      · exact ⟨i, hu, rfl, by rw [(DirectoryEntry.sameName_iff _ name).mp hname]⟩

/-! ## Transfers through handles -/

theorem forall₂_set {α β : Type} {R : α → β → Prop} {as : List α} {bs : List β} {a : α} {b : β}
    (h : List.Forall₂ R as bs) (hab : R a b) (k : Nat) :
    List.Forall₂ R (as.set k a) (bs.set k b) := by
  induction h generalizing k with
  | nil => exact .nil
  | cons hx hxs ih =>
    cases k with
    | zero => exact .cons hab hxs
    | succ k => exact .cons hx (ih k)

/-- The store's file after a write to the data of a live handle. -/
theorem Session.Shows.set_file (hs : s.Shows st) {i : Fin numDirEntries} {key : List UInt8}
    (hcur : h.Current s.fs s.disk)
    (hu : ((s.fs.directoryOn s.disk).table i).inUse = true)
    (hsector : ((s.fs.directoryOn s.disk).table i).sector = h.sector)
    (hslot : s.fs.fileSlot s.disk i = some (key, contents s.disk h.file.hdr))
    (hframe : ∀ n, OnDisk n → n ∉ h.file.hdr.sectors → d.sector n = s.disk.sector n) :
    Consistent s.fs d ∧ s.fs.directoryOn d = s.fs.directoryOn s.disk ∧
      (∀ j, ((s.fs.directoryOn s.disk).table j).inUse = true →
        d.sector ((s.fs.directoryOn s.disk).table j).sector =
          s.disk.sector ((s.fs.directoryOn s.disk).table j).sector) ∧
      s.fs.owned d = s.fs.owned s.disk ∧
      Represents (s.fs.fileSlot d) (st.files.set key (contents d h.file.hdr)) := by
  have hc := hs.sound.consistent
  have hdata := hcur.dataOnly hc
  have hheader : ∀ j, ((s.fs.directoryOn s.disk).table j).inUse = true →
      d.sector ((s.fs.directoryOn s.disk).table j).sector =
        s.disk.sector ((s.fs.directoryOn s.disk).table j).sector := fun j hj =>
    hframe _ (hc.sector_onDisk hj) fun hm => (hdata _ hm).2 j hj rfl
  obtain ⟨hc', hdir, howned, -⟩ := hc.data_write
    (fun t ht => hframe t (hc.onDisk_of_owned (k := none) ht) fun hm => (hdata t hm).1 ht) hheader
  obtain ⟨i', hu', hsector', hhdr⟩ := hcur
  refine ⟨hc', hdir, hheader, howned, hs.files.set hslot ?_ fun j hj => ?_⟩
  · rw [fileSlot_of_used (d := s.disk) hu, Option.some.injEq, Prod.mk.injEq] at hslot
    rw [fileSlot_of_used (by rw [hdir]; exact hu), hdir, hslot.1, header_congr (hheader i hu),
      hsector, hhdr]
  · refine fileSlot_congr hc (by rw [hdir]) fun t ht => hframe t (hc.onDisk_of_owned ht) fun hm =>
      hc.ownership.disjoint (some j) (some i) (fun e => hj (Option.some.inj e)) t ht ?_
    exact Consistent.data_mem hu (by rwa [hsector, hhdr])

theorem Session.Shows.serve_transfer (hs : s.Shows st) (junk : Junk) {k : Nat} {tr : Transfer}
    (hk : s.handles[k]? = some h) (hlive : h.live = true) (hr : tr.InRange h.file)
    (hseek : ∀ position, tr = .seek position → Fits position) :
    ∃ a t st', s.serve junk (.call (.transfer k tr)) = .ok (a, t) ∧
      st.Step (.call (.transfer k tr)) a st' ∧ t.Shows st' := by
  have hc := hs.sound.consistent
  have hcur := hs.sound.current h (List.mem_of_getElem? hk) hlive
  have hv := hcur.valid hc
  obtain ⟨i, key, hu, hsector, hget, hfit, hslot⟩ := hs.entry hk hlive
  obtain ⟨file, d, hrun, hhdr, hbytes, hseekPosition, hfit', hframe⟩ :=
    tr.answer_run hv junk hr hfit hseek s.disk
  obtain ⟨hc', hdir, hheader, howned, hfiles⟩ :=
    hs.set_file (d := d) hcur hu hsector hslot fun n _ hn => hframe n hn
  let t : Session := { s with disk := d, handles := s.handles.set k { h with file } }
  have hserve : s.serve junk (.call (.transfer k tr)) =
      .ok ((tr.onBytes (contents s.disk h.file.hdr) h.file.seekPosition).1, t) := by
    simp only [serve, hk, hrun]
    rfl
  have htransferred : Transferred s t k h :=
    ⟨rfl, ⟨file, hhdr, rfl⟩, hframe, hc', hdir, hheader, howned⟩
  refine ⟨_, t, _, hserve, .transferred k tr key _ _ hget (hs.lookup hslot), ?_, ?_, ?_⟩
  · exact (Outcome.transferred k tr h t hk htransferred).sound hs.sound (c := .transfer k tr)
      fun g hg => by rwa [← Option.some.inj (hk.symm.trans hg)]
  · rw [← hbytes]
    exact hfiles
  · refine forall₂_set (hs.handles.imp fun g r hg => hg.frame fun j _ _ => by rw [hdir]) ?_ k
    refine ⟨hseekPosition, hseekPosition ▸ hfit', fun hdead => ?_, fun _ => ⟨i, ?_, ?_, ?_⟩⟩
    · exact absurd (hlive.symm.trans hdead) (Ne.symm Bool.false_ne_true)
    · rw [hdir]
      exact hu
    · rw [hdir]
      exact hsector
    · rw [hdir]
      rw [fileSlot_of_used hu, Option.some.injEq, Prod.mk.injEq] at hslot
      rw [hslot.1]

/-! ## Starting again -/

theorem FileSystem.Consistent.rewound (hc : Consistent fs d) : Consistent fs.rewound d :=
  ⟨⟨hc.files.mapValid, hc.files.dirValid, hc.files.mapLength, hc.files.dirLength, hc.files.nodup⟩,
    hc.mapHeader, hc.dirHeader, hc.fileValid, hc.ownership, hc.names⟩

/-- A kernel that starts on a consistent disk shows the files that are there. -/
theorem boot_shows {m : BoundedMap (List UInt8) (List UInt8) numDirEntries}
    (hc : Consistent fs d) (hm : Represents (fs.fileSlot d) m) :
    ∃ t, Session.boot d = .ok (.done, t) ∧ t.Shows ⟨m, []⟩ := by
  have hsound : Session.Sound ⟨fs.rewound, d, []⟩ :=
    ⟨Consistent.rewound hc, fun g hg => absurd hg List.not_mem_nil⟩
  refine ⟨⟨fs.rewound, d, []⟩, ?_, hsound, hm, .nil⟩
  rw [Session.boot, mount_run hc fun _ _ => rfl]
  rfl

/-- Where `create` may stop on a consistent disk, the files are the old ones or the new
ones. -/
theorem create_lost (hs : s.Shows st) (junk : Junk) {name : CString} {size : Int} {n : Nat}
    (hu : 0 ≤ size ∧ size ≤ maxFileSize) {dn : Disk}
    (hdn : dn = ((Update.create name size).program s.fs junk).stopped s.disk n)
    (hcn : Consistent s.fs dn) : Represents (s.fs.fileSlot dn) st.files ∨
      ∃ st', st.Updates (.create name size) true st' ∧
        Represents (s.fs.fileSlot dn) st'.files := by
  have hc := hs.sound.consistent
  have hstop : dn = (SectorProgram.FileSystem.create s.fs junk name size).stopped s.disk n := by
    rw [hdn]
    exact StoreProgram.stopped_bind_pure _ n
  by_cases hcan : CanCreate s.fs s.disk name.bytes size
  · obtain ⟨d', i, c, hrun, ha⟩ := create_of_can hc junk (fits_of_legal hu) hcan
    have hbetween := create_between hc hrun ha n
    rw [← hstop] at hbetween
    by_cases hall : 4 ≤ n
    · rw [hstop, create_finished hc hrun ha hall]
      obtain ⟨st', hstep, hshows⟩ := hs.created hu hcan ha
      exact .inr ⟨st', hstep, hshows.files⟩
    · by_cases hearly : n ≤ 1 ∨ n = 2 ∧ 6 < (i : Nat)
      · have hdir := create_early_directory hc ha hbetween hearly
        have hslot : s.fs.fileSlot dn = s.fs.fileSlot s.disk := by
          funext j
          by_cases hj : ((s.fs.directoryOn s.disk).table j).inUse = true
          · exact fileSlot_congr hc (by rw [hdir]) (create_intact hc ha hbetween hj).sectors
          · rw [Bool.not_eq_true] at hj
            rw [fileSlot_of_unused hj, fileSlot_of_unused (by rw [hdir]; exact hj)]
        exact .inl (hslot ▸ hs.files)
      · exact absurd hcn (create_late hc ha hbetween (by omega))
  · rw [hstop, create_refused hc junk hcan n]
    exact .inl hs.files

theorem remove_lost (hs : s.Shows st) (junk : Junk) {name : CString} {n : Nat} {dn : Disk}
    (hdn : dn = ((Update.remove name).program s.fs junk).stopped s.disk n)
    (hcn : Consistent s.fs dn) : Represents (s.fs.fileSlot dn) st.files ∨
      ∃ st', st.Updates (.remove name) true st' ∧ Represents (s.fs.fileSlot dn) st'.files := by
  have hc := hs.sound.consistent
  have hstop : dn = (SectorProgram.FileSystem.remove s.fs junk name).stopped s.disk n := hdn
  cases hfind : (s.fs.directoryOn s.disk).findIndex name.bytes with
  | none =>
    rw [hstop, SectorProgram.stopped_of_nil (SectorProgram.sectorsWritten_absent hc junk hfind) n]
    exact .inl hs.files
  | some i =>
    obtain ⟨d', hrun, hr⟩ := remove_of_some hc junk hfind
    have hbetween := remove_between hc hrun n
    rw [← hstop] at hbetween
    by_cases hzero : n = 0
    · subst hzero
      rw [hstop]
      exact .inl hs.files
    · by_cases hearly : n = 1 ∨ n = 2 ∧ 6 < (i : Nat)
      · exact absurd hcn (remove_early hc hr hbetween hearly)
      · have hdir := remove_late_directory hc hr hbetween (by omega) (by omega)
        obtain ⟨st', hstep, hshows⟩ := hs.removed hr
        have hslot : s.fs.fileSlot dn = s.fs.fileSlot d' := by
          funext j
          by_cases hj : j = i
          · subst hj
            rw [fileSlot_removed hr, fileSlot_of_unused (by rw [hdir, hr.table_self]; rfl)]
          · have hintact := remove_intact hc hr hbetween hj
            rw [fileSlot_removes hc hr hj, fileSlot_congr hc hintact.entry hintact.sectors]
        exact .inr ⟨st', hstep, hslot ▸ hshows.files⟩

theorem Session.Shows.serve_lost (hs : s.Shows st) (junk : Junk) {u : Update} {n : Nat}
    (hu : u.Legal) (hcn : Consistent s.fs ((u.program s.fs junk).stopped s.disk n)) :
    ∃ a t st', s.serve junk (.lost u n) = .ok (a, t) ∧ st.Step (.lost u n) a st' ∧
      t.Shows st' := by
  have hlost : Represents (s.fs.fileSlot ((u.program s.fs junk).stopped s.disk n)) st.files ∨
      ∃ st', st.Updates u true st' ∧
        Represents (s.fs.fileSlot ((u.program s.fs junk).stopped s.disk n)) st'.files := by
    cases u with
    | create name size => exact create_lost hs junk hu rfl hcn
    | remove name => exact remove_lost hs junk rfl hcn
  rcases hlost with hold | ⟨st', hstep, hnew⟩
  · obtain ⟨t, hboot, hshows⟩ := boot_shows hcn hold
    exact ⟨_, t, _, hboot, .kept u n, hshows⟩
  · obtain ⟨t, hboot, hshows⟩ := boot_shows hcn hnew
    exact ⟨_, t, _, hboot, .made u n st' hstep, hshows⟩

/-- Where `WriteAt` stops, the file has the beginning of the bytes. -/
theorem contents_stopped (hv : h.file.hdr.Valid) (junk src : Block) {numBytes position : Int}
    (hspan : Transfer.Span numBytes position) (d : Disk) (n : Nat) :
    ∃ m : Nat, (m : Int) ≤
        OpenFile.transferred (contents d h.file.hdr).length numBytes position ∧
      contents ((SectorProgram.OpenFile.writeAt h.file junk src numBytes position).stopped d n)
        h.file.hdr = splice (contents d h.file.hdr) position.toNat (src.bytes m) := by
  obtain ⟨c, hc, hc', hle⟩ := transferred_contents hv d numBytes position
  have hlength : h.file.length = h.file.hdr.numBytes := rfl
  have hpos := hspan.1
  refine ⟨min c (128 * (position.toNat / 128 + n) - position.toNat), by omega, ?_⟩
  refine OpenFile.contents_of_write hpos (by omega) fun k hk => ?_
  rw [fileByte_stopped hv junk src hspan d n hk, ← hlength, hc']
  by_cases hin : position ≤ k ∧ (k : Int) < position + c ∧ k / 128 < position.toNat / 128 + n
  · rw [if_pos hin, if_pos (by omega)]
  · rw [if_neg hin, if_neg (by omega)]

theorem Session.Shows.serve_torn (hs : s.Shows st) (junk : Junk) {k : Nat} (src : Block)
    {numBytes position : Int} (n : Nat) (hk : s.handles[k]? = some h) (hlive : h.live = true)
    (hspan : Transfer.Span numBytes position) :
    ∃ a t st', s.serve junk (.torn k src numBytes position n) = .ok (a, t) ∧
      st.Step (.torn k src numBytes position n) a st' ∧ t.Shows st' := by
  have hcur := hs.sound.current h (List.mem_of_getElem? hk) hlive
  have hv := hcur.valid hs.sound.consistent
  obtain ⟨i, key, hu, hsector, hget, -, hslot⟩ := hs.entry hk hlive
  obtain ⟨m, hm, hbytes⟩ := contents_stopped hv (junk 0) src hspan s.disk n
  obtain ⟨hcn, -, -, -, hfiles⟩ := hs.set_file hcur hu hsector hslot fun t ht hne =>
    writeAt_frame hv (junk 0) src hspan s.disk n ht hne
  rw [hbytes] at hfiles
  obtain ⟨t, hboot, hshows⟩ := boot_shows hcn hfiles
  refine ⟨_, t, _, ?_, .torn k src numBytes position n m key _ _ hget (hs.lookup hslot) hm, hshows⟩
  simp only [serve, hk]
  exact hboot

/-! ## Runs -/

/-- A legal request is served, and the store makes a step with the same answer. -/
theorem Session.Shows.serve (hs : s.Shows st) (junk : Junk) {r : Request}
    (hlegal : r.Legal s junk) :
    ∃ a t st', s.serve junk r = .ok (a, t) ∧ st.Step r a st' ∧ t.Shows st' := by
  cases r with
  | call c =>
    cases c with
    | update u => exact hs.serve_update junk hlegal
    | «open» name => exact hs.serve_open junk name
    | transfer k tr =>
      obtain ⟨h, hk, hlive, hr, hseek⟩ := hlegal
      exact hs.serve_transfer junk hk hlive hr hseek
  | length k =>
    obtain ⟨h, hk, hlive⟩ := hlegal
    obtain ⟨i, key, hu, hsector, hget, -, hslot⟩ := hs.entry hk hlive
    have hv := (hs.sound.current h (List.mem_of_getElem? hk) hlive).valid hs.sound.consistent
    refine ⟨_, s, st, ?_, .measured k key _ _ hget (hs.lookup hslot), hs⟩
    simp only [Session.serve, hk, length_contents_int hv]
    rfl
  | restart =>
    obtain ⟨t, hboot, hshows⟩ := boot_shows hs.sound.consistent hs.files
    exact ⟨_, t, _, hboot, .restarted, hshows⟩
  | lost u n => exact hs.serve_lost junk hlegal.1 hlegal.2
  | torn k src numBytes position n =>
    obtain ⟨h, hk, hlive, hspan⟩ := hlegal
    exact hs.serve_torn junk src n hk hlive hspan

/-- A disk just formatted has no files. -/
theorem Mounted.shows (hm : Mounted s) : s.Shows FileStore.empty := by
  obtain ⟨junk, d, hformat, hhandles⟩ := hm
  have hsound := Mounted.sound ⟨junk, d, hformat, hhandles⟩
  obtain ⟨fs, d', hrun, hf⟩ := format_run junk d
  rw [hformat, Except.ok.injEq, Prod.mk.injEq] at hrun
  refine ⟨hsound, Represents.empty fun i => fileSlot_of_unused ?_, ?_⟩
  · rw [hrun.1, hrun.2]
    exact hf.empty i
  · rw [hhandles]
    exact .nil

/-- In every run on a disk just formatted, through handles on files that are still there, the
answers are those of a store of named files, also where the machine stops and starts again;
no legal request faults. -/
theorem served_as_store {trace : List (Request × Answer)}
    (hr : servedSystem.Reachable (s, trace)) :
    (∃ st, FileStore.system.Reachable (st, trace) ∧ s.Shows st) ∧
      ∀ junk (r : Request), r.Legal s junk → ∃ a t, s.serve junk r = .ok (a, t) := by
  have hmatched : ∃ c, FileStore.system.Reachable c ∧ s.Shows c.1 ∧ trace = c.2 := by
    refine hr.matched (R := fun (c : Session × _) (a : FileStore × _) =>
      c.1.Shows a.1 ∧ c.2 = a.2) (fun c hc => ?_) ?_
    · exact ⟨_, rfl, hc.1.shows, hc.2⟩
    · rintro c c' a ⟨hshows, htrace⟩ ⟨junk, r, answer, hlegal, hserve, hnext⟩
      obtain ⟨answer', t, st', hserve', hstep, hshows'⟩ := hshows.serve junk hlegal
      rw [hserve, Except.ok.injEq, Prod.mk.injEq] at hserve'
      obtain ⟨rfl, rfl⟩ := hserve'
      exact ⟨(st', a.2 ++ [(r, answer)]), ⟨r, answer, hstep, rfl⟩, hshows', by rw [hnext, htrace]⟩
  obtain ⟨⟨st, trace'⟩, hreach, hshows, htrace⟩ := hmatched
  have htrace' : trace = trace' := htrace
  subst htrace'
  refine ⟨⟨st, hreach, hshows⟩, fun junk r hlegal => ?_⟩
  obtain ⟨a, t, -, hserve, -⟩ := hshows.serve junk hlegal
  exact ⟨a, t, hserve⟩

/-- A file is created, and the kernel starts again. -/
theorem served_as_store_fileA : ∃ s a, servedSystem.Reachable
      (s, [(.call (.update (.create fileA 128)), a), (.restart, .done)]) ∧
    (∃ st, FileStore.system.Reachable
        (st, [(.call (.update (.create fileA 128)), a), (.restart, .done)]) ∧ s.Shows st) ∧
      ∀ junk (r : Request), r.Legal s junk → ∃ a t, s.serve junk r = .ok (a, t) := by
  obtain ⟨fs, d, hformat, hf⟩ := format_run zeroJunk zeroDisk
  have hmounted : Mounted ⟨fs, d, []⟩ := ⟨zeroJunk, zeroDisk, hformat, rfl⟩
  have hlegal : Request.Legal ⟨fs, d, []⟩ zeroJunk (.call (.update (.create fileA 128))) := by
    show (0 : Int) ≤ 128 ∧ (128 : Int) ≤ maxFileSize
    decide
  obtain ⟨a, s₁, st₁, hserve, -, hshows⟩ := hmounted.shows.serve zeroJunk hlegal
  obtain ⟨s₂, hboot, -⟩ := boot_shows hshows.sound.consistent hshows.files
  have hstart : servedSystem.Reachable (⟨fs, d, []⟩, []) := .of_init ⟨hmounted, rfl⟩
  have hcreated : servedSystem.Reachable (s₁, [(.call (.update (.create fileA 128)), a)]) :=
    hstart.step ⟨zeroJunk, _, a, hlegal, hserve, rfl⟩
  have hreach : servedSystem.Reachable
      (s₂, [(.call (.update (.create fileA 128)), a), (.restart, .done)]) :=
    hcreated.step ⟨zeroJunk, .restart, .done, trivial, hboot, rfl⟩
  exact ⟨s₂, a, hreach, served_as_store hreach⟩

end Shows

end FileSys
end Nachos
