import Nachos.FileSys.Partial

/-!
# Requests that stay in bounds

`ReadAt` and `WriteAt` check a request against the length of the file from above
only.  A negative position, or a sum of position and count that wraps, gets past
the check and out of the sector table or of the buffer.
-/

namespace Nachos
namespace FileSys

open Lib LittleEndian

/-! ## Runs that return -/

section Run

variable {α β : Type} {x : SynchDisk α} {k : α → SynchDisk β} {d d'' : Disk} {b : β}

/-- What runs to its end has run its first part to its end. -/
theorem run_bind_ok (h : (x >>= k).run d = .ok (b, d'')) :
    ∃ a d', x.run d = .ok (a, d') ∧ (k a).run d' = .ok (b, d'') := by
  rw [StateT.run_bind] at h
  cases hx : x.run d with
  | error e =>
    rw [hx] at h
    cases h
  | ok r =>
    rw [hx] at h
    exact ⟨r.1, r.2, rfl, h⟩

theorem run_lift_ok {e : Except Fault α} {a : α}
    (h : (liftM e : SynchDisk α).run d = .ok (a, d'')) : e = .ok a := by
  cases e with
  | error e => cases h
  | ok a' =>
    cases h
    rfl

theorem checkRange_of_ok {off len size : Int} {u : Unit} (h : checkRange off len size = .ok u) :
    0 ≤ off ∧ 0 ≤ len ∧ off + len ≤ size := by
  by_contra hout
  rw [checkRange, if_neg hout] at h
  cases h

end Run

namespace OpenFile

variable {f g : OpenFile} {h : FileHeader} {d d' : Disk} {numBytes position : Int}

/-! ## What has been checked when a transfer returns -/

/-- The copy starts inside the buffer, and all that was asked for is transferred. -/
theorem returned_of_readSpan {into : Block} {n : Int} {r : Int × Block}
    (hrun : (f.readSpan into n position).run d = .ok (r, d')) :
    r.1 = n ∧ 0 ≤ position - firstSector position * sectorSize := by
  rw [readSpan] at hrun
  by_cases hneg : sectorBytes (1 + lastSector position n - firstSector position) < 0
  · simp only [hneg, if_true] at hrun
    cases hrun
  · simp only [hneg, if_false] at hrun
    obtain ⟨buf, d₁, -, hrun⟩ := run_bind_ok hrun
    obtain ⟨u, d₂, hcheck, hrun⟩ := run_bind_ok hrun
    cases hrun
    exact ⟨rfl, (checkRange_of_ok (run_lift_ok hcheck)).1⟩

theorem returned_of_writeSpan {junk src : Block} {n r : Int}
    (hrun : (f.writeSpan junk src n position).run d = .ok (r, d')) :
    r = n ∧ 0 ≤ position - firstSector position * sectorSize := by
  rw [writeSpan] at hrun
  by_cases hneg : sectorBytes (1 + lastSector position n - firstSector position) < 0
  · simp only [hneg, if_true] at hrun
    cases hrun
  · simp only [hneg, if_false] at hrun
    obtain ⟨buf, d₁, -, hrun⟩ := run_bind_ok hrun
    obtain ⟨buf', d₂, -, hrun⟩ := run_bind_ok hrun
    obtain ⟨u, d₃, hcheck, hrun⟩ := run_bind_ok hrun
    obtain ⟨u', d₄, -, hrun⟩ := run_bind_ok hrun
    cases hrun
    exact ⟨rfl, (checkRange_of_ok (run_lift_ok hcheck)).1⟩

/-! ## The requests that are handled -/

/-- The request is turned down, or its position is not negative and the sum of
position and count is an `int`. -/
def Handled (f : OpenFile) (numBytes position : Int) : Prop :=
  numBytes ≤ 0 ∨ f.length ≤ position ∨ 0 ≤ position ∧ Fits (position + numBytes)

/-- A request that goes past the end of the file has a sum that is an `int`. -/
theorem clip_cases {len : Int} (hn : Fits numBytes) (hp : Fits position) (hpos : 0 < numBytes)
    (hlt : position < len) (hnonneg : 0 ≤ len) (hlen : len ≤ 3840) :
    clip len numBytes position = numBytes ∨
      clip len numBytes position = len - position ∧ Fits (position + numBytes) := by
  obtain ⟨hn₀, hn₁⟩ := hn
  obtain ⟨hp₀, hp₁⟩ := hp
  rw [clip]
  by_cases hgt : wrap (position + numBytes) > len
  · have hsum : position + numBytes < 2147483648 := by
      rw [wrap] at hgt
      omega
    have hfit : Fits (position + numBytes) := ⟨by omega, hsum⟩
    rw [wrap_of_fits hfit] at hgt
    have hrest : Fits (len - position) := ⟨by omega, by omega⟩
    rw [if_pos (by rwa [wrap_of_fits hfit]), wrap_of_fits hrest]
    exact .inr ⟨rfl, hfit⟩
  · rw [if_neg hgt]
    exact .inl rfl

/-- A request whose sum wraps is not cut.  From the third sector on, if the sum goes past the
end of the integers by fewer sectors than there are in front, the product of the negative
number of sectors wraps too: `ReadAt` reads no sector and returns the count that was asked
for. -/
theorem readAt_of_wraps (hv : f.hdr.Valid) (hn : Fits numBytes) (hpos : 0 ≤ position)
    (hlt : position < f.length) (hlow : 2147483648 < position + numBytes)
    (hhigh : position + numBytes ≤ 2147483649 + (firstSector position - 2) * sectorSize)
    (into : Block) (d : Disk) :
    ∃ into', (f.readAt into numBytes position).run d = .ok ((numBytes, into'), d) := by
  obtain ⟨hn₀, hn₁⟩ := hn
  have hlength : f.length = f.hdr.numBytes := rfl
  have hmax := numBytes_le hv
  simp only [sectorSize] at hhigh
  have hsum : wrap (position + numBytes) = position + numBytes - 4294967296 := by
    rw [wrap]
    omega
  have hclip : clip f.length numBytes position = numBytes := by
    rw [clip, if_neg]
    omega
  have hfirst : firstSector position = position / 128 := divRoundDown_of_nonneg (by omega) _
  have hlast : lastSector position numBytes = -((4294967297 - position - numBytes) / 128) := by
    have hminus : wrap (position + numBytes - 1) = -(4294967297 - position - numBytes) := by
      rw [wrap]
      omega
    rw [lastSector, hminus, divRoundDown, Int.neg_tdiv, Int.tdiv_eq_ediv_of_nonneg (by omega)]
    rfl
  have hcount : (1 + lastSector position numBytes - firstSector position).toNat = 0 := by omega
  have hsize : sectorBytes (1 + lastSector position numBytes - firstSector position) =
      (1 + lastSector position numBytes - firstSector position) * 128 + 4294967296 := by
    rw [sectorBytes, wrap]
    simp only [sectorSize]
    omega
  have hrange : 0 ≤ position - firstSector position * sectorSize ∧ 0 ≤ numBytes ∧
      position - firstSector position * sectorSize + numBytes ≤
        sectorBytes (1 + lastSector position numBytes - firstSector position) := by
    rw [hsize]
    simp only [sectorSize]
    omega
  rw [readAt, if_neg (by omega), hclip]
  simp only [readSpan, hcount, readLoop]
  rw [if_neg (by omega), run_bind rfl, run_lift_bind (checkRange_ok hrange)]
  exact ⟨_, rfl⟩

/-! ## The part of the table in use -/

/-- Two handles whose headers agree on the table below `numSectors`. -/
structure SameTable (f g : OpenFile) : Prop where
  numBytes : g.hdr.numBytes = f.hdr.numBytes
  numSectors : g.hdr.numSectors = f.hdr.numSectors
  entries : ∀ i : Nat, (i : Int) < f.hdr.numSectors → g.hdr.sectorNo i = f.hdr.sectorNo i

namespace SameTable

theorem sectors (hsame : SameTable f g) : g.hdr.sectors = f.hdr.sectors := by
  rw [FileHeader.sectors, FileHeader.sectors, hsame.numSectors]
  refine List.map_congr_left fun i hi => hsame.entries i ?_
  rw [List.mem_range] at hi
  omega

theorem valid (hsame : SameTable f g) (hv : f.hdr.Valid) : g.hdr.Valid := by
  obtain ⟨hnonneg, hcount, hdirect, honDisk, hnodup⟩ := hv
  refine ⟨?_, ?_, ?_, ?_, ?_⟩
  · rwa [hsame.numBytes]
  · rw [hsame.numSectors, hsame.numBytes, hcount]
  · rwa [hsame.numSectors]
  · rwa [hsame.sectors]
  · rwa [hsame.sectors]

theorem fileByte (hsame : SameTable f g) {k : Nat}
    (hk : ((k / 128 : Nat) : Int) < f.hdr.numSectors) :
    fileByte d g.hdr k = fileByte d f.hdr k := by
  have hentry := hsame.entries (k / 128) hk
  simp only [FileSys.fileByte, sectorSize, hentry]

end SameTable

theorem readAt_congr (hv : f.hdr.Valid) (hsame : SameTable f g) (into : Block) (d : Disk)
    (hpos : 0 ≤ position) (hfit : Fits (position + numBytes)) :
    (g.readAt into numBytes position).run d = (f.readAt into numBytes position).run d := by
  have hb := hv.numSectors_bounds
  rw [readAt_run (hsame.valid hv) into hpos hfit, readAt_run hv into hpos hfit, hsame.numBytes]
  congr 2
  congr 1
  funext k
  by_cases hk : (k : Int) < transferred f.hdr.numBytes numBytes position
  · have hin := lt_of_transferred hpos hk
    rw [if_pos hk, if_pos hk, hsame.fileByte (by omega)]
  · rw [if_neg hk, if_neg hk]

theorem writeAt_congr (hv : f.hdr.Valid) (hsame : SameTable f g) (junk : Block)
    {src src' : Block} (d : Disk) (hpos : 0 ≤ position) (hfit : Fits (position + numBytes))
    (hsrc : ∀ k : Nat, (k : Int) < transferred f.hdr.numBytes numBytes position →
      src' k = src k) :
    (g.writeAt junk src' numBytes position).run d =
      (f.writeAt junk src numBytes position).run d := by
  obtain ⟨n, d₁, hn, hrun, hframe, hbytes⟩ := writeAt_bytes hv junk src hpos hfit d
  obtain ⟨n', d₂, hn', hrun', hframe', hbytes'⟩ :=
    writeAt_bytes (hsame.valid hv) junk src' hpos hfit d
  rw [hsame.numBytes] at hn' hbytes'
  rw [hsame.sectors] at hframe'
  rw [hsame.numSectors] at hbytes'
  obtain rfl : n' = n := by omega
  have hdisk : d₂ = d₁ := by
    refine disk_eq_of_fileByte (h := f.hdr) (fun s hs => ?_) fun k hk => ?_
    · rw [hframe' s hs, hframe s hs]
    · have hafter := hbytes' k hk
      rw [hsame.fileByte hk, hsame.fileByte hk] at hafter
      rw [hafter, hbytes k hk]
      by_cases hin : position ≤ (k : Int) ∧ (k : Int) < position + n'
      · rw [if_pos hin, if_pos hin, hsrc _ (by omega)]
      · rw [if_neg hin, if_neg hin]
  rw [hrun, hrun', hdisk]

/-! ## Requests in bounds -/

section InBounds

variable {into junk src : Block}

/-- What a transfer of `n` bytes may do: `n` is at most what was asked for and
what is left of the file, and the loop runs over entries of the table in use. -/
structure InRange (f : OpenFile) (numBytes position : Int) (n : Nat) : Prop where
  pos : 1 ≤ n
  le_request : (n : Int) ≤ numBytes
  le_rest : (n : Int) ≤ f.length - position
  first : 0 ≤ firstSector position
  last : lastSector position n < f.hdr.numSectors

/-- `ReadAt` returns 0 at once, or it returns `n` without a fault, leaves the
buffer from byte `n` on alone, and depends on the table in use only. -/
def ReadInBounds (f : OpenFile) (into : Block) (d : Disk) (numBytes position : Int) : Prop :=
  f.readAt into numBytes position = pure (0, into) ∨
    ∃ (n : Nat) (into' : Block), InRange f numBytes position n ∧
      (f.readAt into numBytes position).run d = .ok (((n : Int), into'), d) ∧
      (∀ k, n ≤ k → into' k = into k) ∧
      ∀ g, SameTable f g →
        (g.readAt into numBytes position).run d = .ok (((n : Int), into'), d)

/-- `WriteAt` returns 0 at once, or it returns `n` without a fault, and depends on
`n` bytes of the buffer and on the table in use only. -/
def WriteInBounds (f : OpenFile) (junk src : Block) (d : Disk) (numBytes position : Int) : Prop :=
  f.writeAt junk src numBytes position = pure 0 ∨
    ∃ (n : Nat) (d' : Disk), InRange f numBytes position n ∧
      (f.writeAt junk src numBytes position).run d = .ok ((n : Int), d') ∧
      ∀ g src', SameTable f g → (∀ k, k < n → src' k = src k) →
        (g.writeAt junk src' numBytes position).run d = .ok ((n : Int), d')

theorem inRange (hv : f.hdr.Valid) (hreq : ¬ (numBytes ≤ 0 ∨ position ≥ f.length))
    (hpos : 0 ≤ position) : ∃ n : Nat,
      (n : Int) = transferred f.hdr.numBytes numBytes position ∧ InRange f numBytes position n := by
  have hlength : f.length = f.hdr.numBytes := rfl
  have hb := hv.numSectors_bounds
  have ht : transferred f.hdr.numBytes numBytes position =
      min numBytes (f.hdr.numBytes - position) := if_neg hreq
  obtain ⟨n, hn, hle⟩ := transferred_bounds f numBytes position
  rw [hlength] at hn hle hreq
  have hn₁ : 1 ≤ n := by omega
  obtain ⟨p, rfl⟩ := Int.eq_ofNat_of_zero_le hpos
  refine ⟨n, hn, hn₁, by omega, by omega, ?_, ?_⟩
  · rw [firstSector_natCast]
    omega
  · rw [lastSector_natCast hn₁ (by omega)]
    omega

theorem Handled.allowed (h : Handled f numBytes position)
    (hreq : ¬ (numBytes ≤ 0 ∨ position ≥ f.length)) :
    0 ≤ position ∧ Fits (position + numBytes) := by
  rcases h with hle | hge | hok
  · exact absurd (.inl hle) hreq
  · exact absurd (.inr hge) hreq
  · exact hok

theorem readInBounds_of_handled (hv : f.hdr.Valid) (hhandled : Handled f numBytes position) :
    ReadInBounds f into d numBytes position := by
  by_cases hreq : numBytes ≤ 0 ∨ position ≥ f.length
  · left
    rw [readAt, if_pos hreq]
  · right
    obtain ⟨hpos, hfit⟩ := hhandled.allowed hreq
    obtain ⟨n, hn, hrange⟩ := inRange hv hreq hpos
    have hrun := readAt_run (d := d) hv into hpos hfit
    rw [← hn] at hrun
    refine ⟨n, _, hrange, hrun, fun k hk => if_neg (by omega), fun g hsame => ?_⟩
    rw [readAt_congr hv hsame into d hpos hfit, hrun]

theorem writeInBounds_of_handled (hv : f.hdr.Valid) (hhandled : Handled f numBytes position) :
    WriteInBounds f junk src d numBytes position := by
  by_cases hreq : numBytes ≤ 0 ∨ position ≥ f.length
  · left
    rw [writeAt, if_pos hreq]
  · right
    obtain ⟨hpos, hfit⟩ := hhandled.allowed hreq
    obtain ⟨n, hn, hrange⟩ := inRange hv hreq hpos
    obtain ⟨d', hrun, -⟩ := writeAt_run hv junk src hpos hfit d
    rw [← hn] at hrun
    refine ⟨n, d', hrange, hrun, fun g src' hsame hsrc => ?_⟩
    rw [writeAt_congr hv hsame junk d hpos hfit fun k hk => hsrc k (by omega), hrun]

theorem clip_ne_zero (hv : f.hdr.Valid) (hn : Fits numBytes) (hp : Fits position)
    (hpos : 0 < numBytes) (hlt : position < f.length) : clip f.length numBytes position ≠ 0 := by
  have hlength : f.length = f.hdr.numBytes := rfl
  have hmax := numBytes_le hv
  have hnonneg := hv.nonneg
  rcases clip_cases hn hp hpos hlt (by omega) (by omega) with hclip | ⟨hclip, -⟩ <;> omega

/-- A request that leaves no more than the rest of the file to a transfer is handled. -/
theorem InRange.handled {n : Nat} (h : InRange f numBytes position n) (hv : f.hdr.Valid)
    (hn : Fits numBytes) (hp : Fits position) (hpos : 0 < numBytes) (hlt : position < f.length)
    (hclip : (n : Int) = clip f.length numBytes position)
    (hoff : 0 ≤ position - firstSector position * sectorSize) : Handled f numBytes position := by
  have hlength : f.length = f.hdr.numBytes := rfl
  have hmax := numBytes_le hv
  have hnonneg := hv.nonneg
  have hfirst := h.first
  have hle := h.le_rest
  simp only [sectorSize] at hoff
  rcases clip_cases hn hp hpos hlt (by omega) (by omega) with hwhole | ⟨-, hfit⟩
  · exact .inr (.inr ⟨by omega, by omega, by omega⟩)
  · exact .inr (.inr ⟨by omega, hfit⟩)

theorem ReadInBounds.handled (h : ReadInBounds f into d numBytes position) (hv : f.hdr.Valid)
    (hn : Fits numBytes) (hp : Fits position) : Handled f numBytes position := by
  by_cases hreq : numBytes ≤ 0 ∨ position ≥ f.length
  · exact hreq.imp_right .inl
  · rcases h with hzero | ⟨n, into', hrange, hrun, -⟩
    · rw [readAt, if_neg hreq] at hzero
      have hclip := (returned_of_readSpan (congrFun hzero d)).1
      exact absurd hclip.symm (clip_ne_zero hv hn hp (by omega) (by omega))
    · rw [readAt, if_neg hreq] at hrun
      obtain ⟨hclip, hoff⟩ := returned_of_readSpan hrun
      exact hrange.handled hv hn hp (by omega) (by omega) hclip hoff

theorem WriteInBounds.handled (h : WriteInBounds f junk src d numBytes position)
    (hv : f.hdr.Valid) (hn : Fits numBytes) (hp : Fits position) :
    Handled f numBytes position := by
  by_cases hreq : numBytes ≤ 0 ∨ position ≥ f.length
  · exact hreq.imp_right .inl
  · rcases h with hzero | ⟨n, d', hrange, hrun, -⟩
    · rw [writeAt, if_neg hreq] at hzero
      have hclip := (returned_of_writeSpan (congrFun hzero d)).1
      exact absurd hclip.symm (clip_ne_zero hv hn hp (by omega) (by omega))
    · rw [writeAt, if_neg hreq] at hrun
      obtain ⟨hclip, hoff⟩ := returned_of_writeSpan hrun
      exact hrange.handled hv hn hp (by omega) (by omega) hclip hoff

/-- `ReadAt` and `WriteAt` stay in bounds for the handled requests and for no
others. -/
theorem in_bounds_iff (hv : f.hdr.Valid) (hn : Fits numBytes) (hp : Fits position)
    (into junk src : Block) (d : Disk) :
    (ReadInBounds f into d numBytes position ↔ Handled f numBytes position) ∧
      (WriteInBounds f junk src d numBytes position ↔ Handled f numBytes position) := by
  exact ⟨⟨fun hin => hin.handled hv hn hp, readInBounds_of_handled hv⟩,
    ⟨fun hin => hin.handled hv hn hp, writeInBounds_of_handled hv⟩⟩

/-- One byte in front of the file is read and written outside of the buffer. -/
theorem negative_position_escapes :
    tenBytes.hdr.Valid ∧ Fits 1 ∧ Fits (-1) ∧
      (tenBytes.readAt (fun _ => 0) 1 (-1)).run (fun _ _ => 0) = .error .outOfBounds ∧
      (tenBytes.writeAt (fun _ => 0) (fun _ => 1) 1 (-1)).run (fun _ _ => 0) =
        .error .outOfBounds ∧
      ¬ ReadInBounds tenBytes (fun _ => 0) (fun _ _ => 0) 1 (-1) ∧
      ¬ WriteInBounds tenBytes (fun _ => 0) (fun _ => 1) (fun _ _ => 0) 1 (-1) := by
  have hone : Fits 1 := by decide
  have hneg : Fits (-1) := by decide
  have hout : ¬ Handled tenBytes 1 (-1) := by
    unfold Handled
    decide
  exact ⟨tenBytes_valid, hone, hneg, rfl, rfl,
    fun hin => hout (hin.handled tenBytes_valid hone hneg),
    fun hin => hout (hin.handled tenBytes_valid hone hneg)⟩

/-- Six bytes at position 7 of ten are read in bounds, and as many as an `int` can
count are not written so at position 1. -/
theorem in_bounds_iff_tenBytes :
    ReadInBounds tenBytes (fun _ => 0) (fun _ _ => 0) 6 7 ∧
      ¬ WriteInBounds tenBytes (fun _ => 0) (fun _ => 1) (fun _ _ => 0) 2147483647 1 := by
  have hhandled : Handled tenBytes 6 7 := by
    unfold Handled
    decide
  have hout : ¬ Handled tenBytes 2147483647 1 := by
    unfold Handled
    decide
  have hsix := in_bounds_iff tenBytes_valid (show Fits 6 by decide) (show Fits 7 by decide)
    (fun _ => 0) (fun _ => 0) (fun _ => 1) fun _ _ => 0
  have hmax := in_bounds_iff tenBytes_valid (show Fits 2147483647 by decide)
    (show Fits 1 by decide) (fun _ => 0) (fun _ => 0) (fun _ => 1) fun _ _ => 0
  exact ⟨hsix.1.mpr hhandled, fun hin => hout (hmax.2.mp hin)⟩

end InBounds

end OpenFile
end FileSys
end Nachos
