import Mathlib.Algebra.Order.Group.Unbundled.Abs
import Nachos.Lib.System
import Nachos.Machine.DiskLatency

/-!
# The track buffer

The disk reads the track under its head into a buffer all the time, and a read of a sector
that has passed is answered from there.  The code keeps two numbers for this, the last
sector that was asked for and the time at which the buffer began to be loaded.
-/

namespace Nachos
namespace Machine

open Lib LittleEndian Rotation
open FileSys (OnDisk)

/-- `Disk::UpdateLast` -/
def DiskHead.updateLast (d : DiskHead) (totalTicks newSector : Int) : DiskHead :=
  let (seek, rotate) := d.timeToSeek totalTicks newSector
  { lastSector := newSector
    bufferInit := if seek ≠ 0 then wrap (totalTicks + seek + rotate) else d.bufferInit }

/-- A request that the disk was given at `time`. -/
structure Served where
  time : Int
  sector : Int
  writing : Bool
  latency : Int

/-- A disk with the clock.  `due` is the time of the interrupt while a request is active.
Nothing in the code reads `history`, which has the last request first. -/
structure Drive where
  head : DiskHead
  totalTicks : Int
  due : Option Int
  history : List Served

namespace Drive

/-- After the constructor. -/
def initial : Drive := ⟨⟨0, 0⟩, 0, none, []⟩

/-- `Disk::ReadRequest` and `Disk::WriteRequest`, as far as times go. -/
def request (s : Drive) (sectorNumber : Int) (writing : Bool) : Drive :=
  let ticks := s.head.computeLatency true s.totalTicks sectorNumber writing
  { s with
    head := s.head.updateLast s.totalTicks sectorNumber
    due := some (s.totalTicks + ticks)
    history := ⟨s.totalTicks, sectorNumber, writing, ticks⟩ :: s.history }

inductive Step (s : Drive) : Drive → Prop
  | ticks {t : Int} (h : s.totalTicks ≤ t) : Step s { s with totalTicks := t }
  | request {n : Int} (h : s.due = none) (hn : OnDisk n) (writing : Bool) :
      Step s (s.request n writing)
  /-- `Disk::HandleInterrupt` -/
  | handleInterrupt {t : Int} (h : s.due = some t) (ht : t ≤ s.totalTicks) :
      Step s { s with due := none }

/-- Requests one at a time, at any times and for any sectors. -/
def runs : System Drive where
  init := (· = initial)
  step := Step

end Drive

/-! ## The head and the platter -/

/-- Where the head is after some requests. -/
def position : List Served → Int
  | [] => 0
  | r :: _ => r.sector

def SameTrack (before : List Served) (sector : Int) : Prop :=
  sector / sectorsPerTrack = position before / sectorsPerTrack

instance (before : List Served) (sector : Int) : Decidable (SameTrack before sector) :=
  inferInstanceAs (Decidable (_ = _))

/-- When the head came to the track that it is on. -/
def arrived : List Served → Int
  | [] => 0
  | r :: before =>
    if SameTrack before r.sector then arrived before
    else r.time + seekOf (position before) r.sector

/-- The sector has passed under the head, from its beginning to its end, between two times. -/
def Passed (start t sector : Int) : Prop :=
  ∃ u, start ≤ u ∧ Begins rotationTime sectorsPerTrack sector u ∧ u + rotationTime ≤ t

/-- A read that the buffer answers: the sector has passed when the one under the head has. -/
def Buffered (before : List Served) (r : Served) : Prop :=
  r.writing = false ∧ SameTrack before r.sector ∧
    Passed (arrived before) (rotationTime * firstBoundary r.time) r.sector

/-- How long a disk with a track buffer takes for a request. -/
structure TimedBy (before : List Served) (r : Served) : Prop where
  buffered : Buffered before r → r.latency = rotationTime
  platter : ¬ Buffered before r →
    Follows r.time (seekOf (position before) r.sector) r.sector r.latency

section

variable {before : List Served} {r : Served} {t a b : Int}

theorem firstBoundary_bounds (t : Int) :
    rotationTime * (firstBoundary t - 1) < t ∧ t ≤ rotationTime * firstBoundary t ∧
      rotationTime * firstBoundary t < t + rotationTime := by
  show 500 * ((t + 500 - 1) / 500 - 1) < t ∧ t ≤ 500 * ((t + 500 - 1) / 500) ∧
    500 * ((t + 500 - 1) / 500) < t + 500
  omega

theorem passed_iff (start b sector : Int) :
    Passed start (rotationTime * b) sector ↔
      (sector - firstBoundary start) % sectorsPerTrack < b - firstBoundary start :=
  passes_iff (by decide) (by decide) (firstBoundary_bounds start).1
    (firstBoundary_bounds start).2.1

theorem Passed.mono {start start' t t' sector : Int} (h : Passed start t sector)
    (hstart : start' ≤ start) (ht : t ≤ t') : Passed start' t' sector := by
  obtain ⟨u, hu, hbegins, hend⟩ := h
  exact ⟨u, hstart.trans hu, hbegins, hend.trans ht⟩

theorem seekOf_eq_zero {lastSector newSector : Int} :
    seekOf lastSector newSector = 0 ↔
      newSector / sectorsPerTrack = lastSector / sectorsPerTrack := by
  unfold seekOf
  rw [mul_eq_zero, or_iff_left (by decide), abs_eq_zero, sub_eq_zero]

theorem seekOf_bounds {lastSector newSector : Int} (hlast : OnDisk lastSector)
    (hnew : OnDisk newSector) :
    0 ≤ seekOf lastSector newSector ∧ seekOf lastSector newSector ≤ 15500 := by
  have hl : 0 ≤ lastSector ∧ lastSector < 1024 := hlast
  have hn : 0 ≤ newSector ∧ newSector < 1024 := hnew
  have hup : |newSector / 32 - lastSector / 32| ≤ 31 := abs_le'.mpr (by omega)
  have hlow : 0 ≤ |newSector / 32 - lastSector / 32| := abs_nonneg _
  show 0 ≤ |newSector / 32 - lastSector / 32| * 500 ∧
    |newSector / 32 - lastSector / 32| * 500 ≤ 15500
  omega

/-! ## One request -/

/-- The condition of the code, with times counted in boundaries. -/
theorem inBuffer_iff {a b sector : Int} (hb : rotationTime * b < 2 ^ 31)
    (ha : 0 ≤ a ∧ rotationTime * a < 2 ^ 31) (hb' : 0 ≤ b) (hsector : 0 ≤ sector) :
    DiskHead.moduloDiff sector ((rotationTime * a).tdiv rotationTime) <
        (wrap (rotationTime * b - rotationTime * a)).tdiv rotationTime ↔
      (sector - a) % sectorsPerTrack < b - a := by
  have hwrap : wrap (rotationTime * b - rotationTime * a) = rotationTime * (b - a) := by
    have hbounds : 500 * b < 2147483648 ∧ 0 ≤ b ∧ 0 ≤ a ∧ 500 * a < 2147483648 :=
      ⟨hb, hb', ha.1, ha.2⟩
    show wrap (500 * b - 500 * a) = 500 * (b - a)
    unfold wrap
    omega
  rw [moduloDiff_eq hsector, hwrap, Int.mul_tdiv_cancel_left _ (by decide),
    Int.mul_tdiv_cancel_left _ (by decide)]

section

variable {d : DiskHead} {totalTicks newSector : Int}

/-- `Disk::ComputeLatency` asks the buffer for a read on the track of the head only. -/
theorem computeLatency_read (hticks : 0 ≤ totalTicks ∧ totalTicks < 2 ^ 31 - 16000)
    (hlast : 0 ≤ d.lastSector) (hnew : 0 ≤ newSector)
    (hbuffer : d.bufferInit = rotationTime * firstBoundary t)
    (ht : 0 ≤ t ∧ rotationTime * firstBoundary t < 2 ^ 31) :
    (newSector / sectorsPerTrack = d.lastSector / sectorsPerTrack ∧
        Passed t (rotationTime * firstBoundary totalTicks) newSector →
      d.computeLatency true totalTicks newSector false = rotationTime) ∧
    (¬ (newSector / sectorsPerTrack = d.lastSector / sectorsPerTrack ∧
        Passed t (rotationTime * firstBoundary totalTicks) newSector) →
      d.computeLatency true totalTicks newSector false =
        d.computeLatency false totalTicks newSector false) := by
  have hnow := firstBoundary_bounds totalTicks
  have hthen := firstBoundary_bounds t
  have hfits : rotationTime * firstBoundary totalTicks < 2 ^ 31 := by
    have h := hnow.2.2
    have hrot : rotationTime = 500 := rfl
    omega
  have hpos : ∀ {x : Int}, 0 ≤ x → 0 ≤ firstBoundary x := fun {x} hx => by
    show 0 ≤ (x + 500 - 1) / 500
    omega
  have hiff := inBuffer_iff hfits ⟨hpos ht.1, ht.2⟩ (hpos hticks.1) hnew
  have hwrap : wrap (rotationTime * firstBoundary totalTicks) =
      rotationTime * firstBoundary totalTicks := by
    have hlow : 0 ≤ rotationTime * firstBoundary totalTicks := hticks.1.trans hnow.2.1
    unfold wrap
    omega
  have hafter : totalTicks + seekOf d.lastSector newSector +
      (rotationTime * firstBoundary (totalTicks + seekOf d.lastSector newSector) -
        (totalTicks + seekOf d.lastSector newSector)) =
      rotationTime * firstBoundary (totalTicks + seekOf d.lastSector newSector) := by
    omega
  unfold DiskHead.computeLatency
  rw [timeToSeek_eq hticks.1 hlast hnew, hbuffer, passed_iff, ← seekOf_eq_zero]
  dsimp only
  rw [hafter]
  by_cases hseek : seekOf d.lastSector newSector = 0
  · rw [hseek, add_zero, hwrap, ← hiff]
    constructor
    · rintro ⟨-, hpass⟩
      exact if_pos ⟨rfl, rfl, rfl, hpass⟩
    · intro hnot
      rw [if_neg fun h => hnot ⟨rfl, h.2.2.2⟩, if_neg fun h => nomatch h.1]
  · constructor
    · exact fun h => absurd h.1 hseek
    · intro _
      rw [if_neg fun h => hseek h.2.2.1, if_neg fun h => nomatch h.1]

theorem updateLast_eq (hticks : 0 ≤ totalTicks ∧ totalTicks < 2 ^ 31 - 16000)
    (hlast : OnDisk d.lastSector) (hnew : OnDisk newSector) :
    d.updateLast totalTicks newSector =
      { lastSector := newSector
        bufferInit :=
          if newSector / sectorsPerTrack = d.lastSector / sectorsPerTrack then d.bufferInit
          else rotationTime * firstBoundary (totalTicks + seekOf d.lastSector newSector) } := by
  have hseek := seekOf_bounds hlast hnew
  have hafter := firstBoundary_bounds (totalTicks + seekOf d.lastSector newSector)
  have hwrap : wrap (totalTicks + seekOf d.lastSector newSector +
      (rotationTime * firstBoundary (totalTicks + seekOf d.lastSector newSector) -
        (totalTicks + seekOf d.lastSector newSector))) =
      rotationTime * firstBoundary (totalTicks + seekOf d.lastSector newSector) := by
    have hrot : rotationTime = 500 := rfl
    unfold wrap
    omega
  unfold DiskHead.updateLast
  rw [timeToSeek_eq hticks.1 hlast.1 hnew.1]
  dsimp only
  rw [hwrap]
  by_cases hsame : newSector / sectorsPerTrack = d.lastSector / sectorsPerTrack
  · rw [if_pos hsame, if_neg (not_not_intro (seekOf_eq_zero.mpr hsame))]
  · rw [if_neg hsame, if_pos fun h => hsame (seekOf_eq_zero.mp h)]

end

/-- The platter is followed where the buffer is not asked. -/
theorem follows_platter {d : DiskHead} {totalTicks newSector : Int} (trackBuffer writing : Bool)
    (hticks : 0 ≤ totalTicks ∧ totalTicks < 2 ^ 31 - 16000) (hlast : OnDisk d.lastSector)
    (hnew : OnDisk newSector) (hbuffer : writing = true ∨ trackBuffer = false) :
    Follows totalTicks (seekOf d.lastSector newSector) newSector
      (d.computeLatency trackBuffer totalTicks newSector writing) := by
  have hseek := seekOf_bounds hlast hnew
  have hafter := firstBoundary_bounds (totalTicks + seekOf d.lastSector newSector)
  have hrot : rotationTime = 500 := rfl
  refine (computeLatency_exact ⟨hticks.1, by omega⟩ hlast hnew hbuffer).mpr ?_
  rw [sectorsLost_zero (by omega) (by omega)]
  exact dvd_zero _

/-! ## Runs -/

theorem Buffered.passed (h : Buffered before r) :
    Passed (arrived (r :: before)) (r.time + rotationTime) r.sector := by
  have hsame : arrived (r :: before) = arrived before := if_pos h.2.1
  rw [hsame]
  exact h.2.2.mono le_rfl (firstBoundary_bounds r.time).2.2.le

theorem arrived_cons_le (harrived : arrived before ≤ r.time)
    (hseek : 0 ≤ seekOf (position before) r.sector) :
    arrived (r :: before) ≤ r.time + seekOf (position before) r.sector := by
  unfold arrived
  by_cases hsame : SameTrack before r.sector
  · rw [if_pos hsame]
    omega
  · rw [if_neg hsame]

theorem passed_of_follows (harrived : arrived before ≤ r.time)
    (hseek : 0 ≤ seekOf (position before) r.sector)
    (h : Follows r.time (seekOf (position before) r.sector) r.sector r.latency) :
    Passed (arrived (r :: before)) (r.time + r.latency) r.sector := by
  obtain ⟨⟨⟨hafter, hbegins⟩, -⟩, -⟩ := h
  have hstart := arrived_cons_le harrived hseek
  exact ⟨r.time + r.latency - rotationTime, by omega, hbegins, by omega⟩

/-- Once the head has been on the track for a revolution, the buffer holds all of it. -/
theorem buffered_of_turn (hread : r.writing = false) (hsame : SameTrack before r.sector)
    (hturn : arrived before + sectorsPerTrack * rotationTime ≤ r.time) : Buffered before r := by
  refine ⟨hread, hsame, (passed_iff _ _ _).mpr ?_⟩
  have hstart : 500 * firstBoundary (arrived before) < arrived before + 500 :=
    (firstBoundary_bounds _).2.2
  have hend : r.time ≤ 500 * firstBoundary r.time := (firstBoundary_bounds _).2.1
  have hlong : arrived before + 16000 ≤ r.time := hturn
  show (r.sector - firstBoundary (arrived before)) % 32 <
    firstBoundary r.time - firstBoundary (arrived before)
  omega

/-- A request as it should be answered: its time, and that the sector has passed under the
head when the interrupt comes. -/
structure Answered (before : List Served) (r : Served) : Prop where
  timed : TimedBy before r
  passed : Passed (arrived (r :: before)) (r.time + r.latency) r.sector

namespace Drive

/-- The numbers that the code keeps are those of the head and the buffer. -/
structure Sound (s : Drive) : Prop where
  now : 0 ≤ s.totalTicks
  lastSector : s.head.lastSector = position s.history
  onDisk : OnDisk (position s.history)
  bufferInit : s.head.bufferInit = rotationTime * firstBoundary (arrived s.history)
  arrived : 0 ≤ arrived s.history
  arrived_le : Machine.arrived s.history ≤ s.due.getD s.totalTicks
  answered : ∀ after r before, s.history = after ++ r :: before → Answered before r

variable {s s' : Drive} {n : Int}

theorem Sound.timed (h : s.Sound) (hfits : s.totalTicks < 2 ^ 31 - 16000) (hfree : s.due = none)
    (hn : OnDisk n) (writing : Bool) :
    TimedBy s.history ⟨s.totalTicks, n, writing,
      s.head.computeLatency true s.totalTicks n writing⟩ := by
  have hlast : OnDisk s.head.lastSector := h.lastSector ▸ h.onDisk
  have hle : Machine.arrived s.history ≤ s.totalTicks := by
    have hle := h.arrived_le
    rwa [hfree] at hle
  cases writing with
  | true =>
    refine ⟨fun hb => (nomatch hb.1), fun _ => ?_⟩
    have hfollows := follows_platter true true ⟨h.now, hfits⟩ hlast hn (.inl rfl)
    rwa [h.lastSector] at hfollows
  | false =>
    have hboundary := firstBoundary_bounds (Machine.arrived s.history)
    have hrot : rotationTime = 500 := rfl
    have hread := computeLatency_read ⟨h.now, hfits⟩ hlast.1 hn.1 h.bufferInit
      ⟨h.arrived, by omega⟩
    have hfollows := follows_platter false false ⟨h.now, hfits⟩ hlast hn (.inr rfl)
    rw [h.lastSector] at hread hfollows
    refine ⟨fun hb => hread.1 hb.2, fun hnot => ?_⟩
    dsimp only
    rw [hread.2 fun hb => hnot ⟨rfl, hb⟩]
    exact hfollows

theorem Sound.answers (h : s.Sound) (hfits : s.totalTicks < 2 ^ 31 - 16000)
    (hfree : s.due = none) (hn : OnDisk n) (writing : Bool) :
    Answered s.history ⟨s.totalTicks, n, writing,
      s.head.computeLatency true s.totalTicks n writing⟩ := by
  have htimed := h.timed hfits hfree hn writing
  have hle : Machine.arrived s.history ≤ s.totalTicks := by
    have hle := h.arrived_le
    rwa [hfree] at hle
  refine ⟨htimed, ?_⟩
  by_cases hb : Buffered s.history ⟨s.totalTicks, n, writing,
      s.head.computeLatency true s.totalTicks n writing⟩
  · have hpassed := hb.passed
    rwa [← htimed.buffered hb] at hpassed
  · exact passed_of_follows hle (seekOf_bounds h.onDisk hn).1 (htimed.platter hb)

theorem Sound.request (h : s.Sound) (hfits : s.totalTicks < 2 ^ 31 - 16000)
    (hfree : s.due = none) (hn : OnDisk n) (writing : Bool) : (s.request n writing).Sound := by
  have hlast : OnDisk s.head.lastSector := h.lastSector ▸ h.onDisk
  have hanswers := h.answers hfits hfree hn writing
  have hhead : (s.request n writing).head = s.head.updateLast s.totalTicks n := rfl
  rw [updateLast_eq ⟨h.now, hfits⟩ hlast hn, h.lastSector] at hhead
  refine ⟨h.now, ?_, hn, ?_, ?_, ?_, ?_⟩
  · rw [hhead]
    rfl
  · rw [hhead]
    show (if SameTrack s.history n then s.head.bufferInit else _) =
      rotationTime * firstBoundary (if SameTrack s.history n then _ else _)
    by_cases hsame : SameTrack s.history n
    · rw [if_pos hsame, if_pos hsame]
      exact h.bufferInit
    · rw [if_neg hsame, if_neg hsame]
  · show 0 ≤ if SameTrack s.history n then _ else _
    by_cases hsame : SameTrack s.history n
    · rw [if_pos hsame]
      exact h.arrived
    · rw [if_neg hsame]
      exact Int.add_nonneg h.now (seekOf_bounds h.onDisk hn).1
  · obtain ⟨u, hu, -, hend⟩ := hanswers.passed
    have hbefore : u + 500 ≤ s.totalTicks + s.head.computeLatency true s.totalTicks n writing :=
      hend
    show _ ≤ s.totalTicks + _
    exact hu.trans (by omega)
  · intro after r before heq
    cases after with
    | nil =>
      cases heq
      exact hanswers
    | cons r' after' => exact h.answered after' r before (List.cons.inj heq).2

theorem Sound.step (h : s.Sound) (hfits : s.totalTicks < 2 ^ 31 - 16000) (hstep : Step s s') :
    s'.Sound := by
  cases hstep with
  | @ticks t ht =>
    refine ⟨h.now.trans ht, h.lastSector, h.onDisk, h.bufferInit, h.arrived, ?_, h.answered⟩
    have hle := h.arrived_le
    cases hdue : s.due with
    | none =>
      rw [hdue] at hle
      exact hle.trans ht
    | some due =>
      rw [hdue] at hle
      exact hle
  | request hfree hn writing => exact h.request hfits hfree hn writing
  | @handleInterrupt t hdue ht =>
    refine ⟨h.now, h.lastSector, h.onDisk, h.bufferInit, h.arrived, ?_, h.answered⟩
    have hle := h.arrived_le
    rw [hdue] at hle
    exact hle.trans ht

theorem Step.totalTicks_le (h : Step s s') : s.totalTicks ≤ s'.totalTicks := by
  cases h with
  | ticks ht => exact ht
  | request | handleInterrupt => exact le_rfl

theorem sound_initial : initial.Sound where
  now := le_rfl
  lastSector := rfl
  onDisk := ⟨le_rfl, by decide⟩
  bufferInit := rfl
  arrived := le_rfl
  arrived_le := le_rfl
  answered after r before h := by cases after <;> cases h

theorem sound_of_reachable (hs : runs.Reachable s) (hfits : s.totalTicks < 2 ^ 31 - 16000) :
    s.Sound := by
  refine hs.induct (I := fun s => s.totalTicks < 2 ^ 31 - 16000 → s.Sound) ?_ ?_ hfits
  · rintro s rfl _
    exact sound_initial
  · intro s s' h hstep hfits
    have hfits' := hstep.totalTicks_le.trans_lt hfits
    exact (h hfits').step hfits' hstep

/-- As long as the clock fits an `int`, every request is answered when the sector has passed
under the head since it came to the track: at once if the buffer holds the sector, else as
soon as the platter allows; and reads of a track on which the head has been for a revolution
take the time of a sector. -/
theorem track_buffer (hs : runs.Reachable s) (hfits : s.totalTicks < 2 ^ 31 - 16000)
    {after before : List Served} {r : Served} (h : s.history = after ++ r :: before) :
    TimedBy before r ∧ Passed (Machine.arrived (r :: before)) (r.time + r.latency) r.sector ∧
      (r.writing = false → SameTrack before r.sector →
        Machine.arrived before + sectorsPerTrack * rotationTime ≤ r.time →
          r.latency = rotationTime) := by
  have hanswered := (sound_of_reachable hs hfits).answered after r before h
  refine ⟨hanswered.timed, hanswered.passed, fun hread hsame hturn => ?_⟩
  exact hanswered.timed.buffered (buffered_of_turn hread hsame hturn)

/-- Sector 5 is written when the disk has just been started and read one revolution later. -/
theorem track_buffer_read_back :
    ∃ s, runs.Reachable s ∧ ∃ r before, s.history = r :: before ∧ r.latency = rotationTime := by
  have hs := System.Reachable.of_init (S := runs) (s := initial) rfl
  have hs := hs.step (.request (n := 5) rfl (by decide) true)
  have hs := hs.step (.ticks (t := 20000) (by decide))
  have hs := hs.step (.handleInterrupt rfl (by decide))
  have hs := hs.step (.request (n := 5) rfl (by decide) false)
  have hread := track_buffer hs (by decide) (List.nil_append _).symm
  exact ⟨_, hs, _, _, rfl, hread.2.2 rfl rfl (by decide)⟩

end Drive

end

end Machine
end Nachos
