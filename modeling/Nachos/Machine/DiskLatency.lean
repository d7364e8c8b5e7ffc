import Nachos.FileSys.Disk
import Nachos.Lib.LittleEndian
import Nachos.Lib.Rotation

/-!
# The latency of the disk

`ComputeLatency` and what it calls.  The clock is a `long long`, but the time after
the seek is kept in an `int`, which wraps.
-/

namespace Nachos
namespace Machine

open Lib LittleEndian Rotation

abbrev rotationTime : Int := 500
abbrev seekTime : Int := 500
abbrev sectorsPerTrack : Int := FileSys.sectorsPerTrack
abbrev numSectors : Int := FileSys.numSectors

/-- The members of `Disk` that times depend on. -/
structure DiskHead where
  lastSector : Int
  bufferInit : Int

namespace DiskHead

/-- `Disk::TimeToSeek`: the seek, and `rotation`. -/
def timeToSeek (d : DiskHead) (totalTicks newSector : Int) : Int × Int :=
  let newTrack := newSector.tdiv sectorsPerTrack
  let oldTrack := d.lastSector.tdiv sectorsPerTrack
  let seek := ((newTrack - oldTrack).natAbs : Int) * seekTime
  let overshoot := (totalTicks + seek).tmod rotationTime
  (seek, if 0 < overshoot then rotationTime - overshoot else 0)

/-- `Disk::ModuloDiff`. -/
def moduloDiff (toSector fromSector : Int) : Int :=
  let toOffset := toSector.tmod sectorsPerTrack
  let fromOffset := fromSector.tmod sectorsPerTrack
  (toOffset - fromOffset + sectorsPerTrack).tmod sectorsPerTrack

/-- `Disk::ComputeLatency`; `trackBuffer` unless `NOTRACKBUF` is defined. -/
def computeLatency (d : DiskHead) (trackBuffer : Bool) (totalTicks newSector : Int)
    (writing : Bool) : Int :=
  let (seek, rotation) := d.timeToSeek totalTicks newSector
  let timeAfter := wrap (totalTicks + seek + rotation)
  if trackBuffer ∧ writing = false ∧ seek = 0 ∧
      moduloDiff newSector (d.bufferInit.tdiv rotationTime) <
        (wrap (timeAfter - d.bufferInit)).tdiv rotationTime then
    rotationTime
  else
    seek + (rotation + moduloDiff newSector (timeAfter.tdiv rotationTime) * rotationTime) +
      rotationTime

end DiskHead

/-! ## The platter -/

/-- The time of a seek, one track after the other. -/
def seekOf (lastSector newSector : Int) : Int :=
  |newSector / sectorsPerTrack - lastSector / sectorsPerTrack| * seekTime

/-- The boundary of sectors, by number, that passes by first from `t` on. -/
def firstBoundary (t : Int) : Int := (t + rotationTime - 1) / rotationTime

/-- The latency is that of the rotating platter: the least time that is enough to seek, to wait
for the beginning of the sector, and to read it. -/
def Follows (totalTicks seek newSector latency : Int) : Prop :=
  IsLeast {l | seek ≤ l - rotationTime ∧ rotationTime ∣ totalTicks + l - rotationTime ∧
      (totalTicks + l - rotationTime) / rotationTime ≡ newSector [ZMOD sectorsPerTrack]} latency ∧
    0 < latency ∧ latency ≤ seek + (sectorsPerTrack + 1) * rotationTime

/-- How many sectors behind the clock an `int` is that should be `t`: it has wrapped `k` times,
and `/` rounds towards 0. -/
def sectorsLost (t : Int) : Int :=
  let k := (t + 2 ^ 31) / 2 ^ 32
  if k * 2 ^ 32 ≤ t then (k * 2 ^ 32 + rotationTime - 1) / rotationTime
  else k * 2 ^ 32 / rotationTime

theorem moduloDiff_eq {toSector : Int} (hto : 0 ≤ toSector) (fromSector : Int) :
    DiskHead.moduloDiff toSector fromSector = (toSector - fromSector) % sectorsPerTrack := by
  have hmod := Int.tmod_def fromSector 32
  have hlow := Int.lt_tmod_of_pos fromSector (b := 32) (by decide)
  have hhigh := Int.tmod_lt_of_pos fromSector (b := 32) (by decide)
  have hsum : 0 ≤ toSector % 32 - fromSector.tmod 32 + 32 := by omega
  show (toSector.tmod 32 - fromSector.tmod 32 + 32).tmod 32 = (toSector - fromSector) % 32
  rw [Int.tmod_eq_emod_of_nonneg hto, Int.tmod_eq_emod_of_nonneg hsum]
  omega

/-- The number of whole sectors in the wrapped time. -/
theorem wrap_tdiv (n : Int) :
    (wrap (rotationTime * n)).tdiv rotationTime = n - sectorsLost (rotationTime * n) := by
  have hwrap : wrap (500 * n) =
      500 * n - (500 * n + 2147483648) / 4294967296 * 4294967296 := by
    unfold wrap
    omega
  show (wrap (500 * n)).tdiv 500 =
    n - if (500 * n + 2147483648) / 4294967296 * 4294967296 ≤ 500 * n then
      ((500 * n + 2147483648) / 4294967296 * 4294967296 + 500 - 1) / 500
    else (500 * n + 2147483648) / 4294967296 * 4294967296 / 500
  rw [hwrap]
  generalize (500 * n + 2147483648) / 4294967296 * 4294967296 = lost
  by_cases hle : lost ≤ 500 * n
  · rw [if_pos hle, Int.tdiv_eq_ediv_of_nonneg (by omega)]
    omega
  · have hneg : (500 * n - lost).tdiv 500 = -((lost - 500 * n) / 500) := by
      rw [← Int.neg_sub lost (500 * n), Int.neg_tdiv, Int.tdiv_eq_ediv_of_nonneg (by omega)]
    rw [if_neg hle, hneg]
    omega

section Latency

variable {d : DiskHead} {totalTicks newSector : Int}

theorem timeToSeek_eq (hticks : 0 ≤ totalTicks) (hlast : 0 ≤ d.lastSector) (hnew : 0 ≤ newSector) :
    d.timeToSeek totalTicks newSector = (seekOf d.lastSector newSector,
      rotationTime * firstBoundary (totalTicks + seekOf d.lastSector newSector) -
        (totalTicks + seekOf d.lastSector newSector)) := by
  have hseek : (((newSector.tdiv sectorsPerTrack - d.lastSector.tdiv sectorsPerTrack).natAbs : Int)) *
      seekTime = seekOf d.lastSector newSector := by
    rw [Int.tdiv_eq_ediv_of_nonneg hnew, Int.tdiv_eq_ediv_of_nonneg hlast, ← Int.abs_eq_natAbs]
    rfl
  have hpos : 0 ≤ seekOf d.lastSector newSector :=
    Int.mul_nonneg (abs_nonneg _) (by decide)
  unfold DiskHead.timeToSeek
  dsimp only
  rw [hseek, Int.tmod_eq_emod_of_nonneg (by omega)]
  generalize totalTicks + seekOf d.lastSector newSector = t
  refine congrArg (Prod.mk _) ?_
  show (if 0 < t % 500 then 500 - t % 500 else 0) = 500 * ((t + 500 - 1) / 500) - t
  split <;> omega

/-- The latency ends one sector after a boundary, the one that the wrapped time is counted
to. -/
theorem computeLatency_eq {trackBuffer writing : Bool} (hticks : 0 ≤ totalTicks)
    (hlast : 0 ≤ d.lastSector) (hnew : 0 ≤ newSector)
    (hbuffer : writing = true ∨ trackBuffer = false) {m : Int}
    (hm : firstBoundary (totalTicks + seekOf d.lastSector newSector) = m) :
    totalTicks + d.computeLatency trackBuffer totalTicks newSector writing - rotationTime =
      rotationTime *
        (m + (newSector - (m - sectorsLost (rotationTime * m))) % sectorsPerTrack) := by
  have hskip : ∀ seek timeAfter, ¬ (trackBuffer = true ∧ writing = false ∧ seek = (0 : Int) ∧
      DiskHead.moduloDiff newSector (d.bufferInit.tdiv rotationTime) <
        (wrap (timeAfter - d.bufferInit)).tdiv rotationTime) := by
    rintro seek timeAfter ⟨hon, hread, -⟩
    rcases hbuffer with hwrite | hoff
    · rw [hread] at hwrite
      cases hwrite
    · rw [hoff] at hon
      cases hon
  have hafter : totalTicks + seekOf d.lastSector newSector +
      (rotationTime * m - (totalTicks + seekOf d.lastSector newSector)) = rotationTime * m := by
    omega
  unfold DiskHead.computeLatency
  rw [timeToSeek_eq hticks hlast hnew, hm]
  dsimp only
  rw [if_neg (hskip _ _), hafter, wrap_tdiv, moduloDiff_eq hnew]
  generalize (newSector - (m - sectorsLost (rotationTime * m))) % sectorsPerTrack = sectors
  show totalTicks + (_ + (500 * m - _ + sectors * 500) + 500) - 500 = 500 * (m + sectors)
  omega

/-- The latency is that of the platter just when the wrapped time has lost whole revolutions. -/
theorem computeLatency_exact {trackBuffer writing : Bool}
    (hticks : 0 ≤ totalTicks ∧ totalTicks ≤ 2 ^ 62)
    (hlast : 0 ≤ d.lastSector ∧ d.lastSector < numSectors)
    (hnew : 0 ≤ newSector ∧ newSector < numSectors)
    (hbuffer : writing = true ∨ trackBuffer = false) :
    Follows totalTicks (seekOf d.lastSector newSector) newSector
        (d.computeLatency trackBuffer totalTicks newSector writing) ↔
      sectorsPerTrack ∣ sectorsLost (rotationTime *
        firstBoundary (totalTicks + seekOf d.lastSector newSector)) := by
  have hlatency := computeLatency_eq hticks.1 hlast.1 hnew.1 hbuffer rfl
  have hseek : 0 ≤ seekOf d.lastSector newSector := Int.mul_nonneg (abs_nonneg _) (by decide)
  generalize d.computeLatency trackBuffer totalTicks newSector writing = latency at hlatency ⊢
  generalize seekOf d.lastSector newSector = seek at hlatency hseek ⊢
  have hfirst : 500 * (firstBoundary (totalTicks + seek) - 1) < totalTicks + seek := by
    show 500 * ((totalTicks + seek + 500 - 1) / 500 - 1) < _
    omega
  have hnext : totalTicks + seek ≤ 500 * firstBoundary (totalTicks + seek) := by
    show _ ≤ 500 * ((totalTicks + seek + 500 - 1) / 500)
    omega
  generalize firstBoundary (totalTicks + seek) = m at hlatency hfirst hnext ⊢
  generalize sectorsLost (rotationTime * m) = lost at hlatency ⊢
  have hmod : 0 ≤ (newSector - (m - lost)) % 32 ∧ (newSector - (m - lost)) % 32 < 32 := by omega
  have hshift : IsLeast {l | seek ≤ l - rotationTime ∧ rotationTime ∣ totalTicks + l - rotationTime ∧
      (totalTicks + l - rotationTime) / rotationTime ≡ newSector [ZMOD sectorsPerTrack]} latency ↔
      IsLeast {u | totalTicks + seek ≤ u ∧ Begins rotationTime sectorsPerTrack newSector u}
        (totalTicks - rotationTime + latency) := by
    refine isLeast_shift fun l => ?_
    have hswap : totalTicks - rotationTime + l = totalTicks + l - rotationTime := by omega
    rw [hswap]
    refine and_congr_left' ?_
    show seek ≤ l - 500 ↔ totalTicks + seek ≤ totalTicks + l - 500
    omega
  have hsum : totalTicks - rotationTime + latency =
      rotationTime * (m + (newSector - (m - lost)) % sectorsPerTrack) := by
    rw [← hlatency]
    omega
  have hbounds : 0 < latency ∧ latency ≤ seek + (sectorsPerTrack + 1) * rotationTime := by
    have hsum' : totalTicks - 500 + latency = 500 * (m + (newSector - (m - lost)) % 32) := hsum
    show 0 < latency ∧ latency ≤ seek + (32 + 1) * 500
    omega
  have hcongr : m + (newSector - (m - lost)) % 32 ≡ newSector [ZMOD 32] ↔ (32 : Int) ∣ lost := by
    unfold Int.ModEq
    omega
  unfold Follows
  rw [and_iff_left hbounds, hshift, hsum]
  exact (isLeast_iff (by decide) hfirst hnext hmod.1 hmod.2).trans hcongr

/-- The platter is followed while the clock fits an `int`. -/
theorem sectorsLost_zero {t : Int} (ht : 0 ≤ t) (hfits : t < 2 ^ 31) : sectorsLost t = 0 := by
  have hk : (t + 2 ^ 31) / 2 ^ 32 = 0 := by omega
  unfold sectorsLost
  rw [hk]
  dsimp only
  rw [if_pos (by omega)]
  decide

/-- A write to sector 0 shortly after the clock has passed `2 ^ 31`, and shortly before. -/
theorem computeLatency_exact_late :
    ¬ Follows 2147484000 0 0 ((⟨0, 0⟩ : DiskHead).computeLatency true 2147484000 0 true) ∧
      Follows 2147483000 0 0 ((⟨0, 0⟩ : DiskHead).computeLatency true 2147483000 0 true) := by
  have hwrapped := @computeLatency_exact ⟨0, 0⟩ 2147484000 0 true true ⟨by decide, by decide⟩
    ⟨by decide, by decide⟩ ⟨by decide, by decide⟩ (.inl rfl)
  have hfits := @computeLatency_exact ⟨0, 0⟩ 2147483000 0 true true ⟨by decide, by decide⟩
    ⟨by decide, by decide⟩ ⟨by decide, by decide⟩ (.inl rfl)
  exact ⟨fun h => absurd (hwrapped.mp h) (by decide), hfits.mpr (by decide)⟩

/-- When the clock has passed `2 ^ 31` sector 0 is waited for too long. -/
theorem computeLatency_wraps :
    ¬ Follows 2147484000 0 0 ((⟨0, 0⟩ : DiskHead).computeLatency true 2147484000 0 true) := by
  rintro ⟨⟨-, hleast⟩, -⟩
  have hlatency : (⟨0, 0⟩ : DiskHead).computeLatency true 2147484000 0 true = 11500 := by decide
  rw [hlatency] at hleast
  have hle := hleast (a := 4500) ⟨by decide, by decide, by decide⟩
  exact absurd hle (by decide)

end Latency

end Machine
end Nachos
