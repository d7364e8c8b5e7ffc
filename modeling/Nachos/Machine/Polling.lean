import Nachos.Machine.Console

/-!
# Polling the console

`CheckCharAvail` is called again only if it schedules the next poll itself.
-/

namespace Nachos
namespace Machine

open Lib

/-- What happens to a console; `RX`, `TX` and the destructor are called while it is open. -/
inductive Console.Step (utf8 : Bool) : Console → Console → Prop
  | poll {s} (avail : Bool) (hpending : 0 < s.readPolls) : Step utf8 s (s.poll utf8 avail)
  | writeDone {s} (hpending : 0 < s.writeDones) : Step utf8 s s.writeDone
  | rx {s s' ch} (hopen : 0 ≤ s.readFileNo) (hrx : s.rx = some (ch, s')) : Step utf8 s s'
  | tx {s s' ch} (hopen : 0 ≤ s.readFileNo) (htx : s.tx utf8 ch = some s') : Step utf8 s s'
  | destroy {s} (hopen : 0 ≤ s.readFileNo) : Step utf8 s s.destroy

/-- The runs of a console at which the bytes `input` arrive. -/
def Console.runs (utf8 : Bool) (input : List UInt8) : System Console where
  init := New input
  step := Console.Step utf8

/-- Polling goes on: an open console has one poll to come, which hands over the next value
when there is room for it, and a closed one has a poll to come that ends the wait. -/
structure Console.Polling (utf8 : Bool) (s : Console) : Prop where
  pending : 0 ≤ s.readFileNo → s.readPolls = 1
  delivers : 0 ≤ s.readFileNo → s.incoming = noChar →
    (s.poll utf8 true).incoming ≠ noChar ∧
      (s.poll utf8 true).readHandled = s.readHandled + 1
  ends : s.readFileNo < 0 → s.readFileNo = -2 ∨
    s.readPolls = 1 ∧ ∀ avail, (s.poll utf8 avail).readFileNo = -2

/-- Characters up to `0xff` in UTF-8, where the code need not be the shortest, and the file
may end after the first byte of two. -/
inductive Latin1 : List UInt8 → Prop
  | nil : Latin1 []
  | ascii {c rest} (hc : c ≤ 0x7f) (hrest : Latin1 rest) : Latin1 (c :: rest)
  | cut {c} (hlow : 0xc0 ≤ c) (hhigh : c ≤ 0xc3) : Latin1 [c]
  | pair {c d rest} (hlow : 0xc0 ≤ c) (hhigh : c ≤ 0xc3) (hdlow : 0x80 ≤ d) (hdhigh : d ≤ 0xbf)
      (hrest : Latin1 rest) : Latin1 (c :: d :: rest)

/-- All the bytes can be read in that locale. -/
def Readable (utf8 : Bool) (input : List UInt8) : Prop := utf8 = true → Latin1 input

variable {utf8 : Bool} {input rest : List UInt8} {s s' : Console} {ch : Int}

/-! ## Bytes that can be read -/

theorem Readable.next (h : Readable utf8 input) :
    ∃ ch rest, nextValue utf8 input = some (ch, rest) ∧ Readable utf8 rest := by
  cases utf8 with
  | false =>
    cases input with
    | nil => exact ⟨eof, [], nextValue_nil, nofun⟩
    | cons c rest => exact ⟨_, rest, nextValue_bytes c, nofun⟩
  | true =>
    have hlatin := h rfl
    cases hlatin with
    | nil => exact ⟨eof, [], nextValue_nil, fun _ => .nil⟩
    | ascii hc hrest => exact ⟨_, _, nextValue_ascii hc, fun _ => hrest⟩
    | cut hlow hhigh => exact ⟨eof, [], nextValue_cut hlow hhigh, fun _ => .nil⟩
    | pair hlow hhigh hdlow hdhigh hrest =>
      exact ⟨_, _, nextValue_pair hlow hhigh hdlow hdhigh, fun _ => hrest⟩

/-- When a value is read, only what follows can make the bytes unreadable, and it is shorter. -/
theorem readable_of_next (h : nextValue utf8 input = some (ch, rest))
    (hnot : ¬ Readable utf8 input) : ¬ Readable utf8 rest ∧ rest.length < input.length := by
  obtain ⟨rfl, hlatin⟩ := Classical.not_imp.mp hnot
  cases input with
  | nil => exact absurd .nil hlatin
  | cons c tail =>
    by_cases hc : c ≤ 0x7f
    · rw [nextValue_ascii hc] at h
      cases h
      exact ⟨fun hrest => hlatin (.ascii hc (hrest rfl)), Nat.lt_succ_self _⟩
    · rw [nextValue, readChar_leads hc] at h
      by_cases hleads : 0xc0 ≤ c ∧ c ≤ 0xc3
      · rw [if_pos hleads] at h
        cases tail with
        | nil => exact absurd (.cut hleads.1 hleads.2) hlatin
        | cons d tail =>
          dsimp only at h
          by_cases hfollows : 0x80 ≤ d ∧ d ≤ 0xbf
          · rw [if_pos hfollows] at h
            cases h
            refine ⟨fun hrest => ?_, Nat.lt_add_of_pos_right Nat.two_pos⟩
            exact hlatin (.pair hleads.1 hleads.2 hfollows.1 hfollows.2 (hrest rfl))
          · rw [if_neg hfollows] at h
            cases h
      · rw [if_neg hleads] at h
        cases h

namespace Console

/-! ## While the bytes can be read -/

/-- What each step keeps. -/
def Kept (utf8 : Bool) (s : Console) : Prop :=
  0 ≤ s.readFileNo ∧ s.readPolls = 1 ∧ Readable utf8 s.input ∨
    s.readFileNo = -1 ∧ s.readPolls = 1 ∨ s.readFileNo = -2 ∧ s.readPolls = 0

theorem Kept.polling (h : Kept utf8 s) : Polling utf8 s := by
  rcases h with ⟨hopen, hpending, hreadable⟩ | ⟨hclosed, hpending⟩ | ⟨hgone, -⟩
  · refine ⟨fun _ => hpending, fun _ hempty => ?_, fun hneg => by omega⟩
    obtain ⟨ch, rest, hnext, -⟩ := hreadable.next
    obtain ⟨n, hpoll⟩ := poll_reads (by omega) (by omega) hempty hnext
    rw [hpoll]
    exact ⟨nextValue_ne_noChar hnext, rfl⟩
  · refine ⟨fun hopen => by omega, fun hopen => by omega, fun _ => .inr ⟨hpending, fun avail => ?_⟩⟩
    rw [poll_closed hclosed]
  · exact ⟨fun hopen => by omega, fun hopen => by omega, fun _ => .inl hgone⟩

theorem Kept.poll (h : Kept utf8 s) (hpending : 0 < s.readPolls) (avail : Bool) :
    Kept utf8 (s.poll utf8 avail) := by
  rcases h with ⟨hopen, hone, hreadable⟩ | ⟨hclosed, hone⟩ | ⟨-, hnone⟩
  · have hnot : s.readFileNo ≠ -1 := by omega
    obtain ⟨ch, rest, hnext, hrest⟩ := hreadable.next
    have hsome : nextValue utf8 s.input ≠ none := hnext ▸ Option.some_ne_none _
    rcases poll_cases hnot hpending hsome avail with hpoll | ⟨-, ch', rest', n, hnext', hpoll⟩
    · rw [hpoll]
      exact .inl ⟨hopen, hone, hreadable⟩
    · obtain ⟨rfl, rfl⟩ := Prod.mk.inj (Option.some.inj (hnext.symm.trans hnext'))
      rw [hpoll]
      exact .inl ⟨hopen, hone, hrest⟩
  · rw [poll_closed hclosed]
    exact .inr (.inr ⟨rfl, by rw [hone]⟩)
  · omega

theorem Kept.step (h : Kept utf8 s) (hstep : Step utf8 s s') : Kept utf8 s' := by
  cases hstep with
  | poll avail hpending => exact h.poll hpending avail
  | writeDone hpending => exact h
  | rx hopen hrx =>
    obtain ⟨-, -, rfl⟩ := rx_some hrx
    exact h
  | tx hopen htx =>
    obtain ⟨-, rfl⟩ := tx_some htx
    exact h
  | destroy hopen =>
    rcases h with ⟨-, hone, -⟩ | ⟨hclosed, -⟩ | ⟨hgone, -⟩
    · exact .inr (.inl ⟨rfl, hone⟩)
    · omega
    · omega

theorem Kept.reachable (hinput : Readable utf8 input) (hs : (runs utf8 input).Reachable s) :
    Kept utf8 s := by
  refine hs.induct (I := Kept utf8) (fun s hnew => ?_) fun s s' h hstep => h.step hstep
  obtain ⟨hopen, hone, -, hin, -⟩ := hnew.fields
  exact .inl ⟨hopen, hone, hin ▸ hinput⟩

/-! ## When they cannot be read -/

/-- Reading on, one comes to the bytes that are dropped, and no poll is left. -/
theorem reaches_dropped {n : Nat} (hs : (runs utf8 input).Reachable s) (hopen : 0 ≤ s.readFileNo)
    (hone : s.readPolls = 1) (hempty : s.incoming = noChar) (hinput : ¬ Readable utf8 s.input)
    (hn : s.input.length ≤ n) :
    ∃ s', (runs utf8 input).Reachable s' ∧ 0 ≤ s'.readFileNo ∧ s'.readPolls = 0 := by
  induction n generalizing s with
  | zero =>
    have hnil : s.input = [] := List.length_eq_zero_iff.mp (Nat.le_zero.mp hn)
    exact absurd (fun _ => hnil ▸ Latin1.nil) hinput
  | succ n ih =>
    have hnot : s.readFileNo ≠ -1 := by omega
    have hpoll := hs.step (Step.poll true (by omega))
    cases hnext : nextValue utf8 s.input with
    | none =>
      obtain ⟨rest, hdropped⟩ := dropped_of_none hnext
      rw [poll_drops hnot hempty hdropped] at hpoll
      exact ⟨_, hpoll, hopen, by rw [hone]⟩
    | some value =>
      obtain ⟨ch, rest⟩ := value
      obtain ⟨m, heq⟩ := poll_reads hnot (by omega) hempty hnext
      rw [heq] at hpoll
      have hrx := hpoll.step (Step.rx hopen (rx_eq (nextValue_ne_noChar hnext)))
      obtain ⟨hrest, hshorter⟩ := readable_of_next hnext hinput
      exact ih hrx hopen hone rfl hrest (Nat.le_of_lt_succ (Nat.lt_of_lt_of_le hshorter hn))

end Console

/-- Polling never stops, if and only if the locale is not UTF-8 or what arrives are characters
up to `0xff`. -/
theorem polling_exact (utf8 : Bool) (input : List UInt8) :
    (∀ s, (Console.runs utf8 input).Reachable s → Console.Polling utf8 s) ↔
      Readable utf8 input := by
  refine ⟨fun h => ?_, fun h s hs => (Console.Kept.reachable h hs).polling⟩
  by_contra hnot
  obtain ⟨s, hnew⟩ : ∃ s, Console.New input s := ⟨_, false, none, none, rfl⟩
  obtain ⟨hopen, hone, hempty, hin, -⟩ := hnew.fields
  have hs : (Console.runs utf8 input).Reachable s := .of_init hnew
  obtain ⟨s', hs', hopen', hnone⟩ :=
    Console.reaches_dropped hs hopen hone hempty (hin ▸ hnot) Nat.le.refl
  have hpending := (h s' hs').pending hopen'
  omega

/-- A byte `0x80` alone, and the console is never polled again. -/
theorem polling_stops :
    ¬ ∀ s, (Console.runs true [0x80]).Reachable s → Console.Polling true s := by
  intro h
  obtain ⟨s, hs⟩ : ∃ s, s ∈ Console.construct false none none [0x80] := ⟨_, rfl⟩
  have hpoll := System.Reachable.step (S := Console.runs true [0x80])
    (.of_init ⟨false, none, none, hs⟩) (.poll true (by cases hs; decide))
  cases hs
  exact absurd ((h _ hpoll).pending (by decide)) (by decide)

end Machine
end Nachos
