import Mathlib.Data.List.Induction
import Nachos.Machine.Console

/-!
# From one console to another

What `TX` writes at one console, in either locale, `RX` returns at another one.
-/

namespace Nachos
namespace Machine

open Lib Mailbox

/-- `TX` has been called for the characters in the list, one after the other, at the
console that was `w`. -/
inductive Console.Wrote (utf8 : Bool) (w : Console) : List Int → Console → Prop
  | start : Wrote utf8 w [] w
  | tx {cs s s' ch} (h : Wrote utf8 w cs s) (htx : s.tx utf8 ch = some s') :
      Wrote utf8 w (cs ++ [ch]) s'
  | writeDone {cs s} (h : Wrote utf8 w cs s) (hpending : 0 < s.writeDones) :
      Wrote utf8 w cs s.writeDone
  | poll {cs s} (h : Wrote utf8 w cs s) (avail : Bool) (hpending : 0 < s.readPolls) :
      Wrote utf8 w cs (s.poll utf8 avail)
  | rx {cs s s' ch} (h : Wrote utf8 w cs s) (hrx : s.rx = some (ch, s')) : Wrote utf8 w cs s'

/-- A console, and what `RX` has returned. -/
structure Receiver where
  console : Console
  received : List Int

namespace Receiver

/-- The console is polled, and `RX` is called once for a call of `readAvailHandler`. -/
inductive Step (utf8 : Bool) : Receiver → Receiver → Prop
  | poll {r} (avail : Bool) (hpending : 0 < r.console.readPolls) :
      Step utf8 r ⟨r.console.poll utf8 avail, r.received⟩
  | rx {r console ch} (hcalled : r.received.length < r.console.readHandled)
      (hrx : r.console.rx = some (ch, console)) : Step utf8 r ⟨console, r.received ++ [ch]⟩

/-- The runs of a console that reads `input`. -/
def runs (utf8 : Bool) (input : List UInt8) : System Receiver where
  init r := Console.New input r.console ∧ r.received = []
  step := Step utf8

/-- Character `n` of those that were written as `cs`. -/
abbrev sent (cs : List Int) (n : Nat) : Int := expected (· % 256) eof cs n

/-- `RX` returns what was sent, in order, then `EOF`; it may be called as often as the handler
was, and a character waits until it is taken. -/
structure Exact (utf8 : Bool) (cs : List Int) (r : Receiver) : Prop where
  received : r.received = (List.range r.received.length).map (sent cs)
  handled : r.console.readHandled =
    r.received.length + if r.console.incoming = noChar then 0 else 1
  rx : r.received.length < r.console.readHandled →
    ∃ console, r.console.rx = some (sent cs r.received.length, console)
  waits : r.console.incoming ≠ noChar → ∀ avail, r.console.poll utf8 avail = r.console
  arrives : r.console.readPolls = 1 ∧ (r.console.incoming = noChar →
    (r.console.poll utf8 true).incoming = sent cs r.received.length)

end Receiver

variable {utf8 : Bool} {input rest : List UInt8} {w s s' : Console} {cs : List Int} {c : Int}
  {r r' : Receiver}

/-! ## One character -/

/-- A character that is not ASCII in two bytes, and back. -/
theorem pair_spec (b : UInt8) (hb : ¬ b ≤ 0x7f) :
    let c := UInt8.ofNat ((b.toNat &&& 0xc0) >>> 6 ||| 0xc0)
    let d := UInt8.ofNat (b.toNat &&& 0x3f ||| 0x80)
    (0xc0 ≤ c ∧ c ≤ 0xc3) ∧ (0x80 ≤ d ∧ d ≤ 0xbf) ∧
      (c &&& 0x03).toNat <<< 6 ||| d.toNat = b.toNat := by
  revert hb
  obtain ⟨b⟩ := b
  revert b
  decide

theorem nextValue_txBytes (b : UInt8) :
    nextValue utf8 (txBytes utf8 b.toNat ++ rest) = some ((b.toNat : Int), rest) := by
  have hlt : b.toNat < 256 := b.toNat_lt
  have hascii : b ≤ 0x7f ↔ b.toNat ≤ 0x7f := UInt8.le_iff_toNat_le
  unfold txBytes
  by_cases hone : (b.toNat : Int) < 0x80 ∨ utf8 = false
  · rw [if_pos hone, Int.emod_eq_of_lt (by omega) (by omega), Int.toNat_natCast,
      UInt8.ofNat_toNat]
    rcases hone with hsmall | rfl
    · exact nextValue_ascii (hascii.mpr (by omega))
    · rfl
  · obtain ⟨hlarge, hutf8⟩ := not_or.mp hone
    obtain rfl : utf8 = true := eq_true_of_ne_false hutf8
    obtain ⟨hc, hd, hvalue⟩ := pair_spec b (mt hascii.mp (by omega))
    rw [if_neg hone, if_pos (by omega)]
    refine (nextValue_pair hc.1 hc.2 hd.1 hd.2).trans ?_
    rw [hvalue]
    rfl

/-! ## Writing -/

theorem Console.Wrote.output (h : Wrote utf8 w cs s) :
    s.output = w.output ++ cs.flatMap fun c => txBytes utf8 (compensate c) := by
  induction h with
  | start => exact (List.append_nil _).symm
  | tx h htx ih =>
    obtain ⟨-, rfl⟩ := Console.tx_some htx
    rw [List.flatMap_append, ← List.append_assoc, ← ih, List.flatMap_singleton]
  | writeDone h hpending ih => exact ih
  | poll h avail hpending ih => rw [Console.poll_output, ih]
  | rx h hrx ih =>
    obtain ⟨-, -, rfl⟩ := Console.rx_some hrx
    exact ih

/-- `TX` does what it is called for, whatever the characters. -/
theorem Console.wrote_all (hw : w.putBusy = false) (utf8 : Bool) (cs : List Int) :
    ∃ s, Wrote utf8 w cs s ∧ s.putBusy = false := by
  induction cs using List.reverseRecOn with
  | nil => exact ⟨w, .start, hw⟩
  | append_singleton cs c ih =>
    obtain ⟨s, h, hs⟩ := ih
    exact ⟨_, (h.tx (Console.tx_eq hs c)).writeDone (Nat.succ_pos _), rfl⟩

/-! ## Reading -/

theorem decodes (hcs : ∀ c ∈ cs, -128 ≤ c ∧ c < 256) (utf8 : Bool) :
    Decodes (nextValue utf8) (fun c => txBytes utf8 (compensate c)) (· % 256) eof cs := by
  refine ⟨nextValue_nil, fun c hc rest => ?_⟩
  obtain ⟨hlow, hhigh⟩ := hcs c hc
  have hbyte : ((UInt8.ofNat (c % 256).toNat).toNat : Int) = c % 256 := by
    rw [UInt8.toNat_ofNat']
    omega
  rw [compensate_eq hlow hhigh, ← hbyte]
  exact nextValue_txBytes _

namespace Receiver

variable {code : Int → List UInt8}

/-- The receiver is the reader of a mailbox. -/
theorem mailbox (hcode : Decodes (nextValue utf8) code (· % 256) eof cs)
    (hr : (runs utf8 (cs.flatMap code)).Reachable r) :
    (system (nextValue utf8) (cs.flatMap code)).Reachable (r.console.mailbox r.received) := by
  refine hr.simulate (fun r => r.console.mailbox r.received) ?_ ?_
  · rintro r ⟨hnew, hreceived⟩
    obtain ⟨-, -, hempty, hin, -⟩ := hnew.fields
    show r.console.mailbox r.received = ⟨_, none, []⟩
    rw [Console.mailbox, if_pos hempty, hin, hreceived]
  · intro r r' hm hstep
    cases hstep with
    | poll avail hpending =>
      exact Console.poll_mailbox hpending (hcode.next_ne_none hm) avail r.received
    | rx hcalled hrx => exact .inr (Console.rx_mailbox hrx r.received)

/-- The console is open and polled, and the handler has been called for each value. -/
def Steady (r : Receiver) : Prop :=
  0 ≤ r.console.readFileNo ∧ r.console.readPolls = 1 ∧
    r.console.readHandled = r.received.length + if r.console.incoming = noChar then 0 else 1

theorem Steady.poll (h : Steady r) (hnext : nextValue utf8 r.console.input ≠ none)
    (avail : Bool) : Steady ⟨r.console.poll utf8 avail, r.received⟩ := by
  obtain ⟨hopen, hone, hhandled⟩ := h
  have hnot : r.console.readFileNo ≠ -1 := by omega
  rcases Console.poll_cases hnot (by omega) hnext avail with
    hpoll | ⟨hempty, ch, rest, n, hnext, hpoll⟩
  · rw [hpoll]
    exact ⟨hopen, hone, hhandled⟩
  · rw [if_pos hempty] at hhandled
    rw [hpoll]
    refine ⟨hopen, hone, ?_⟩
    rw [if_neg (nextValue_ne_noChar hnext), hhandled]

theorem Steady.rx (h : Steady r) {ch : Int} (hrx : r.console.rx = some (ch, s)) :
    Steady ⟨s, r.received ++ [ch]⟩ := by
  obtain ⟨hopen, hone, hhandled⟩ := h
  obtain ⟨hthere, -, rfl⟩ := Console.rx_some hrx
  rw [if_neg hthere] at hhandled
  refine ⟨hopen, hone, ?_⟩
  rw [if_pos rfl, List.length_append, List.length_singleton]
  exact hhandled

theorem Steady.reachable (hcode : Decodes (nextValue utf8) code (· % 256) eof cs)
    (hr : (runs utf8 (cs.flatMap code)).Reachable r) : Steady r := by
  refine System.InductiveUnder.reachable
    (J := fun r => nextValue utf8 r.console.input ≠ none) ⟨?_, ?_⟩
    (fun r hr => hcode.next_ne_none (mailbox hcode hr)) hr
  · rintro r ⟨hnew, hreceived⟩
    obtain ⟨hopen, hone, hempty, -, -, -, hhandled⟩ := hnew.fields
    refine ⟨hopen, hone, ?_⟩
    rw [hhandled, hreceived, if_pos hempty, List.length_nil]
  · intro r r' hnext h hstep
    cases hstep with
    | poll avail hpending => exact h.poll hnext avail
    | rx hcalled hrx => exact h.rx hrx

theorem exact_of_reachable (hcode : Decodes (nextValue utf8) code (· % 256) eof cs)
    (hr : (runs utf8 (cs.flatMap code)).Reachable r) : Exact utf8 cs r := by
  obtain ⟨hopen, hone, hhandled⟩ := Steady.reachable hcode hr
  obtain ⟨hreceived, hplace, hsource⟩ := hcode.inOrder (mailbox hcode hr)
  have hnot : r.console.readFileNo ≠ -1 := by omega
  refine ⟨hreceived, hhandled, fun hcalled => ?_, fun hthere avail => ?_, hone, fun hempty => ?_⟩
  · have hthere : r.console.incoming ≠ noChar := fun hempty => by
      rw [if_pos hempty] at hhandled
      omega
    have hnext : r.console.incoming = sent cs r.received.length := hplace _ (if_neg hthere)
    rw [← hnext]
    exact ⟨_, Console.rx_eq hthere⟩
  · exact Console.poll_idle hnot (by omega) (.inl hthere)
  · obtain ⟨rest, hnext⟩ := hsource (if_pos hempty)
    obtain ⟨n, hpoll⟩ := Console.poll_reads hnot (by omega) hempty hnext
    rw [hpoll]
    rfl

end Receiver

/-- Characters come through from one console to another: every list of them can be written, and
another console that reads the bytes that were written hands over the same characters. -/
theorem transfer_exact (utf8 : Bool) (hcs : ∀ c ∈ cs, -128 ≤ c ∧ c < 256)
    (hw : Console.New input w) :
    (∃ s, Console.Wrote utf8 w cs s) ∧ ∀ s, Console.Wrote utf8 w cs s →
      ∀ r, (Receiver.runs utf8 s.output).Reachable r → Receiver.Exact utf8 cs r := by
  obtain ⟨-, -, -, -, hbusy, hout, -⟩ := hw.fields
  refine ⟨?_, fun s hwrote r hr => ?_⟩
  · obtain ⟨s, hwrote, -⟩ := Console.wrote_all hbusy utf8 cs
    exact ⟨s, hwrote⟩
  · rw [hwrote.output, hout, List.nil_append] at hr
    exact Receiver.exact_of_reachable (decodes hcs utf8) hr

/-- An `A` and a signed `char` for `é`, in UTF-8. -/
theorem transfer_exact_two :
    ∃ w, Console.New [] w ∧ (∃ s, Console.Wrote true w [65, -23] s) ∧
      ∀ s, Console.Wrote true w [65, -23] s →
        ∀ r, (Receiver.runs true s.output).Reachable r → Receiver.Exact true [65, -23] r := by
  obtain ⟨w, hw⟩ : ∃ w, Console.New [] w := ⟨_, false, none, none, rfl⟩
  exact ⟨w, hw, transfer_exact true (by decide) hw⟩

end Machine
end Nachos
