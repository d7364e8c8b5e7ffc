import Nachos.Machine.Console

/-!
# The test of the console

`ConsoleTest` echoes the characters that arrive until it has echoed a `q`.
-/

namespace Nachos
namespace UserProg

open Lib Mailbox Machine

/-- Where `ConsoleTest` is, and `ch`. -/
inductive ConsoleTest.Point
  | readAvailP
  | rx
  | tx (ch : Int)
  | writeDoneP (ch : Int)
  | test (ch : Int)
  | deleting
  | returned

/-- The console, the values of the two semaphores, and where the thread is. -/
structure ConsoleTest where
  console : Console
  readAvail : Nat
  writeDone : Nat
  point : ConsoleTest.Point

/-- An `int` in a variable of type `char`, which may be signed. -/
def toChar (charSigned : Bool) (v : Int) : Int := if charSigned then v.bmod 256 else v % 256

/-- `'q'` -/
abbrev q : UInt8 := 0x71

namespace ConsoleTest

/-- What the thread does next; it waits where there is nothing. -/
def step (charSigned : Bool) (s : ConsoleTest) : Option ConsoleTest :=
  match s.point with
  | .readAvailP =>
    if 0 < s.readAvail then some { s with readAvail := s.readAvail - 1, point := .rx } else none
  | .rx => do
    let (v, console) ← s.console.rx
    return { s with console, point := .tx (toChar charSigned v) }
  | .tx ch => do
    let console ← s.console.tx false ch
    return { s with console, point := .writeDoneP ch }
  | .writeDoneP ch =>
    if 0 < s.writeDone then some { s with writeDone := s.writeDone - 1, point := .test ch }
    else none
  | .test ch =>
    if ch = q.toNat then some { s with console := s.console.destroy, point := .deleting }
    else some { s with point := .readAvailP }
  | .deleting =>
    if s.console.readFileNo = -2 ∧ s.console.putBusy = false then some { s with point := .returned }
    else none
  | .returned => none

/-- The interrupt handlers do a `V` each time they are called. -/
def interrupt (s : ConsoleTest) (console : Console) : ConsoleTest :=
  { s with
    console
    readAvail := s.readAvail + (console.readHandled - s.console.readHandled)
    writeDone := s.writeDone + (console.writeHandled - s.console.writeHandled) }

/-- The steps in an 8-bit locale: interrupts may come anywhere. -/
inductive Step (charSigned : Bool) : ConsoleTest → ConsoleTest → Prop
  | thread {s s'} (h : s.step charSigned = some s') : Step charSigned s s'
  | poll {s} (avail : Bool) (hpending : 0 < s.console.readPolls) :
      Step charSigned s (s.interrupt (s.console.poll false avail))
  | writeDone {s} (hpending : 0 < s.console.writeDones) :
      Step charSigned s (s.interrupt s.console.writeDone)

/-- The runs of the test when the input file holds `input`. -/
def runs (charSigned : Bool) (input : List UInt8) : System ConsoleTest where
  init s := ∃ console, Console.New input console ∧ s = ⟨console, 0, 0, .readAvailP⟩
  step := Step charSigned

/-- What was written so far is the beginning of the input, and without a `q` there is nothing
after its end. -/
def Echoes (input : List UInt8) (s : ConsoleTest) : Prop :=
  s.console.output <+: input ∧ (q ∉ input → s.console.output.length ≤ input.length)

end ConsoleTest

variable {charSigned : Bool} {input rest output : List UInt8} {v ch : Int} {taken : List Int}
  {s s' : ConsoleTest} {point : ConsoleTest.Point}

/-! ## Values as bytes -/

/-- The byte that is written for a value of `RX`. -/
def byteOf (v : Int) : UInt8 := UInt8.ofNat (v % 256).toNat

theorem toChar_emod (charSigned : Bool) (v : Int) : toChar charSigned v % 256 = v % 256 := by
  cases charSigned with
  | false => exact Int.emod_emod_of_dvd v (Int.dvd_refl 256)
  | true => exact Int.bmod_emod

theorem toChar_range (charSigned : Bool) (v : Int) :
    -128 ≤ toChar charSigned v ∧ toChar charSigned v < 256 := by
  cases charSigned with
  | false =>
    show -128 ≤ v % 256 ∧ v % 256 < 256
    omega
  | true =>
    have hlow := Int.le_bmod (x := v) (m := 256) (by decide)
    have hhigh := Int.bmod_lt (x := v) (m := 256) (by decide)
    show -128 ≤ v.bmod 256 ∧ v.bmod 256 < 256
    omega

/-- Signed or not, `TX` writes the low byte. -/
theorem txBytes_toChar (charSigned : Bool) (v : Int) :
    txBytes false (compensate (toChar charSigned v)) = [byteOf v] := by
  obtain ⟨hlow, hhigh⟩ := toChar_range charSigned v
  rw [compensate_eq hlow hhigh, toChar_emod, txBytes, if_pos (.inr rfl),
    Int.emod_emod_of_dvd v (Int.dvd_refl 256)]
  rfl

theorem toChar_eq_q (h : toChar charSigned v = q.toNat) : v % 256 = q.toNat := by
  rw [← toChar_emod charSigned v, h]
  rfl

theorem toChar_q (charSigned : Bool) : toChar charSigned q.toNat = q.toNat := by
  cases charSigned <;> decide

theorem decodes_bytes (input : List UInt8) :
    Decodes (nextValue false) (fun b : UInt8 => [b]) (fun b => (b.toNat : Int)) eof input :=
  ⟨nextValue_nil, fun b _ _ => nextValue_bytes b⟩

theorem nextValue_false_ne_none (input : List UInt8) : nextValue false input ≠ none := by
  cases input <;> exact Option.some_ne_none _

namespace ConsoleTest

/-! ## The input, value by value -/

/-- Value `n` of the input, then `EOF`. -/
abbrev typed (input : List UInt8) (n : Nat) : Int :=
  expected (fun b : UInt8 => (b.toNat : Int)) eof input n

theorem typed_get {n : Nat} (h : n < input.length) : typed input n = input[n].toNat :=
  expected_get h

theorem byteOf_toNat (b : UInt8) : byteOf b.toNat = b := by
  have hlt : b.toNat < 256 := b.toNat_lt
  rw [byteOf, Int.emod_eq_of_lt (by omega) (by omega), Int.toNat_natCast, UInt8.ofNat_toNat]

/-- Up to the end of the input, the values are its bytes. -/
theorem map_byteOf_typed {n : Nat} (h : n ≤ input.length) :
    ((List.range n).map (typed input)).map byteOf = input.take n := by
  induction n with
  | zero => rfl
  | succ n ih =>
    have hlt : n < input.length := h
    rw [List.range_succ, List.map_append, List.map_append, ih (Nat.le_of_lt hlt),
      List.take_succ_eq_append_getElem hlt]
    refine congrArg (input.take n ++ [·]) ?_
    rw [typed_get hlt, byteOf_toNat]

theorem taken_eq {s : Console} (h : (system (nextValue false) input).Reachable (s.mailbox taken)) :
    taken = (List.range taken.length).map (typed input) :=
  ((decodes_bytes input).inOrder ((List.flatMap_singleton' input).symm ▸ h)).1

/-! ## Up to a `q` -/

/-- What was written when `RX` has returned `taken`, without a `q` but for the last. -/
def Written (charSigned : Bool) (taken : List Int) (output : List UInt8) : Point → Prop
  | .readAvailP | .rx => (q.toNat : Int) ∉ taken ∧ output = taken.map byteOf
  | .tx ch => ∃ before v, taken = before ++ [v] ∧ (q.toNat : Int) ∉ before ∧
      ch = toChar charSigned v ∧ output = before.map byteOf
  | .writeDoneP ch | .test ch => ∃ before v, taken = before ++ [v] ∧ (q.toNat : Int) ∉ before ∧
      ch = toChar charSigned v ∧ output = taken.map byteOf
  | .deleting | .returned => ∃ before v, taken = before ++ [v] ∧ (q.toNat : Int) ∉ before ∧
      output = taken.map byteOf

/-- The values come from the input, and are written. -/
def Echoing (charSigned : Bool) (input : List UInt8) (s : ConsoleTest) : Prop :=
  ∃ taken, (system (nextValue false) input).Reachable (s.console.mailbox taken) ∧
    Written charSigned taken s.console.output s.point

/-- The bytes written are the first of what was taken, and only the last may be a `q`. -/
theorem Written.prefix (h : Written charSigned taken output point) :
    ∃ written, written <+: taken ∧ output = written.map byteOf ∧
      (q.toNat : Int) ∉ written.dropLast := by
  cases point with
  | readAvailP | rx =>
    obtain ⟨hq, hout⟩ := h
    exact ⟨taken, List.prefix_rfl, hout, fun hmem => hq (List.dropLast_subset _ hmem)⟩
  | tx ch =>
    obtain ⟨before, v, rfl, hq, -, hout⟩ := h
    exact ⟨before, List.prefix_append _ _, hout, fun hmem => hq (List.dropLast_subset _ hmem)⟩
  | writeDoneP ch | test ch =>
    obtain ⟨before, v, rfl, hq, -, hout⟩ := h
    exact ⟨before ++ [v], List.prefix_rfl, hout, by rwa [List.dropLast_concat]⟩
  | deleting | returned =>
    obtain ⟨before, v, rfl, hq, hout⟩ := h
    exact ⟨before ++ [v], List.prefix_rfl, hout, by rwa [List.dropLast_concat]⟩

/-- The thread goes on as it should. -/
theorem Echoing.thread (h : Echoing charSigned input s) (hstep : s.step charSigned = some s') :
    Echoing charSigned input s' := by
  obtain ⟨taken, hmailbox, hwritten⟩ := h
  obtain ⟨console, readAvail, writeDone, point⟩ := s
  cases point with
  | readAvailP =>
    obtain ⟨-, heq⟩ := Option.ite_none_right_eq_some.mp hstep
    cases heq
    exact ⟨taken, hmailbox, hwritten⟩
  | rx =>
    obtain ⟨⟨v, console'⟩, hrx, heq⟩ := Option.bind_eq_some_iff.mp hstep
    cases heq
    obtain ⟨hq, hout⟩ := hwritten
    refine ⟨taken ++ [v], hmailbox.step (Console.rx_mailbox hrx taken), taken, v, rfl, hq, rfl, ?_⟩
    obtain ⟨-, -, rfl⟩ := Console.rx_some hrx
    exact hout
  | tx ch =>
    obtain ⟨console', htx, heq⟩ := Option.bind_eq_some_iff.mp hstep
    cases heq
    obtain ⟨before, v, rfl, hq, rfl, hout⟩ := hwritten
    obtain ⟨-, rfl⟩ := Console.tx_some htx
    refine ⟨before ++ [v], hmailbox, before, v, rfl, hq, rfl, ?_⟩
    rw [txBytes_toChar, List.map_append]
    exact congrArg (· ++ [byteOf v]) hout
  | writeDoneP ch =>
    obtain ⟨-, heq⟩ := Option.ite_none_right_eq_some.mp hstep
    cases heq
    exact ⟨taken, hmailbox, hwritten⟩
  | test ch =>
    obtain ⟨before, v, rfl, hq, rfl, hout⟩ := hwritten
    unfold step at hstep
    dsimp only at hstep
    by_cases hlast : toChar charSigned v = q.toNat
    · rw [if_pos hlast] at hstep
      cases hstep
      exact ⟨before ++ [v], hmailbox, before, v, rfl, hq, hout⟩
    · rw [if_neg hlast] at hstep
      cases hstep
      refine ⟨before ++ [v], hmailbox, fun hmem => ?_, hout⟩
      rcases List.mem_append.mp hmem with hmem | hmem
      · exact hq hmem
      · rw [← List.mem_singleton.mp hmem] at hlast
        exact hlast (toChar_q charSigned)
  | deleting =>
    obtain ⟨-, heq⟩ := Option.ite_none_right_eq_some.mp hstep
    cases heq
    exact ⟨taken, hmailbox, hwritten⟩
  | returned => cases hstep

theorem Echoing.reachable (hs : (runs charSigned input).Reachable s) :
    Echoing charSigned input s := by
  refine hs.induct (I := Echoing charSigned input) ?_ fun s s' h hstep => ?_
  · rintro s ⟨console, hnew, rfl⟩
    obtain ⟨-, -, hempty, hin, -, hout, -⟩ := hnew.fields
    refine ⟨[], .of_init ?_, List.not_mem_nil, hout⟩
    show console.mailbox [] = ⟨input, none, []⟩
    rw [Console.mailbox, if_pos hempty, hin]
  · cases hstep with
    | thread hstep => exact h.thread hstep
    | poll avail hpending =>
      obtain ⟨taken, hmailbox, hwritten⟩ := h
      refine ⟨taken, ?_, (Console.poll_output s.console avail).symm ▸ hwritten⟩
      rcases Console.poll_mailbox hpending (nextValue_false_ne_none _) avail taken with heq | hfill
      · exact heq.symm ▸ hmailbox
      · exact hmailbox.step hfill
    | writeDone hpending => exact h

/-- Where there is a `q`, it is echoed before the input ends. -/
theorem Echoing.isPrefix (h : Echoing charSigned input s) (hq : q ∈ input) :
    s.console.output <+: input := by
  obtain ⟨taken, hmailbox, hwritten⟩ := h
  obtain ⟨written, hprefix, hout, hbefore⟩ := hwritten.prefix
  obtain ⟨k, hk, hget⟩ := List.getElem_of_mem hq
  have htyped := List.prefix_iff_eq_take.mp hprefix
  rw [taken_eq hmailbox, ← List.map_take, List.take_range] at htyped
  generalize min written.length taken.length = n at htyped
  have hshort : n ≤ k + 1 := by
    by_contra hlong
    obtain ⟨m, rfl⟩ : ∃ m, n = m + 1 := ⟨n - 1, by omega⟩
    rw [htyped, List.range_succ, List.map_append, List.map_singleton,
      List.dropLast_concat] at hbefore
    refine hbefore (List.mem_map.mpr ⟨k, List.mem_range.mpr (by omega), ?_⟩)
    rw [typed_get hk, hget]
  rw [hout, htyped, map_byteOf_typed (by omega)]
  exact List.take_prefix n input

/-! ## Without a `q` -/

/-- The thread waits for the next character, and nothing is under way. -/
structure Waiting (s : ConsoleTest) : Prop where
  point : s.point = .readAvailP
  readAvail : s.readAvail = 0
  writeDone : s.writeDone = 0
  isOpen : 0 ≤ s.console.readFileNo
  pending : 0 < s.console.readPolls
  empty : s.console.incoming = noChar
  idle : s.console.putBusy = false

/-- Once around the loop, when a character has arrived. -/
theorem around {c : Console} (hs : (runs charSigned input).Reachable ⟨c, 1, 0, .readAvailP⟩)
    (hthere : c.incoming ≠ noChar) (hidle : c.putBusy = false)
    (hnot : toChar charSigned c.incoming ≠ q.toNat) :
    ∃ n, (runs charSigned input).Reachable
      ⟨{ c with
          incoming := noChar
          output := c.output ++ [byteOf c.incoming]
          putBusy := false
          writeDones := c.writeDones + 1 - 1
          writeHandled := c.writeHandled + 1
          numConsoleCharsWritten := n }, 0, 0, .readAvailP⟩ := by
  have hp := hs.step (Step.thread (show step charSigned _ = some ⟨c, 0, 0, .rx⟩ from rfl))
  have hrx := hp.step (Step.thread (Option.bind_eq_some_iff.mpr ⟨_, Console.rx_eq hthere, rfl⟩))
  have htx := hrx.step (Step.thread (Option.bind_eq_some_iff.mpr
    ⟨_, Console.tx_eq (s := { c with incoming := noChar }) hidle _, rfl⟩))
  have hdone := htx.step (Step.writeDone (Nat.succ_pos _))
  unfold interrupt Console.writeDone at hdone
  dsimp only at hdone
  rw [Nat.sub_self, Nat.add_sub_cancel_left, txBytes_toChar] at hdone
  have hwritten := hdone.step (Step.thread rfl)
  exact ⟨_, hwritten.step (Step.thread (if_neg hnot))⟩

/-- What is read next is echoed, whether it is a character or `EOF`. -/
theorem Waiting.echo (h : Waiting s) (hs : (runs charSigned input).Reachable s)
    (hnext : nextValue false s.console.input = some (v, rest))
    (hnot : toChar charSigned v ≠ q.toNat) :
    ∃ s', (runs charSigned input).Reachable s' ∧ Waiting s' ∧ s'.console.input = rest ∧
      s'.console.output = s.console.output ++ [byteOf v] := by
  obtain ⟨console, readAvail, writeDone, point⟩ := s
  obtain ⟨rfl, rfl, rfl, hopen, hpending, hempty, hidle⟩ := h
  dsimp only at hopen hpending hempty hidle hnext
  obtain ⟨n, hpoll⟩ := Console.poll_reads (by omega) hpending hempty hnext
  have hpolled := hs.step (Step.poll true hpending)
  rw [hpoll] at hpolled
  unfold interrupt at hpolled
  rw [Nat.add_sub_cancel_left, Nat.sub_self] at hpolled
  obtain ⟨m, hs'⟩ := around hpolled (nextValue_ne_noChar hnext) hidle hnot
  exact ⟨_, hs', ⟨rfl, rfl, rfl, hopen, hpending, rfl, rfl⟩, rfl, rfl⟩

/-- All the input is echoed, when it holds no `q`. -/
theorem Waiting.echo_all {l : List UInt8} (h : Waiting s)
    (hs : (runs charSigned input).Reachable s) (hl : s.console.input = l) (hq : q ∉ l) :
    ∃ s', (runs charSigned input).Reachable s' ∧ Waiting s' ∧ s'.console.input = [] ∧
      s'.console.output = s.console.output ++ l := by
  induction l generalizing s with
  | nil => exact ⟨s, hs, h, hl, (List.append_nil _).symm⟩
  | cons b l ih =>
    have hlt : b.toNat < 256 := b.toNat_lt
    have hnot : toChar charSigned b.toNat ≠ q.toNat := fun heq => by
      have hmod := toChar_eq_q heq
      rw [Int.emod_eq_of_lt (by omega) (by omega)] at hmod
      exact hq (UInt8.toNat_inj.mp (Int.ofNat_inj.mp hmod) ▸ List.mem_cons_self)
    obtain ⟨s₁, hs₁, h₁, hin, hout⟩ := h.echo hs (hl ▸ nextValue_bytes b) hnot
    obtain ⟨s', hs', h', hin', hout'⟩ := ih h₁ hs₁ hin fun hmem => hq (List.mem_cons_of_mem b hmem)
    refine ⟨s', hs', h', hin', ?_⟩
    rw [hout', hout, byteOf_toNat, List.append_assoc]
    rfl

/-- At the end of an input without `q`, one byte more is written. -/
theorem writes_past_end (charSigned : Bool) (hq : q ∉ input) :
    ∃ s, (runs charSigned input).Reachable s ∧ s.console.output = input ++ [0xff] := by
  obtain ⟨console, hnew⟩ : ∃ console, Console.New input console := ⟨_, false, none, none, rfl⟩
  obtain ⟨hopen, hone, hempty, hin, hidle, hout, -⟩ := hnew.fields
  have hwaiting : Waiting ⟨console, 0, 0, .readAvailP⟩ :=
    ⟨rfl, rfl, rfl, hopen, hone.symm ▸ Nat.one_pos, hempty, hidle⟩
  have hs : (runs charSigned input).Reachable ⟨console, 0, 0, .readAvailP⟩ :=
    .of_init ⟨console, hnew, rfl⟩
  obtain ⟨s₁, hs₁, h₁, hin₁, hout₁⟩ := hwaiting.echo_all hs hin hq
  obtain ⟨s₂, hs₂, -, -, hout₂⟩ :=
    h₁.echo hs₁ (hin₁ ▸ nextValue_nil) fun heq => absurd (toChar_eq_q heq) (by decide)
  refine ⟨s₂, hs₂, ?_⟩
  rw [hout₂, hout₁, hout]
  rfl

end ConsoleTest

/-- The test only echoes, if and only if the input holds a `q`. -/
theorem consoleTest_exact (charSigned : Bool) (input : List UInt8) :
    (∀ s, (ConsoleTest.runs charSigned input).Reachable s → ConsoleTest.Echoes input s) ↔
      q ∈ input := by
  refine ⟨fun h => ?_, fun hq s hs => ?_⟩
  · by_contra hq
    obtain ⟨s, hs, hout⟩ := ConsoleTest.writes_past_end charSigned hq
    have hlength := (h s hs).2 hq
    rw [hout, List.length_append, List.length_singleton] at hlength
    omega
  · exact ⟨(ConsoleTest.Echoing.reachable hs).isPrefix hq, fun hnot => absurd hq hnot⟩

/-- From an empty input a byte `0xff` is echoed. -/
theorem consoleTest_echoes_eof :
    ¬ ∀ s, (ConsoleTest.runs true []).Reachable s → ConsoleTest.Echoes [] s := by
  intro h
  obtain ⟨s, hs, hout⟩ := ConsoleTest.writes_past_end true (List.not_mem_nil (a := q))
  have hprefix := (h s hs).1
  rw [hout] at hprefix
  exact absurd hprefix (by decide)

end UserProg
end Nachos
