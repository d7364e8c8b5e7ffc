import Nachos.Lib.Mailbox

/-!
# The console

A console reads bytes from one UNIX file and writes bytes to another.  Interrupts tell
when a character has arrived, and when one has been put out.
-/

namespace Nachos
namespace Machine

open Lib

abbrev eof : Int := -1
abbrev noChar : Int := -42

/-- A `Console`, with what remains of the file it reads, what it wrote, its pending
interrupts, the calls of its handlers, and its part of the statistics. -/
structure Console where
  readFileNo : Int
  writeFileNo : Int
  putBusy : Bool
  incoming : Int
  stdinBusy : Bool
  input : List UInt8
  output : List UInt8
  readPolls : Nat
  writeDones : Nat
  readHandled : Nat
  writeHandled : Nat
  numConsoleCharsRead : Nat
  numConsoleCharsWritten : Nat

/-- What a poll finds: the end of the file, a character, or bytes it returns at, before
the next poll is scheduled. -/
inductive Arrival
  | eof
  | char (c : Nat)
  | dropped

/-- The reading in `Console::CheckCharAvail`; `utf8` is the locale. -/
def readChar (utf8 : Bool) : List UInt8 → Arrival × List UInt8
  | [] => (.eof, [])
  | c :: rest =>
    if utf8 = false then (.char c.toNat, rest)
    else if c &&& 0x80 = 0 then (.char c.toNat, rest)
    else if c &&& 0xe0 ≠ 0xc0 then (.dropped, rest)
    else if c &&& 0x1c ≠ 0 then (.dropped, rest)
    else match rest with
      | [] => (.eof, [])
      | d :: rest =>
        if d &&& 0xc0 ≠ 0x80 then (.dropped, rest)
        else (.char ((c &&& 0x03).toNat <<< 6 ||| d.toNat), rest)

/-- `Console::TX` may be given a latin1 character as a signed `char`. -/
def compensate (ch : Int) : Int := if ch < 0 ∧ -128 ≤ ch then ch + 256 else ch

/-- The bytes that `Console::TX` writes. -/
def txBytes (utf8 : Bool) (ch : Int) : List UInt8 :=
  if ch < 0x80 ∨ utf8 = false then [UInt8.ofNat (ch % 256).toNat]
  else if ch < 0x100 then
    [UInt8.ofNat ((ch.toNat &&& 0xc0) >>> 6 ||| 0xc0), UInt8.ofNat (ch.toNat &&& 0x3f ||| 0x80)]
  else []

namespace Console

/-- `Console::Console`; no file means `stdin` or `stdout`, which are 0 and 1. -/
def construct (stdinBusy : Bool) (readFile writeFile : Option Nat) (input : List UInt8) :
    Option Console :=
  if readFile = none ∧ stdinBusy = true then none
  else some {
    readFileNo := readFile.getD 0
    writeFileNo := writeFile.getD 1
    putBusy := false
    incoming := noChar
    stdinBusy := readFile = none ∨ stdinBusy = true
    input
    output := []
    readPolls := 1
    writeDones := 0
    readHandled := 0
    writeHandled := 0
    numConsoleCharsRead := 0
    numConsoleCharsWritten := 0 }

/-- The beginning of `Console::~Console`, which then waits until `readFileNo` is -2 and
`putBusy` is false. -/
def destroy (s : Console) : Console :=
  { s with
    stdinBusy := if s.readFileNo ≠ 0 then s.stdinBusy else false
    readFileNo := -1
    writeFileNo := -1 }

/-- `Console::CheckCharAvail`, when `PollFile` returns `avail`. -/
def checkCharAvail (utf8 avail : Bool) (s : Console) : Console :=
  if s.readFileNo = -1 then { s with readFileNo := -2 }
  else if s.incoming ≠ noChar ∨ avail = false then { s with readPolls := s.readPolls + 1 }
  else match readChar utf8 s.input with
    | (.dropped, input) => { s with input }
    | (.eof, input) =>
      { s with
        input
        incoming := eof
        readHandled := s.readHandled + 1
        readPolls := s.readPolls + 1 }
    | (.char c, input) =>
      { s with
        input
        incoming := c
        readPolls := s.readPolls + 1
        numConsoleCharsRead := s.numConsoleCharsRead + 1
        readHandled := s.readHandled + 1 }

/-- A pending `ConsoleReadPoll` happens. -/
def poll (utf8 avail : Bool) (s : Console) : Console :=
  checkCharAvail utf8 avail { s with readPolls := s.readPolls - 1 }

/-- `Console::WriteDone`, which a pending `ConsoleWriteDone` calls. -/
def writeDone (s : Console) : Console :=
  { s with
    writeDones := s.writeDones - 1
    putBusy := false
    numConsoleCharsWritten := s.numConsoleCharsWritten + 1
    writeHandled := s.writeHandled + 1 }

/-- `Console::RX`, unless the assertion fails. -/
def rx (s : Console) : Option (Int × Console) :=
  if s.incoming = noChar then none else some (s.incoming, { s with incoming := noChar })

/-- `Console::TX`, unless the assertion fails. -/
def tx (utf8 : Bool) (s : Console) (ch : Int) : Option Console :=
  if s.putBusy = true then none
  else some { s with
    output := s.output ++ txBytes utf8 (compensate ch)
    putBusy := true
    writeDones := s.writeDones + 1 }

end Console

/-! ## What arrives -/

/-- The value that is read next and what remains, unless bytes are dropped. -/
def nextValue (utf8 : Bool) (input : List UInt8) : Option (Int × List UInt8) :=
  match readChar utf8 input with
  | (.dropped, _) => none
  | (.eof, rest) => some (eof, rest)
  | (.char c, rest) => some (c, rest)

variable {utf8 avail : Bool} {input rest : List UInt8} {s s' : Console} {ch : Int}
  {taken : List Int} {c d : UInt8}

theorem compensate_eq (hlow : -128 ≤ ch) (hhigh : ch < 256) : compensate ch = ch % 256 := by
  unfold compensate
  by_cases hneg : ch < 0
  · rw [if_pos ⟨hneg, hlow⟩]
    omega
  · rw [if_neg (not_and_of_not_left _ hneg), Int.emod_eq_of_lt (by omega) hhigh]

theorem ascii_iff (c : UInt8) : c &&& 0x80 = 0 ↔ c ≤ 0x7f := by
  obtain ⟨b⟩ := c
  revert b
  decide

theorem leads_iff (c : UInt8) : c &&& 0xe0 = 0xc0 ∧ c &&& 0x1c = 0 ↔ 0xc0 ≤ c ∧ c ≤ 0xc3 := by
  obtain ⟨b⟩ := c
  revert b
  decide

theorem follows_iff (d : UInt8) : d &&& 0xc0 = 0x80 ↔ 0x80 ≤ d ∧ d ≤ 0xbf := by
  obtain ⟨b⟩ := d
  revert b
  decide

theorem nextValue_ne_noChar (h : nextValue utf8 input = some (ch, rest)) : ch ≠ noChar := by
  unfold nextValue at h
  split at h
  · cases h
  · cases h
    decide
  · cases h
    show _ ≠ (-42 : Int)
    omega

theorem not_ascii (hlow : 0xc0 ≤ c) : ¬ c ≤ 0x7f :=
  fun h => absurd (UInt8.le_trans hlow h) (by decide)

theorem dropped_of_none (h : nextValue utf8 input = none) :
    ∃ rest, readChar utf8 input = (.dropped, rest) := by
  unfold nextValue at h
  split at h
  · exact ⟨_, ‹_›⟩
  · cases h
  · cases h

theorem nextValue_nil : nextValue utf8 [] = some (eof, []) := rfl

/-- In an 8-bit locale every byte is a character. -/
theorem nextValue_bytes (c : UInt8) : nextValue false (c :: rest) = some ((c.toNat : Int), rest) :=
  rfl

theorem nextValue_ascii (hc : c ≤ 0x7f) :
    nextValue utf8 (c :: rest) = some ((c.toNat : Int), rest) := by
  have hmask := (ascii_iff c).mpr hc
  cases utf8 with
  | false => rfl
  | true => simp [nextValue, readChar, hmask]

/-- What a first byte that is not ASCII leads to. -/
theorem readChar_leads (hc : ¬ c ≤ 0x7f) :
    readChar true (c :: rest) =
      if 0xc0 ≤ c ∧ c ≤ 0xc3 then
        match rest with
        | [] => (.eof, [])
        | d :: rest =>
          if 0x80 ≤ d ∧ d ≤ 0xbf then (.char ((c &&& 0x03).toNat <<< 6 ||| d.toNat), rest)
          else (.dropped, rest)
      else (.dropped, rest) := by
  have hmask := mt (ascii_iff c).mp hc
  simp only [← leads_iff, ← follows_iff]
  by_cases hlong : c &&& 0xe0 = 0xc0
  · by_cases hlatin : c &&& 0x1c = 0
    · simp only [readChar, hmask, hlong, hlatin, Bool.true_eq_false, if_false, if_true, ne_eq,
        not_true, and_self, ite_not]
    · simp [readChar, hmask, hlong, hlatin]
  · simp [readChar, hmask, hlong]

theorem nextValue_cut (hlow : 0xc0 ≤ c) (hhigh : c ≤ 0xc3) :
    nextValue true [c] = some (eof, []) := by
  rw [nextValue, readChar_leads (not_ascii hlow), if_pos ⟨hlow, hhigh⟩]

theorem nextValue_pair (hlow : 0xc0 ≤ c) (hhigh : c ≤ 0xc3) (hdlow : 0x80 ≤ d) (hdhigh : d ≤ 0xbf) :
    nextValue true (c :: d :: rest) =
      some ((((c &&& 0x03).toNat <<< 6 ||| d.toNat : Nat) : Int), rest) := by
  rw [nextValue, readChar_leads (not_ascii hlow), if_pos ⟨hlow, hhigh⟩]
  dsimp only
  rw [if_pos ⟨hdlow, hdhigh⟩]

namespace Console

/-- A console that has just been made to read `input`. -/
def New (input : List UInt8) (s : Console) : Prop :=
  ∃ stdinBusy readFile writeFile, construct stdinBusy readFile writeFile input = some s

theorem New.fields (h : New input s) :
    0 ≤ s.readFileNo ∧ s.readPolls = 1 ∧ s.incoming = noChar ∧ s.input = input ∧
      s.putBusy = false ∧ s.output = [] ∧ s.readHandled = 0 := by
  obtain ⟨stdinBusy, readFile, writeFile, h⟩ := h
  unfold construct at h
  split at h
  · cases h
  · cases h
    exact ⟨Int.natCast_nonneg (readFile.getD 0), rfl, rfl, rfl, rfl, rfl, rfl⟩

/-! ## One poll -/

theorem poll_closed (h : s.readFileNo = -1) (avail : Bool) :
    s.poll utf8 avail = { s with readFileNo := -2, readPolls := s.readPolls - 1 } := by
  unfold poll checkCharAvail
  rw [if_pos h]

/-- A poll that does not read comes again. -/
theorem poll_idle (h : s.readFileNo ≠ -1) (hpending : 0 < s.readPolls)
    (hidle : s.incoming ≠ noChar ∨ avail = false) : s.poll utf8 avail = s := by
  have hagain : s.readPolls - 1 + 1 = s.readPolls := Nat.sub_add_cancel hpending
  unfold poll checkCharAvail
  rw [if_neg h, if_pos hidle]
  show { s with readPolls := s.readPolls - 1 + 1 } = s
  rw [hagain]

/-- A poll that reads a value hands it over, and comes again. -/
theorem poll_reads (h : s.readFileNo ≠ -1) (hpending : 0 < s.readPolls)
    (hempty : s.incoming = noChar) (hnext : nextValue utf8 s.input = some (ch, rest)) :
    ∃ n, s.poll utf8 true =
      { s with
        input := rest
        incoming := ch
        readHandled := s.readHandled + 1
        numConsoleCharsRead := n } := by
  have hagain : s.readPolls - 1 + 1 = s.readPolls := Nat.sub_add_cancel hpending
  have hreads : ¬ (s.incoming ≠ noChar ∨ true = false) := by simp [hempty]
  unfold poll checkCharAvail
  rw [if_neg h, if_neg hreads]
  dsimp only
  unfold nextValue at hnext
  generalize readChar utf8 s.input = result at hnext ⊢
  obtain ⟨arrival, input⟩ := result
  cases arrival with
  | dropped => cases hnext
  | eof =>
    cases hnext
    refine ⟨s.numConsoleCharsRead, ?_⟩
    dsimp only
    rw [hagain]
  | char c =>
    cases hnext
    refine ⟨s.numConsoleCharsRead + 1, ?_⟩
    dsimp only
    rw [hagain]

/-- While the bytes can be read, a poll of an open console leaves it as it is or hands over
the next value. -/
theorem poll_cases (h : s.readFileNo ≠ -1) (hpending : 0 < s.readPolls)
    (hnext : nextValue utf8 s.input ≠ none) (avail : Bool) :
    s.poll utf8 avail = s ∨ s.incoming = noChar ∧ ∃ ch rest n,
      nextValue utf8 s.input = some (ch, rest) ∧ s.poll utf8 avail =
        { s with
          input := rest
          incoming := ch
          readHandled := s.readHandled + 1
          numConsoleCharsRead := n } := by
  by_cases hidle : s.incoming ≠ noChar ∨ avail = false
  · exact .inl (poll_idle h hpending hidle)
  · obtain ⟨hthere, havail⟩ := not_or.mp hidle
    have hempty : s.incoming = noChar := not_not.mp hthere
    obtain rfl : avail = true := eq_true_of_ne_false havail
    obtain ⟨⟨ch, rest⟩, hnext⟩ := Option.ne_none_iff_exists'.mp hnext
    obtain ⟨n, hpoll⟩ := poll_reads h hpending hempty hnext
    exact .inr ⟨hempty, ch, rest, n, hnext, hpoll⟩

/-- A poll that drops bytes does not come again. -/
theorem poll_drops (h : s.readFileNo ≠ -1) (hempty : s.incoming = noChar)
    (hdropped : readChar utf8 s.input = (.dropped, rest)) :
    s.poll utf8 true = { s with input := rest, readPolls := s.readPolls - 1 } := by
  have hreads : ¬ (s.incoming ≠ noChar ∨ true = false) := by simp [hempty]
  unfold poll checkCharAvail
  rw [if_neg h, if_neg hreads]
  dsimp only
  rw [hdropped]

theorem poll_output (s : Console) (avail : Bool) : (s.poll utf8 avail).output = s.output := by
  unfold poll checkCharAvail
  split
  · rfl
  · split
    · rfl
    · split <;> rfl

theorem rx_eq (h : s.incoming ≠ noChar) :
    s.rx = some (s.incoming, { s with incoming := noChar }) := if_neg h

theorem rx_some (h : s.rx = some (ch, s')) :
    s.incoming ≠ noChar ∧ ch = s.incoming ∧ s' = { s with incoming := noChar } := by
  by_cases hempty : s.incoming = noChar
  · rw [rx, if_pos hempty] at h
    cases h
  · rw [rx_eq hempty] at h
    cases h
    exact ⟨hempty, rfl, rfl⟩

theorem tx_eq (h : s.putBusy = false) (ch : Int) :
    s.tx utf8 ch = some { s with
      output := s.output ++ txBytes utf8 (compensate ch)
      putBusy := true
      writeDones := s.writeDones + 1 } := by
  unfold tx
  rw [if_neg (by rw [h]; exact Bool.false_ne_true)]

theorem tx_some (h : s.tx utf8 ch = some s') :
    s.putBusy = false ∧ s' = { s with
      output := s.output ++ txBytes utf8 (compensate ch)
      putBusy := true
      writeDones := s.writeDones + 1 } := by
  cases hbusy : s.putBusy with
  | true =>
    rw [tx, if_pos hbusy] at h
    cases h
  | false =>
    rw [tx_eq hbusy] at h
    cases h
    exact ⟨rfl, rfl⟩

/-! ## The character that waits -/

/-- The console as a mailbox, of which `taken` has been taken. -/
def mailbox (s : Console) (taken : List Int) : Mailbox (List UInt8) Int where
  source := s.input
  place := if s.incoming = noChar then none else some s.incoming
  taken

/-- A poll fills the mailbox or leaves it alone. -/
theorem poll_mailbox (hpending : 0 < s.readPolls) (hnext : nextValue utf8 s.input ≠ none)
    (avail : Bool) (taken : List Int) :
    (s.poll utf8 avail).mailbox taken = s.mailbox taken ∨
      Mailbox.Step (nextValue utf8) (s.mailbox taken) ((s.poll utf8 avail).mailbox taken) := by
  by_cases hclosed : s.readFileNo = -1
  · left
    rw [poll_closed hclosed]
    rfl
  · rcases poll_cases hclosed hpending hnext avail with
      hpoll | ⟨hempty, ch, rest, n, hnext, hpoll⟩
    · left
      rw [hpoll]
    · right
      have hfill := Mailbox.Step.fill (m := s.mailbox taken) (if_pos hempty) hnext
      rw [hpoll]
      unfold mailbox at hfill ⊢
      rwa [if_neg (nextValue_ne_noChar hnext)]

/-- `RX` takes what is there. -/
theorem rx_mailbox (h : s.rx = some (ch, s')) (taken : List Int) :
    Mailbox.Step (nextValue utf8) (s.mailbox taken) (s'.mailbox (taken ++ [ch])) := by
  obtain ⟨hthere, rfl, rfl⟩ := rx_some h
  exact Mailbox.Step.take (m := s.mailbox taken) (if_neg hthere)

end Console
end Machine
end Nachos
