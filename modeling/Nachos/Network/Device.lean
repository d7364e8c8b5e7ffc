import Nachos.Network.PostOffice

/-!
# The network device

Class `Network` with any callers.  `Send` asserts that the device is not busy and
schedules the interrupt that `SendDone` handles, but it leaves `sendBusy` as it is, so
the assertion never refuses a packet while another is being sent.
-/

namespace Nachos
namespace Network

open Lib Threads
open FileSys (Block)

/-- The device of a running machine.  `sendsDone` counts the `NetworkSendDone` interrupts
that are scheduled.  Each poll schedules the next, so that a poll is always to come. -/
structure Device where
  running : Bool
  sendBusy : Bool
  sendsDone : Nat
  inHdr : PacketHeader
  inbox : Block
  socket : List Packet

/-- What becomes of a packet behind the assertion of `Send`. -/
inductive Fate
  | lost
  | refused
  | sent

namespace Device

/-- After the constructor. -/
structure Initial (d : Device) : Prop where
  running : d.running = true
  sendBusy : d.sendBusy = false
  sendsDone : d.sendsDone = 0
  length : d.inHdr.length = 0
  socket : d.socket = []

variable (d : Device) (ident : NetworkAddress) (hdr : PacketHeader)

/-- The part of the `ASSERT` in `Send` that is about the packet. -/
def Legal : Prop :=
  0 < hdr.length.toNat ∧ hdr.length.toNat ≤ maxPacketSize ∧ hdr.fromAddress = ident

instance : Decidable (Legal ident hdr) := inferInstanceAs (Decidable (_ ∧ _))

def Accepts : Prop := d.sendBusy = false ∧ Legal ident hdr

instance : Decidable (d.Accepts ident hdr) := inferInstanceAs (Decidable (_ ∧ _))

/-- A failed `ASSERT` ends the program. -/
def fail : Device := { d with running := false }

/-- `Network::Send`, and the packet that the host gets. -/
def send (data : Block) (fate : Fate) (junk : Block) : Device × Option Packet :=
  if d.Accepts ident hdr then
    let d := { d with sendsDone := d.sendsDone + 1 }
    match fate with
    | .lost => (d, none)
    | .refused => (d.fail, none)
    | .sent => (d, some (Packet.ofBlock (behind junk hdr hdr.length.toNat data)))
  else (d.fail, none)

/-- `Network::SendDone`, up to the call of `writeHandler`. -/
def sendDone : Device := { d with sendBusy := false, sendsDone := d.sendsDone - 1 }

/-- `Network::CheckPktAvail`, up to the call of `readHandler`. -/
def checkPktAvail : Device :=
  if d.inHdr.length ≠ 0 then d
  else
    match d.socket with
    | [] => d
    | packet :: rest =>
      let inHdr := Header.read packet.block
      let d := { d with socket := rest, inHdr := inHdr }
      if inHdr.toAddress = ident ∧ inHdr.length.toNat ≤ maxPacketSize then
        { d with inbox := d.inbox.copy 0 inHdr.length.toNat (packet.block.from sizeofHeader) }
      else d.fail

/-- `Network::Receive`, without what it returns. -/
def receive : Device := { d with inHdr := { d.inHdr with length := 0 } }

/-- What happens at the device. -/
inductive Event
  | send (hdr : PacketHeader) (data : Block) (fate : Fate) (junk : Block)
  | sendDone
  | poll
  | receive
  | arrive (packet : Packet)

inductive Step : Device → Event → Device → Prop
  | send {d : Device} (hdr : PacketHeader) (data : Block) (fate : Fate) (junk : Block) :
      Step d (.send hdr data fate junk) (d.send ident hdr data fate junk).1
  | sendDone {d : Device} (pending : 0 < d.sendsDone) : Step d .sendDone d.sendDone
  | poll {d : Device} : Step d .poll (d.checkPktAvail ident)
  | receive {d : Device} : Step d .receive d.receive
  | arrive {d : Device} (packet : Packet) :
      Step d (.arrive packet) { d with socket := d.socket ++ [packet] }

/-- The events one after the other, as long as the program runs. -/
inductive Run : Device → List Event → Device → Prop
  | nil {d : Device} : Run d [] d
  | cons {d d₁ d₂ : Device} {e : Event} {events : List Event} (running : d.running = true)
      (step : Step ident d e d₁) (rest : Run d₁ events d₂) : Run d (e :: events) d₂

/-- One packet at a time: the device is busy just while an interrupt is to come, there is
one at most, and until then `Send` fails. -/
structure OneSend : Prop where
  busy : d.sendBusy = true ↔ 0 < d.sendsDone
  one : d.sendsDone ≤ 1
  guarded : 0 < d.sendsDone → ∀ hdr data fate junk, d.send ident hdr data fate junk = (d.fail, none)

section

variable {d} {d₀ d₁ d₂ : Device} {ident} {hdr} {e : Event} {events : List Event}

/-- The assertion passes and the interrupt is scheduled. -/
theorem send_accepted (h : d.Accepts ident hdr) (data : Block) (fate : Fate) (junk : Block) :
    (d.send ident hdr data fate junk).1.sendsDone = d.sendsDone + 1 := by
  unfold send
  rw [if_pos h]
  cases fate <;> rfl

theorem send_refused (h : ¬ d.Accepts ident hdr) (data : Block) (fate : Fate) (junk : Block) :
    d.send ident hdr data fate junk = (d.fail, none) := if_neg h

theorem send_sendBusy (hdr : PacketHeader) (data : Block) (fate : Fate) (junk : Block) :
    (d.send ident hdr data fate junk).1.sendBusy = d.sendBusy := by
  unfold send
  split
  · cases fate <;> rfl
  · rfl

theorem checkPktAvail_lines (d : Device) (ident : NetworkAddress) :
    (d.checkPktAvail ident).sendBusy = d.sendBusy ∧
      (d.checkPktAvail ident).sendsDone = d.sendsDone := by
  unfold checkPktAvail
  split
  · exact ⟨rfl, rfl⟩
  · split
    · exact ⟨rfl, rfl⟩
    · dsimp only
      split <;> exact ⟨rfl, rfl⟩

/-- Nothing makes the device busy. -/
theorem Step.sendBusy (h : Step ident d e d₁) (hfree : d.sendBusy = false) :
    d₁.sendBusy = false := by
  cases h with
  | send hdr data fate junk => exact (send_sendBusy hdr data fate junk).trans hfree
  | sendDone => rfl
  | poll => exact (checkPktAvail_lines d ident).1.trans hfree
  | receive => exact hfree
  | arrive packet => exact hfree

/-- The packet of `Send`, if that is what happens, is one that the assertion refuses. -/
def Event.Refused (ident : NetworkAddress) : Event → Prop
  | .send hdr _ _ _ => ¬ Legal ident hdr
  | _ => True

theorem Step.sendsDone (h : Step ident d e d₁) (hrefused : e.Refused ident)
    (hnone : d.sendsDone = 0) : d₁.sendsDone = 0 := by
  cases h with
  | send hdr data fate junk =>
    rw [send_refused (fun haccepts => hrefused haccepts.2)]
    exact hnone
  | sendDone pending => omega
  | poll => exact (checkPktAvail_lines d ident).2.trans hnone
  | receive => exact hnone
  | arrive packet => exact hnone

theorem Run.sendBusy (h : Run ident d₀ events d) (hfree : d₀.sendBusy = false) :
    d.sendBusy = false := by
  induction h with
  | nil => exact hfree
  | cons running step rest ih => exact ih (step.sendBusy hfree)

theorem Run.sendsDone (h : Run ident d₀ events d) (hrefused : ∀ e ∈ events, e.Refused ident)
    (hnone : d₀.sendsDone = 0) : d.sendsDone = 0 := by
  induction h with
  | nil => exact hnone
  | cons running step rest ih =>
    apply ih
    · intro e he
      exact hrefused e (List.mem_cons_of_mem _ he)
    · exact step.sendsDone (hrefused _ List.mem_cons_self) hnone

/-- An event of a run, with the devices before and after it. -/
theorem Run.split {pre post : List Event} (h : Run ident d₀ (pre ++ e :: post) d) :
    ∃ d₁ d₂, Run ident d₀ pre d₁ ∧ Step ident d₁ e d₂ ∧ Run ident d₀ (pre ++ [e]) d₂ := by
  induction pre generalizing d₀ with
  | nil =>
    cases h with
    | cons running step rest => exact ⟨d₀, _, .nil, step, .cons running step .nil⟩
  | cons e' pre ih =>
    cases h with
    | cons running step rest =>
      obtain ⟨d₁, d₂, hpre, hstep, hrun⟩ := ih rest
      exact ⟨d₁, d₂, .cons running step hpre, hstep, .cons running step hrun⟩

theorem oneSend_idle (hfree : d.sendBusy = false) (hnone : d.sendsDone = 0) : d.OneSend ident := by
  constructor
  · rw [hfree, hnone]
    simp
  · omega
  · intro hpending
    omega

/-- **One packet at a time** is what the device keeps to in runs where no packet is legal,
and in no others: the first that is sent leaves it free with an interrupt to come. -/
theorem oneSend_iff_refused (hinit : d₀.Initial) (hrun : Run ident d₀ events d) :
    (∀ pre d', pre <+: events → Run ident d₀ pre d' → d'.OneSend ident) ↔
      ∀ hdr data fate junk, Event.send hdr data fate junk ∈ events → ¬ Legal ident hdr := by
  constructor
  · intro hall hdr data fate junk hmem hlegal
    obtain ⟨pre, post, rfl⟩ := List.append_of_mem hmem
    obtain ⟨d₁, d₂, hpre, hstep, hrun'⟩ := hrun.split
    have hearlier : pre ++ [Event.send hdr data fate junk] <+:
        pre ++ Event.send hdr data fate junk :: post := ⟨post, by simp⟩
    have hone := hall _ d₂ hearlier hrun'
    have hfree := hrun'.sendBusy hinit.sendBusy
    have haccepts : d₁.Accepts ident hdr := ⟨hpre.sendBusy hinit.sendBusy, hlegal⟩
    have hpending : 0 < d₂.sendsDone := by
      cases hstep
      rw [send_accepted haccepts]
      omega
    rw [hone.busy.mpr hpending] at hfree
    cases hfree
  · intro hillegal pre d' hearlier hpre
    have hrefused : ∀ e ∈ pre, e.Refused ident := by
      intro e he
      cases e with
      | send hdr data fate junk => exact hillegal hdr data fate junk (hearlier.subset he)
      | _ => trivial
    exact oneSend_idle (hpre.sendBusy hinit.sendBusy) (hpre.sendsDone hrefused hinit.sendsDone)

end

/-- A device as the constructor leaves it. -/
def initial : Device := ⟨true, false, 0, ⟨0, 0, 0⟩, fun _ => 0, []⟩

/-- Four bytes from machine 0 to machine 1. -/
def fourBytes : Event := .send ⟨1, 0, 4⟩ (fun _ => 0) .sent fun _ => 0

/-- Two packets sent without a `SendDone` between them: the second is accepted and a second
interrupt is to come. -/
theorem send_twice_accepted :
    ¬ ∀ (ident : NetworkAddress) (d₀ d : Device) (events : List Event), d₀.Initial →
      Run ident d₀ events d → d.OneSend ident := by
  intro h
  have hone := h 0 initial _ [fourBytes, fourBytes] ⟨rfl, rfl, rfl, rfl, rfl⟩
    (.cons rfl (.send ..) (.cons rfl (.send ..) .nil))
  exact absurd hone.one (by decide)

/-- A packet for machine 1 with the address of another sender is refused. -/
theorem oneSend_iff_refused_forged :
    (∀ pre d', pre <+: [Event.send ⟨1, 2, 4⟩ (fun _ => 0) .sent fun _ => 0] →
      Run 0 initial pre d' → d'.OneSend 0) ↔
      ∀ hdr data fate junk, Event.send hdr data fate junk ∈
        [Event.send ⟨1, 2, 4⟩ (fun _ => 0) .sent fun _ => 0] → ¬ Legal 0 hdr :=
  oneSend_iff_refused (d := initial.fail) ⟨rfl, rfl, rfl, rfl, rfl⟩ (.cons rfl (.send ..) .nil)

end Device

/-! ## The device of a post office -/

namespace Machine

def device (M : Machine) : Device :=
  ⟨M.running, M.sendBusy, M.sendsDone, M.inHdr, M.inbox, M.socket⟩

variable (M : Machine)

theorem readySender_device (t : Option ThreadId) : (M.readySender t).device = M.device := by
  unfold readySender
  split
  · rfl
  · split <;> rfl

theorem readyWorker_device (t : Option ThreadId) : (M.readyWorker t).device = M.device := by
  unfold readyWorker
  split
  · rfl
  · split <;> rfl

/-- The handlers of the post office leave the device alone, but may fail an `ASSERT`. -/
theorem packetSent_device :
    M.packetSent.device = { M.device with running := M.packetSent.running } := by
  unfold packetSent
  split
  · have hready := M.readySender_device M.messageSent.post.2
    have hrunning := congrArg Device.running hready
    exact hready.trans (congrArg (fun b => { M.device with running := b }) hrunning.symm)
  · rfl

theorem incomingPacket_device :
    M.incomingPacket.device = { M.device with running := M.incomingPacket.running } := by
  unfold incomingPacket
  split
  · have hready := M.readyWorker_device M.messageAvailable.post.2
    have hrunning := congrArg Device.running hready
    exact hready.trans (congrArg (fun b => { M.device with running := b }) hrunning.symm)
  · rfl

/-- The device of a post office, up to failures in the handlers. -/
theorem sendDone_device :
    M.sendDone.device = { M.device.sendDone with running := M.sendDone.running } :=
  packetSent_device _

theorem checkPktAvail_device (m : NetworkAddress) :
    (M.checkPktAvail m).device =
      { M.device.checkPktAvail m with running := (M.checkPktAvail m).running } := by
  unfold checkPktAvail Device.checkPktAvail
  by_cases hlength : M.inHdr.length ≠ 0
  · rw [if_pos hlength, if_pos (show M.device.inHdr.length ≠ 0 from hlength)]
    rfl
  · rw [if_neg hlength, if_neg (show ¬ M.device.inHdr.length ≠ 0 from hlength)]
    cases hsocket : M.socket with
    | nil =>
      rw [show M.device.socket = [] from hsocket]
      rfl
    | cons packet rest =>
      rw [show M.device.socket = packet :: rest from hsocket]
      dsimp only [readPacket]
      by_cases hlegal : (Header.read packet.block).toAddress = m ∧
          (Header.read packet.block).length.toNat ≤ maxPacketSize
      · rw [if_pos hlegal, if_pos hlegal]
        exact incomingPacket_device _
      · rw [if_neg hlegal, if_neg hlegal]
        rfl

theorem receive_device : M.receive.device = M.device.receive := rfl

end Machine

/-- `Send` to another machine. -/
theorem networkSend_device (s : State) {m : NetworkAddress} (t : ThreadId) (p : Parcel)
    {hdr : PacketHeader} (haway : m ≠ hdr.toAddress) (data : Block) (lost : Bool) (junk : Block) :
    ∃ fate, (networkSend s m t p hdr data lost junk m).device =
      ((s m).device.send m hdr data fate junk).1 := by
  unfold networkSend Device.send
  have hassert : (s m).sendBusy = false ∧ 0 < hdr.length.toNat ∧
      hdr.length.toNat ≤ maxPacketSize ∧ hdr.fromAddress = m ↔ (s m).device.Accepts m hdr := Iff.rfl
  by_cases haccepts : (s m).device.Accepts m hdr
  · rw [if_pos (hassert.mpr haccepts)]
    cases lost with
    | true =>
      refine ⟨.lost, ?_⟩
      rw [if_pos rfl, Function.update_self, if_pos haccepts]
      rfl
    | false =>
      rw [if_neg Bool.false_ne_true]
      by_cases hrunning : (s hdr.toAddress).running = true
      · refine ⟨.sent, ?_⟩
        rw [if_pos hrunning, if_pos haccepts]
        dsimp only
        rw [Function.update_of_ne haway, Function.update_self]
        rfl
      · refine ⟨.refused, ?_⟩
        rw [if_neg hrunning, Function.update_self, if_pos haccepts]
        rfl
  · refine ⟨.lost, ?_⟩
    rw [if_neg (hassert.not.mpr haccepts), if_neg haccepts, Function.update_self]
    rfl

end Network
end Nachos
