import Nachos.Network.Delivery

/-!
# The mail test

`MailTest` runs on every machine: it sends a message to mail box 0 of the machine it is
given, waits for that machine's message, acknowledges it at the mail box named there, and
powers its machine down when its own message is acknowledged.
-/

namespace Nachos
namespace Network

open Lib Threads
open FileSys (Block)

namespace MailTest

/-! ## The program -/

/-- The bytes of a string with its NUL. -/
def cString (s : List Char) : List UInt8 := s.map (fun c => UInt8.ofNat c.toNat) ++ [0]

/-- The memory that a pointer to some bytes points to. -/
def memory (l : List UInt8) : Block := fun k => l.getD k 0

theorem bytes_memory (l : List UInt8) : bytes (memory l) l.length = l := by
  unfold bytes memory
  apply List.ext_getElem
  · rw [List.length_map, List.length_range]
  · intro k hk hk'
    rw [List.getElem_map, List.getElem_range, List.getD_eq_getElem?_getD,
      List.getElem?_eq_getElem hk', Option.getD_some]

def data : List UInt8 :=
  cString ['H', 'e', 'l', 'l', 'o', ' ', 't', 'h', 'e', 'r', 'e', '!']

def ack : List UInt8 := cString ['G', 'o', 't', ' ', 'i', 't', '!']

/-- The mail boxes of the post office that `Initialize` sets up. -/
abbrev nBoxes : MailBoxAddress := 10

/-- The mail header that `MailTest` fills in: a reply is to go to mail box 1. -/
def outMailHdr (toAddress : MailBoxAddress) (data : List UInt8) : MailHeader where
  toAddress := toAddress
  fromAddress := 1
  length := UInt32.ofNat data.length

/-- The thread `main`, which calls `MailTest`. -/
def main : ThreadId := 1

/-- `Send` of bytes that fit in a mail, to a mail box, up to the `Acquire`. -/
theorem send_moveTo {M : Machine} {m : NetworkAddress} {pktHdr : PacketHeader}
    {box : MailBoxAddress} {l : List UInt8} {junk : Block} (hbox : Machine.IsBox nBoxes box)
    (hl : l.length ≤ maxMailSize) :
    M.send m nBoxes main pktHdr (outMailHdr box l) (memory l) junk =
      M.moveTo main (.sendAcquire ⟨pktHdr.toAddress, outMailHdr box l, l⟩
        { pktHdr with
          fromAddress := m
          length := (outMailHdr box l).length + UInt32.ofNat sizeofHeader }
        (behind junk (outMailHdr box l) (outMailHdr box l).length.toNat (memory l))) := by
  have hlength : (outMailHdr box l).length.toNat = l.length := by
    have hlt : l.length ≤ 40 := hl
    show (UInt32.ofNat l.length).toNat = l.length
    exact UInt32.toNat_ofNat_of_lt' (by show l.length < 4294967296; omega)
  have hfits : (outMailHdr box l).length.toNat ≤ maxMailSize := hlength ▸ hl
  have hbytes : bytes (memory l) (outMailHdr box l).length.toNat = l := by
    rw [hlength]
    exact bytes_memory l
  have hbox' : Machine.IsBox nBoxes (outMailHdr box l).toAddress := hbox
  unfold Machine.send
  rw [if_neg (not_not_intro hfits), if_neg (not_not_intro hbox'), hbytes]

/-- How far `MailTest` is: the call it made last. -/
inductive Stage
  | start
  /-- `postOffice->Send` of the message -/
  | sent
  /-- `postOffice->Receive` from mail box 0 -/
  | waiting
  /-- `postOffice->Send` of the acknowledgement -/
  | acked
  /-- `postOffice->Receive` from mail box 1 -/
  | waitingAck
  /-- `interrupt->Powerdown` -/
  | done
  deriving DecidableEq

structure Test where
  net : State
  stage : NetworkAddress → Stage

/-- Machine `m` makes a call that leaves it as `M`. -/
def Test.call (s : Test) (m : NetworkAddress) (M : Machine) (stage : Stage) : Test where
  net := Function.update s.net m M
  stage := Function.update s.stage m stage

/-- What the last call of `Receive` has copied out. -/
def lastLetter (M : Machine) : Option Letter :=
  M.history.returned.getLast?.map Prod.snd

/-- What a machine is left as by a call of one of its threads. -/
inductive Call (M : Machine) (m : NetworkAddress) : Machine → Prop
  | send {t : ThreadId} (h : M.threads t = .outside) (pktHdr : PacketHeader)
      (mailHdr : MailHeader) (data junk : Block) :
      Call M m (M.send m nBoxes t pktHdr mailHdr data junk)
  | receive {t : ThreadId} (h : M.threads t = .outside) (box : MailBoxAddress) :
      Call M m (M.get nBoxes t box)
  | powerdown : Call M m { M with running := false }

/-- One step of a machine on which `main` is in `MailTest(far m)` and no other thread calls
the post office.  `main` makes its next call when the last one has returned. -/
inductive Step (far : NetworkAddress → NetworkAddress) (s : Test) : Test → Prop
  | machine {m : NetworkAddress} {M : Machine} (hrun : (s.net m).running = true)
      (h : (s.net m).Step m nBoxes M) (hno : ¬ Call (s.net m) m M) :
      Step far s { s with net := Function.update s.net m M }
  | networkSend {m : NetworkAddress} {t : ThreadId} {p : Parcel} {hdr : PacketHeader}
      {body : Block} (hrun : (s.net m).running = true)
      (h : (s.net m).threads t = .networkSend p hdr body) (lost : Bool) (junk : Block) :
      Step far s { s with net := networkSend s.net m t p hdr body lost junk }
  | send {m : NetworkAddress} (hrun : (s.net m).running = true) (hstage : s.stage m = .start)
      (hout : (s.net m).threads main = .outside) (outPktHdr : PacketHeader) (junk : Block) :
      Step far s (s.call m ((s.net m).send m nBoxes main
        { outPktHdr with toAddress := far m } (outMailHdr 0 data) (memory data) junk) .sent)
  | receive {m : NetworkAddress} (hrun : (s.net m).running = true) (hstage : s.stage m = .sent)
      (hout : (s.net m).threads main = .outside) :
      Step far s (s.call m ((s.net m).get nBoxes main 0) .waiting)
  | acknowledge {m : NetworkAddress} {l : Letter} (hrun : (s.net m).running = true)
      (hstage : s.stage m = .waiting) (hout : (s.net m).threads main = .outside)
      (hin : lastLetter (s.net m) = some l) (outPktHdr : PacketHeader) (junk : Block) :
      Step far s (s.call m ((s.net m).send m nBoxes main
        { outPktHdr with toAddress := l.pktHdr.fromAddress }
        (outMailHdr l.mailHdr.fromAddress ack) (memory ack) junk) .acked)
  | receiveAck {m : NetworkAddress} (hrun : (s.net m).running = true)
      (hstage : s.stage m = .acked) (hout : (s.net m).threads main = .outside) :
      Step far s (s.call m ((s.net m).get nBoxes main 1) .waitingAck)
  | powerdown {m : NetworkAddress} (hrun : (s.net m).running = true)
      (hstage : s.stage m = .waitingAck) (hout : (s.net m).threads main = .outside) :
      Step far s (s.call m { s.net m with running := false } .done)

/-- `MailTest` on all machines that are `up`, each with another that is `up`. -/
def mailTest (far : NetworkAddress → NetworkAddress) (up : NetworkAddress → Bool) :
    System Test where
  init s := (∀ m, (s.net m).Initial) ∧ (∀ m, (s.net m).running = up m) ∧
    ∀ m, s.stage m = .start
  step := Step far

/-- The message of machine `m`. -/
def message (far : NetworkAddress → NetworkAddress) (m : NetworkAddress) : Parcel where
  toAddress := far m
  mailHdr := outMailHdr 0 data
  data := data

/-- The acknowledgement that machine `m` sends. -/
def reply (far : NetworkAddress → NetworkAddress) (m : NetworkAddress) : Parcel where
  toAddress := far m
  mailHdr := outMailHdr 1 ack
  data := ack

/-- The message that machine `m` waits for. -/
def inMessage (far : NetworkAddress → NetworkAddress) (m : NetworkAddress) : Letter :=
  (message far (far m)).letter (far m)

/-- The acknowledgement that machine `m` waits for. -/
def inReply (far : NetworkAddress → NetworkAddress) (m : NetworkAddress) : Letter :=
  (reply far (far m)).letter (far m)

variable {far : NetworkAddress → NetworkAddress} {up : NetworkAddress → Bool}

/-- The machines run as with any other program. -/
theorem net_reachable {s : Test} (h : (mailTest far up).Reachable s) :
    (system fun _ => nBoxes).Reachable s.net := by
  refine h.induct (I := fun s => (system fun _ => nBoxes).Reachable s.net) ?_ ?_
  · intro s hinit
    exact .of_init hinit.1
  · intro s s' hs hstep
    cases hstep with
    | machine hrun h hno => exact hs.step (.machine hrun h)
    | networkSend hrun h lost junk => exact hs.step (.networkSend hrun h lost junk)
    | send hrun hstage hout outPktHdr junk =>
      exact hs.step (.machine hrun (.send hout (by decide) _ _ _ _))
    | receive hrun hstage hout => exact hs.step (.machine hrun (.get hout (by decide) _))
    | acknowledge hrun hstage hout hin outPktHdr junk =>
      exact hs.step (.machine hrun (.send hout (by decide) _ _ _ _))
    | receiveAck hrun hstage hout => exact hs.step (.machine hrun (.get hout (by decide) _))
    | powerdown hrun hstage hout => exact hs.step (.machine hrun .powerdown)

/-- A letter on its way to a machine or taken there was sent to it. -/
theorem sent_of_reachable {s : State} (h : (system fun _ => nBoxes).Reachable s)
    {m : NetworkAddress} {b : MailBoxAddress} {l : Letter}
    (hl : l ∈ (s m).taken b ∨ l ∈ (s m).carried b) :
    ∃ p ∈ (s l.pktHdr.fromAddress).history.sent, p.toAddress = m ∧ p.mailHdr.toAddress = b ∧
      p.letter l.pktHdr.fromAddress = l := by
  have horder := LossyChannel.inOrder_of_reachable
    ((views_channel (fun _ => nBoxes) l.pktHdr.fromAddress m b).reachable
      (fun _ => sound_of_reachable) h)
  have hfrom : decide (l.pktHdr.fromAddress = l.pktHdr.fromAddress) = true := decide_eq_true rfl
  have hmem : l ∈ (channel l.pktHdr.fromAddress m b s).received ++
      (channel l.pktHdr.fromAddress m b s).carried := by
    rcases hl with hl | hl
    · exact List.mem_append_left _ (List.mem_filter.mpr ⟨hl, hfrom⟩)
    · exact List.mem_append_right _ (List.mem_filter.mpr ⟨hl, hfrom⟩)
  obtain ⟨p, hp, hletter⟩ := List.mem_map.mp (horder.subset hmem)
  obtain ⟨hsent, hto⟩ := List.mem_filter.mp hp
  obtain ⟨hm, hb⟩ := of_decide_eq_true hto
  exact ⟨p, hsent, hm, hb, hletter⟩

/-- `Network::Send` takes what the post office hands it, unless it is busy. -/
theorem send_legal {M : Machine} {m : NetworkAddress} {p : Parcel} (hbusy : M.sendBusy = false)
    (hsealed : (p.letter m).Sealed) :
    M.sendBusy = false ∧ 0 < (p.letter m).pktHdr.length.toNat ∧
      (p.letter m).pktHdr.length.toNat ≤ maxPacketSize ∧
      (p.letter m).pktHdr.fromAddress = m :=
  ⟨hbusy, Nat.lt_of_lt_of_le (by decide) hsealed.sizeofHeader_le, hsealed.le_maxPacketSize, rfl⟩

/-! ## What a machine does by itself -/

/-- What a thread is doing at the post office. -/
inductive Doing
  | nothing
  | sending (p : Parcel)
  /-- its packet is in the network -/
  | sent
  | getting (box : MailBoxAddress)

def doing : Pc → Doing
  | .outside => .nothing
  | .sendAcquire p _ _ => .sending p
  | .networkSend p _ _ => .sending p
  | .sendP => .sent
  | .sendAsleep => .sent
  | .sendWoken => .sent
  | .sendRelease => .sent
  | .getAcquire box => .getting box
  | .getTest box => .getting box
  | .getWaiting box => .getting box
  | .getRelease box _ => .getting box

/-- No assertion has failed, and no thread but `main` uses the post office. -/
structure Calm (M : Machine) : Prop where
  failed : M.failed = []
  sendBusy : M.sendBusy = false
  messageSent : 0 ≤ M.messageSent.value
  others : ∀ t, t ≠ main → M.threads t = .outside
  waiting : ∀ b, (M.boxes b).waiting = [] ∨
    M.threads main = .getWaiting b ∧ (M.boxes b).waiting = [main]

/-- What becomes of the call that `main` is in. -/
inductive Advance (M M' : Machine) : Prop
  | same (hdoing : doing (M'.threads main) = doing (M.threads main))
      (hreturned : M'.history.returned = M.history.returned)
  | sent (hsent : doing (M.threads main) = .sent)
      (hout : M'.threads = Function.update M.threads main .outside)
      (hreturned : M'.history.returned = M.history.returned)
  | got {b : MailBoxAddress} {l : Letter} (hget : doing (M.threads main) = .getting b)
      (hout : M'.threads = Function.update M.threads main .outside) (hl : l ∈ M.taken b)
      (hreturned : M'.history.returned = M.history.returned ++ [(b, l)])

theorem Advance.of_update {M M' : Machine} {pc : Pc}
    (hthreads : M'.threads = Function.update M.threads main pc)
    (hdoing : doing pc = doing (M.threads main))
    (hreturned : M'.history.returned = M.history.returned) : Advance M M' := by
  refine .same ?_ hreturned
  rw [hthreads, Function.update_self]
  exact hdoing

/-- A step of a machine by itself. -/
structure Works (M M' : Machine) : Prop where
  calm : Calm M'
  running : M'.running = M.running
  sent : M'.history.sent = M.history.sent
  advance : Advance M M'

namespace Calm

variable {M M' : Machine} {m : NetworkAddress} {t : ThreadId} {pc : Pc}

theorem eq_main (h : Calm M) (ht : M.threads t = pc) (hpc : pc ≠ .outside) : t = main := by
  by_contra hne
  exact hpc (ht.symm.trans (h.others t hne))

/-- The threads and the mail boxes stay as they are. -/
theorem same (h : Calm M) (hfailed : M'.failed = M.failed) (hbusy : M'.sendBusy = M.sendBusy)
    (hsem : 0 ≤ M'.messageSent.value) (hthreads : M'.threads = M.threads)
    (hwaiting : ∀ b, (M'.boxes b).waiting = (M.boxes b).waiting) (hrun : M'.running = M.running)
    (hsent : M'.history.sent = M.history.sent)
    (hreturned : M'.history.returned = M.history.returned) : Works M M' := by
  refine ⟨⟨hfailed.trans h.failed, hbusy.trans h.sendBusy, hsem, fun t ht => ?_, fun b => ?_⟩,
    hrun, hsent, .same (by rw [hthreads]) hreturned⟩
  · rw [hthreads]
    exact h.others t ht
  · rw [hwaiting, hthreads]
    exact h.waiting b

theorem none_waits (h : Calm M) (hpc : ∀ b, M.threads main ≠ .getWaiting b) (b : MailBoxAddress) :
    (M.boxes b).waiting = [] :=
  (h.waiting b).resolve_right fun hw => hpc b hw.1

/-- `main` goes on, and does not wait on a condition. -/
theorem moves (h : Calm M) (hfailed : M'.failed = M.failed) (hbusy : M'.sendBusy = M.sendBusy)
    (hsem : 0 ≤ M'.messageSent.value) (hthreads : M'.threads = Function.update M.threads main pc)
    (hwaiting : ∀ b, (M'.boxes b).waiting = []) (hrun : M'.running = M.running)
    (hsent : M'.history.sent = M.history.sent) (hadvance : Advance M M') : Works M M' := by
  refine ⟨⟨hfailed.trans h.failed, hbusy.trans h.sendBusy, hsem, fun t ht => ?_,
    fun b => .inl (hwaiting b)⟩, hrun, hsent, hadvance⟩
  rw [hthreads, Function.update_of_ne ht]
  exact h.others t ht

/-- Setting a box that no thread waits at leaves none waiting. -/
theorem waiting_setBox {box : MailBoxAddress} {B : MailBox}
    (h : ∀ b, b ≠ box → (M.boxes b).waiting = []) (hB : B.waiting = []) (b : MailBoxAddress) :
    ((M.setBox box B).boxes b).waiting = [] := by
  show (Function.update M.boxes box B b).waiting = []
  by_cases hb : b = box
  · rw [hb, Function.update_self]
    exact hB
  · rw [Function.update_of_ne hb]
    exact h b hb

/-- The postal worker goes on, and no thread comes to wait at a mail box or leaves it. -/
theorem setBox (h : Calm M) (box : MailBoxAddress) (B : MailBox)
    (hB : B.waiting = (M.boxes box).waiting) (w : Worker) :
    Works M { M.setBox box B with worker := w } := by
  refine h.same rfl rfl h.messageSent rfl (fun b => ?_) rfl rfl rfl
  show (Function.update M.boxes box B b).waiting = _
  by_cases hb : b = box
  · rw [hb, Function.update_self]
    exact hB
  · rw [Function.update_of_ne hb]

theorem testSent (h : Calm M) (ht : M.threads main = .sendP ∨ M.threads main = .sendWoken) :
    Works M (M.testSent main) := by
  have hnone : ∀ b, (M.boxes b).waiting = [] :=
    h.none_waits fun b heq => by rcases ht with ht | ht <;> rw [ht] at heq <;> cases heq
  have hsent : doing (M.threads main) = .sent := by
    rcases ht with ht | ht <;> rw [ht] <;> rfl
  unfold Machine.testSent
  by_cases hv : M.messageSent.value = 0
  · rw [Semaphore.test_zero hv]
    exact h.moves rfl rfl h.messageSent rfl hnone rfl rfl (.of_update rfl hsent.symm rfl)
  · rw [Semaphore.test_nonzero hv]
    have hpos := h.messageSent
    refine h.moves rfl rfl ?_ rfl hnone rfl rfl (.of_update rfl hsent.symm rfl)
    show 0 ≤ M.messageSent.value - 1
    omega

theorem sendDone (h : Calm M) : Works M M.sendDone := by
  have hpost : 0 ≤ M.messageSent.value + 1 := Int.le_add_one h.messageSent
  have hpacket : M.sendDone =
      { { M with sendBusy := false, sendsDone := M.sendsDone - 1 }.readySender
          M.messageSent.post.2 with messageSent := M.messageSent.post.1 } := if_pos h.messageSent
  rw [hpacket]
  unfold Machine.readySender
  cases M.messageSent.post.2 with
  | none => exact h.same rfl h.sendBusy.symm hpost rfl (fun _ => rfl) rfl rfl rfl
  | some t =>
    dsimp only
    split
    · rename_i hasleep
      obtain rfl := h.eq_main hasleep (by nofun)
      have hnone : ∀ b, (M.boxes b).waiting = [] :=
        h.none_waits fun b heq => nomatch hasleep.symm.trans heq
      refine h.moves rfl h.sendBusy.symm hpost rfl hnone rfl rfl (.of_update rfl ?_ rfl)
      rw [hasleep]
      rfl
    · exact h.same rfl h.sendBusy.symm hpost rfl (fun _ => rfl) rfl rfl rfl

/-- The device finds nothing wrong with a packet that is on its way. -/
theorem checkPktAvail (h : Calm M) (hM : Sound m M) : Works M (M.checkPktAvail m) := by
  unfold Machine.checkPktAvail
  by_cases hempty : M.inHdr.length = 0
  · rw [if_neg (not_not_intro hempty)]
    split
    · exact h.same rfl rfl h.messageSent rfl (fun _ => rfl) rfl rfl rfl
    · rename_i packet rest hsocket
      obtain ⟨hsealed, hto⟩ := hM.transit packet.letter (by
        rw [Machine.transit, hsocket]
        exact List.mem_append_right _ List.mem_cons_self)
      have hfits : (Header.read packet.block : PacketHeader).toAddress = m ∧
          (Header.read packet.block : PacketHeader).length.toNat ≤ maxPacketSize :=
        ⟨hto, hsealed.le_maxPacketSize⟩
      have heq : M.readPacket m packet rest =
          { (M.withPacket packet rest).readyWorker M.messageAvailable.post.2 with
            messageAvailable := M.messageAvailable.post.1 } := by
        rw [Machine.readPacket, if_pos hfits]
        exact if_pos hM.value
      rw [heq]
      unfold Machine.readyWorker
      cases M.messageAvailable.post.2 with
      | none => exact h.same rfl rfl h.messageSent rfl (fun _ => rfl) rfl rfl rfl
      | some t =>
        dsimp only
        split
        · exact h.same rfl rfl h.messageSent rfl (fun _ => rfl) rfl rfl rfl
        · exact h.same rfl rfl h.messageSent rfl (fun _ => rfl) rfl rfl rfl
  · rw [if_pos hempty]
    exact h.same rfl rfl h.messageSent rfl (fun _ => rfl) rfl rfl rfl

theorem testAvailable (h : Calm M) : Works M M.testAvailable := by
  unfold Machine.testAvailable
  by_cases hv : M.messageAvailable.value = 0
  · rw [Semaphore.test_zero hv]
    exact h.same rfl rfl h.messageSent rfl (fun _ => rfl) rfl rfl rfl
  · rw [Semaphore.test_nonzero hv]
    exact h.same rfl rfl h.messageSent rfl (fun _ => rfl) rfl rfl rfl

/-- `main` waits at a mail box, or takes the first mail out of it. -/
theorem testGet (h : Calm M) {box : MailBoxAddress} (ht : M.threads main = .getTest box) :
    Works M (M.testGet main box) := by
  have hnone := h.none_waits fun b heq => nomatch ht.symm.trans heq
  have hdoing : doing (M.threads main) = .getting box := by
    rw [ht]
    rfl
  unfold Machine.testGet
  split
  · refine ⟨⟨h.failed, h.sendBusy, h.messageSent, fun t hne => ?_, fun b => ?_⟩, rfl, rfl,
      .of_update rfl hdoing.symm rfl⟩
    · exact (Function.update_of_ne hne _ _).trans (h.others t hne)
    · by_cases hb : b = box
      · subst hb
        refine .inr ⟨?_, ?_⟩
        · show Function.update M.threads main (.getWaiting b) main = _
          exact Function.update_self _ _ _
        show (Function.update M.boxes b _ b).waiting = _
        rw [Function.update_self]
        show (M.boxes b).waiting ++ [main] = [main]
        rw [hnone b, List.nil_append]
      · refine .inl ?_
        show (Function.update M.boxes box _ b).waiting = _
        rw [Function.update_of_ne hb]
        exact hnone b
  · exact h.moves rfl rfl h.messageSent rfl (waiting_setBox (fun b _ => hnone b) (hnone box))
      rfl rfl (.of_update rfl hdoing.symm rfl)

/-- `Receive` returns with a letter from the mail box. -/
theorem releaseGet (h : Calm M) {box : MailBoxAddress} {mail : Mail}
    (ht : M.threads main = .getRelease box mail) (hok : PcOk m M.taken (M.threads main))
    (htaken : ∀ l ∈ M.taken box, l.mailHdr.length.toNat ≤ maxMailSize) :
    Works M (M.releaseGet main box mail) := by
  have hnone := h.none_waits fun b heq => nomatch ht.symm.trans heq
  rw [ht] at hok
  have hlength : mail.mailHdr.length.toNat ≤ maxMailSize := htaken _ hok
  unfold Machine.releaseGet
  dsimp only
  rw [if_pos hlength]
  refine h.moves rfl rfl h.messageSent rfl (waiting_setBox (fun b _ => hnone b) (hnone box))
    rfl rfl (.got ?_ rfl hok rfl)
  rw [ht]
  rfl

/-- A step of a machine that is no call, as long as its letters are for its mail boxes. -/
theorem step (h : Calm M) (hM : Sound m M) (hboxes : ∀ l ∈ M.transit,
      Machine.IsBox nBoxes l.mailHdr.toAddress)
    (htaken : ∀ b, ∀ l ∈ M.taken b, l.mailHdr.length.toNat ≤ maxMailSize)
    (hstep : M.Step m nBoxes M') (hno : ¬ Call M m M') : Works M M' := by
  have hsame : ∀ w : Worker, Works M { M with worker := w } := fun w =>
    h.same rfl rfl h.messageSent rfl (fun _ => rfl) rfl rfl rfl
  cases hstep with
  | send ht _ pktHdr mailHdr data junk => exact absurd (.send ht pktHdr mailHdr data junk) hno
  | get ht _ box => exact absurd (.receive ht box) hno
  | powerdown => exact absurd .powerdown hno
  | @acquireSend t p hdr buffer ht hl =>
    obtain rfl := h.eq_main ht (by rintro ⟨⟩)
    refine h.moves rfl rfl h.messageSent rfl (h.none_waits fun b heq => ?_) rfl rfl
      (.of_update rfl ?_ rfl)
    · cases ht.symm.trans heq
    · rw [ht]
      rfl
  | pSent ht =>
    obtain rfl := h.eq_main ht (by rintro ⟨⟩)
    unfold Machine.pSent
    rw [if_pos h.messageSent]
    exact h.testSent (.inl ht)
  | testSent ht =>
    obtain rfl := h.eq_main ht (by rintro ⟨⟩)
    exact h.testSent (.inr ht)
  | releaseSend ht =>
    obtain rfl := h.eq_main ht (by rintro ⟨⟩)
    refine h.moves rfl rfl h.messageSent rfl (h.none_waits fun b heq => ?_) rfl rfl
      (.sent ?_ rfl rfl)
    · cases ht.symm.trans heq
    · rw [ht]
      rfl
  | sendDone hd => exact h.sendDone
  | poll => exact h.checkPktAvail hM
  | pAvailable hw =>
    unfold Machine.pAvailable
    rw [if_pos hM.value]
    exact h.testAvailable
  | testAvailable hw => exact h.testAvailable
  | receive hw => exact h.same rfl rfl h.messageSent rfl (fun _ => rfl) rfl rfl rfl
  | @deliver pktHdr hw junk =>
    have hmem : letterOf pktHdr M.buffer ∈ M.transit := by
      rw [Machine.transit, hw]
      exact List.mem_append_left _ (List.mem_append_left _ (List.mem_singleton_self _))
    have hbox : Machine.IsBox nBoxes (Header.read M.buffer).toAddress :=
      hboxes (letterOf pktHdr M.buffer) hmem
    have hlength : (Header.read M.buffer).length.toNat ≤ maxMailSize :=
      (hM.transit (letterOf pktHdr M.buffer) hmem).1.bounded
    unfold Machine.deliver
    dsimp only
    rw [if_neg (not_not_intro hbox), if_neg (not_not_intro hlength)]
    exact hsame _
  | @acquirePut mail hw hl =>
    exact h.setBox mail.mailHdr.toAddress
      { M.boxes mail.mailHdr.toAddress with lock := some postalWorker } rfl (.append mail)
  | @append mail hw =>
    exact h.setBox mail.mailHdr.toAddress
      { M.boxes mail.mailHdr.toAddress with
        messages := (M.boxes mail.mailHdr.toAddress).messages ++ [mail] } rfl
      (.signal mail.mailHdr.toAddress)
  | @signal box t hw ht =>
    rcases h.waiting box with hnone | ⟨hget, hone⟩
    · rw [hnone] at ht
      cases ht
    · rw [hone] at ht
      obtain rfl := List.mem_singleton.mp ht
      refine h.moves rfl rfl h.messageSent rfl (waiting_setBox (fun b hb => ?_) ?_) rfl rfl
        (.of_update rfl ?_ rfl)
      · refine (h.waiting b).resolve_right fun hw => hb ?_
        cases hget.symm.trans hw.1
        rfl
      · show (M.boxes box).waiting.erase main = []
        rw [hone]
        rfl
      · rw [hget]
        rfl
  | signalNone hw hn => exact hsame _
  | @releasePut box hw =>
    exact h.setBox box { M.boxes box with lock := none } rfl .p
  | @acquireGet t box ht hl =>
    obtain rfl := h.eq_main ht (by rintro ⟨⟩)
    have hnone := h.none_waits fun b heq => by cases ht.symm.trans heq
    refine h.moves rfl rfl h.messageSent rfl (waiting_setBox (fun b _ => hnone b) (hnone box))
      rfl rfl (.of_update rfl ?_ rfl)
    rw [ht]
    rfl
  | testGet ht =>
    obtain rfl := h.eq_main ht (by rintro ⟨⟩)
    exact h.testGet ht
  | @releaseGet t box mail ht =>
    obtain rfl := h.eq_main ht (by rintro ⟨⟩)
    exact h.releaseGet ht (hM.threads main) (htaken box)

end Calm

/-! ## Steps that call nothing -/

/-- A step that keeps the threads outside and fails no assertion calls nothing. -/
theorem not_call {M M' : Machine} {m : NetworkAddress} (hfailed : M'.failed = M.failed)
    (hrunning : M'.running = M.running) (hrun : M.running = true)
    (hthreads : ∀ t, M.threads t = .outside → M'.threads t = .outside) : ¬ Call M m M' := by
  intro h
  have hnot : ∀ a, M.failed ++ [a] ≠ M.failed := fun a h => by simp at h
  have hmove : ∀ t pc, pc ≠ .outside → (M.moveTo t pc).threads t ≠ .outside := by
    intro t pc hpc
    show Function.update M.threads t pc t ≠ .outside
    rwa [Function.update_self]
  cases h with
  | @send t hout pktHdr mailHdr data junk =>
    have hstays := hthreads t hout
    unfold Machine.send at hfailed hstays
    by_cases hl : ¬ mailHdr.length.toNat ≤ maxMailSize
    · rw [if_pos hl] at hfailed
      exact hnot _ hfailed
    · rw [if_neg hl] at hfailed hstays
      by_cases hb : ¬ Machine.IsBox nBoxes mailHdr.toAddress
      · rw [if_pos hb] at hfailed
        exact hnot _ hfailed
      · rw [if_neg hb] at hstays
        exact absurd hstays (hmove _ _ nofun)
  | @receive t hout box =>
    have hstays := hthreads t hout
    unfold Machine.get at hfailed hstays
    by_cases hb : Machine.IsBox nBoxes box
    · rw [if_pos hb] at hstays
      exact absurd hstays (hmove _ _ nofun)
    · rw [if_neg hb] at hfailed
      exact hnot _ hfailed
  | powerdown => exact Bool.false_ne_true (hrunning.trans hrun)

end MailTest

end Network
end Nachos
