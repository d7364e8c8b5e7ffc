import Nachos.Lib.System
import Nachos.Network.Wire
import Nachos.Threads.Synch

/-!
# Post offices on a network

Machines that each run a post office over a network device, and the host that
carries packets from socket to socket.  A step is what a thread or an interrupt
handler does up to the next point where simulated time may advance, and the
steps of all machines interleave freely.

`Lock` and `Condition` have no code here.  `Acquire` waits until no thread holds
the lock, `Wait` gives the lock up and acquires it again after a `Signal`, and
`Signal` picks one of the threads that wait.  The host keeps the packets for a
socket in the order in which they were sent.
-/

namespace Nachos
namespace Network

open Lib Threads
open FileSys (Block)

/-! ## Mail boxes -/

structure Mail where
  pktHdr : PacketHeader
  mailHdr : MailHeader
  data : Block

/-- `Mail::Mail`, in memory that held `junk`. -/
def Mail.new (junk : Block) (pktH : PacketHeader) (mailH : MailHeader) (msgData : Block) :
    Mail where
  pktHdr := pktH
  mailHdr := mailH
  data := junk.copy 0 mailH.length.toNat msgData

/-- What `MailBox::Get` copies out of a mail. -/
def Mail.letter (mail : Mail) : Letter where
  pktHdr := mail.pktHdr
  mailHdr := mail.mailHdr
  data := bytes mail.data mail.mailHdr.length.toNat

theorem Mail.letter_new (junk : Block) (pktHdr : PacketHeader) (body : Block) :
    (Mail.new junk pktHdr (Header.read body) (body.from sizeofHeader)).letter =
      letterOf pktHdr body := by
  have hdata : bytes (junk.copy 0 (Header.read body).length.toNat (body.from sizeofHeader))
      (Header.read body).length.toNat =
        bytes (body.from sizeofHeader) (Header.read body).length.toNat := by
    refine bytes_congr fun k hk => ?_
    have hin : 0 ≤ k ∧ k < 0 + (Header.read body).length.toNat := by omega
    rw [Block.copy, if_pos hin, Nat.sub_zero]
  simp only [Mail.letter, Mail.new, letterOf, hdata]

/-- The list of a mail box with its lock and the threads that wait on its condition.
`taken` records the mails that were removed. -/
structure MailBox where
  messages : List Mail
  lock : Option ThreadId
  waiting : List ThreadId
  taken : List Letter

/-! ## Machines -/

/-- Where a thread is in `PostOffice::Send` or `PostOffice::Receive`. -/
inductive Pc
  | outside
  | sendAcquire (p : Parcel) (pktHdr : PacketHeader) (buffer : Block)
  | networkSend (p : Parcel) (pktHdr : PacketHeader) (buffer : Block)
  | sendP
  | sendAsleep
  | sendWoken
  | sendRelease
  | getAcquire (box : MailBoxAddress)
  | getTest (box : MailBoxAddress)
  | getWaiting (box : MailBoxAddress)
  | getRelease (box : MailBoxAddress) (mail : Mail)

/-- Where the postal worker is in `PostOffice::PostalDelivery`.  It has returned from `P`
once it has taken from the value of the semaphore. -/
inductive Worker
  | p
  | asleep
  | woken
  | returned
  | received (pktHdr : PacketHeader)
  | putAcquire (mail : Mail)
  | append (mail : Mail)
  | signal (box : MailBoxAddress)
  | release (box : MailBoxAddress)

/-- The `ASSERT`s on the way of a mail. -/
inductive PostAssertion
  | sendLength
  | sendBox
  | networkSend
  | sendToSocket
  | checkPktAvail
  | deliveryBox
  | deliveryLength
  | receiveBox
  | receiveLength
  | pValue
  | vValue
  deriving DecidableEq

/-- A packet as the network device hands it on. -/
structure Datagram where
  hdr : PacketHeader
  data : List UInt8

/-- What has happened so far; nothing in the code reads it. -/
structure History where
  /-- the calls of `Network::Send` -/
  sent : List Parcel
  /-- the packets read from the socket -/
  read : List Datagram
  /-- the packets that `Network::Receive` handed on -/
  received : List Datagram
  /-- what the calls of `PostOffice::Receive` handed out, box by box -/
  returned : List (MailBoxAddress × Letter)

/-- A machine that runs a post office.  `socket` are the packets that the host holds for
it, and `sendsDone` counts the interrupts that `Network::Send` has scheduled and that are
still to come.  `buffer` belongs to the postal worker. -/
structure Machine where
  running : Bool
  failed : List PostAssertion
  socket : List Packet
  sendBusy : Bool
  sendsDone : Nat
  inHdr : PacketHeader
  inbox : Block
  messageAvailable : Semaphore
  messageSent : Semaphore
  sendLock : Option ThreadId
  boxes : MailBoxAddress → MailBox
  worker : Worker
  buffer : Block
  threads : ThreadId → Pc
  history : History

/-- The thread that the constructor of the post office starts. -/
def postalWorker : ThreadId := 0

namespace Machine

/-- After the constructors.  Memory and the rest of `inHdr` hold anything. -/
structure Initial (M : Machine) : Prop where
  failed : M.failed = []
  socket : M.socket = []
  sendBusy : M.sendBusy = false
  sendsDone : M.sendsDone = 0
  length : M.inHdr.length = 0
  messageAvailable : M.messageAvailable = { value := 0, queue := [] }
  messageSent : M.messageSent = { value := 0, queue := [] }
  sendLock : M.sendLock = none
  boxes : ∀ b, M.boxes b = { messages := [], lock := none, waiting := [], taken := [] }
  worker : M.worker = .p
  threads : ∀ t, M.threads t = .outside
  history : M.history = { sent := [], read := [], received := [], returned := [] }

variable (M : Machine) (m : NetworkAddress) (numBoxes : MailBoxAddress) (t : ThreadId)
  (box : MailBoxAddress)

def moveTo (pc : Pc) : Machine := { M with threads := Function.update M.threads t pc }

def setBox (b : MailBox) : Machine := { M with boxes := Function.update M.boxes box b }

/-- A failed `ASSERT` ends the program. -/
def fail (a : PostAssertion) : Machine :=
  { M with running := false, failed := M.failed ++ [a] }

def IsBox : Prop := 0 ≤ box ∧ box < numBoxes

instance : Decidable (IsBox numBoxes box) := inferInstanceAs (Decidable (_ ∧ _))

/-! ### Sending -/

/-- `PostOffice::Send` up to `sendLock->Acquire`, with a buffer that held `junk`. -/
def send (pktHdr : PacketHeader) (mailHdr : MailHeader) (data junk : Block) : Machine :=
  if ¬ mailHdr.length.toNat ≤ maxMailSize then M.fail .sendLength
  else if ¬ IsBox numBoxes mailHdr.toAddress then M.fail .sendBox
  else
    M.moveTo t (.sendAcquire
      { toAddress := pktHdr.toAddress
        mailHdr := mailHdr
        data := bytes data mailHdr.length.toNat }
      { pktHdr with
        fromAddress := m
        length := mailHdr.length + UInt32.ofNat sizeofHeader }
      (behind junk mailHdr mailHdr.length.toNat data))

/-- `sendLock->Acquire` -/
def acquireSend (p : Parcel) (pktHdr : PacketHeader) (buffer : Block) : Machine :=
  { M.moveTo t (.networkSend p pktHdr buffer) with sendLock := some t }

/-- `Network::Send` of a parcel, up to the packet: the interrupt is scheduled. -/
def networkSend (p : Parcel) : Machine :=
  { M.moveTo t .sendP with
    sendsDone := M.sendsDone + 1
    history := { M.history with sent := M.history.sent ++ [p] } }

/-- `SendToSocket`, at the machine that the packet is for. -/
def deposit (p : Packet) : Machine := { M with socket := M.socket ++ [p] }

/-- The test in the loop of `messageSent->P`. -/
def testSent : Machine :=
  match M.messageSent.test t with
  | (semaphore, false) => { M.moveTo t .sendAsleep with messageSent := semaphore }
  | (semaphore, true) => { M.moveTo t .sendRelease with messageSent := semaphore }

/-- `messageSent->P` -/
def pSent : Machine :=
  if 0 ≤ M.messageSent.value then M.testSent t else M.fail .pValue

/-- `sendLock->Release`, and the return of the call. -/
def releaseSend : Machine := { M.moveTo t .outside with sendLock := none }

/-- `ReadyToRun` of a sender. -/
def readySender : Option ThreadId → Machine
  | none => M
  | some t =>
    match M.threads t with
    | .sendAsleep => M.moveTo t .sendWoken
    | _ => M

/-- `PostOffice::PacketSent` -/
def packetSent : Machine :=
  if 0 ≤ M.messageSent.value then
    { M.readySender M.messageSent.post.2 with messageSent := M.messageSent.post.1 }
  else M.fail .vValue

/-- `Network::SendDone` -/
def sendDone : Machine :=
  { M with sendBusy := false, sendsDone := M.sendsDone - 1 }.packetSent

/-! ### Delivery -/

/-- `ReadyToRun` of the postal worker. -/
def readyWorker : Option ThreadId → Machine
  | none => M
  | some _ =>
    match M.worker with
    | .asleep => { M with worker := .woken }
    | _ => M

/-- `PostOffice::IncomingPacket` -/
def incomingPacket : Machine :=
  if 0 ≤ M.messageAvailable.value then
    { M.readyWorker M.messageAvailable.post.2 with
      messageAvailable := M.messageAvailable.post.1 }
  else M.fail .vValue

/-- `Network::CheckPktAvail`, when the socket has `packet` first. -/
def readPacket (packet : Packet) (rest : List Packet) : Machine :=
  let buffer := packet.block
  let inHdr := Header.read buffer
  let M := { M with socket := rest, inHdr := inHdr }
  if inHdr.toAddress = m ∧ inHdr.length.toNat ≤ maxPacketSize then
    incomingPacket
      { M with
        inbox := M.inbox.copy 0 inHdr.length.toNat (buffer.from sizeofHeader)
        history :=
          { M.history with
            read := M.history.read ++
              [⟨inHdr, bytes (buffer.from sizeofHeader) inHdr.length.toNat⟩] } }
  else M.fail .checkPktAvail

/-- `Network::CheckPktAvail` -/
def checkPktAvail : Machine :=
  if M.inHdr.length ≠ 0 then M
  else
    match M.socket with
    | [] => M
    | packet :: rest => M.readPacket m packet rest

/-- The test in the loop of `messageAvailable->P`. -/
def testAvailable : Machine :=
  match M.messageAvailable.test postalWorker with
  | (semaphore, false) => { M with worker := .asleep, messageAvailable := semaphore }
  | (semaphore, true) => { M with worker := .returned, messageAvailable := semaphore }

/-- `messageAvailable->P` -/
def pAvailable : Machine :=
  if 0 ≤ M.messageAvailable.value then M.testAvailable else M.fail .pValue

/-- `Network::Receive` -/
def receive : Machine :=
  let hdr := M.inHdr
  { M with
    inHdr := { M.inHdr with length := 0 }
    buffer := if hdr.length ≠ 0 then M.buffer.copy 0 hdr.length.toNat M.inbox else M.buffer
    worker := .received hdr
    history :=
      { M.history with
        received := M.history.received ++ [⟨hdr, bytes M.inbox hdr.length.toNat⟩] } }

/-- `PostOffice::PostalDelivery` from `Network::Receive` to the `Acquire` in
`MailBox::Put`.  `Mail::Mail` makes the check of the length once more. -/
def deliver (pktHdr : PacketHeader) (junk : Block) : Machine :=
  let mailHdr := Header.read M.buffer
  if ¬ IsBox numBoxes mailHdr.toAddress then M.fail .deliveryBox
  else if ¬ mailHdr.length.toNat ≤ maxMailSize then M.fail .deliveryLength
  else
    { M with
      worker := .putAcquire (Mail.new junk pktHdr mailHdr (M.buffer.from sizeofHeader)) }

/-- `lock->Acquire` in `SynchList::Append` -/
def acquirePut (mail : Mail) : Machine :=
  { M.setBox mail.mailHdr.toAddress
      { M.boxes mail.mailHdr.toAddress with lock := some postalWorker } with
    worker := .append mail }

/-- `list->Append` in `SynchList::Append` -/
def append (mail : Mail) : Machine :=
  { M.setBox mail.mailHdr.toAddress
      { M.boxes mail.mailHdr.toAddress with
        messages := (M.boxes mail.mailHdr.toAddress).messages ++ [mail] } with
    worker := .signal mail.mailHdr.toAddress }

/-- `listEmpty->Signal`, when it picks thread `t`. -/
def signal : Machine :=
  { (M.moveTo t (.getAcquire box)).setBox box
      { M.boxes box with waiting := (M.boxes box).waiting.erase t } with
    worker := .release box }

/-- `lock->Release` in `SynchList::Append` -/
def releasePut : Machine :=
  { M.setBox box { M.boxes box with lock := none } with worker := .p }

/-! ### Receiving -/

/-- `PostOffice::Receive` up to the `Acquire` in `SynchList::Remove`. -/
def get : Machine :=
  if IsBox numBoxes box then M.moveTo t (.getAcquire box) else M.fail .receiveBox

/-- `lock->Acquire` in `SynchList::Remove`, on entry and in `Wait`. -/
def acquireGet : Machine :=
  (M.moveTo t (.getTest box)).setBox box { M.boxes box with lock := some t }

/-- The loop in `SynchList::Remove`: `Wait`, or `list->Remove`. -/
def testGet : Machine :=
  match (M.boxes box).messages with
  | [] =>
    (M.moveTo t (.getWaiting box)).setBox box
      { M.boxes box with lock := none, waiting := (M.boxes box).waiting ++ [t] }
  | mail :: rest =>
    (M.moveTo t (.getRelease box mail)).setBox box
      { M.boxes box with messages := rest, taken := (M.boxes box).taken ++ [mail.letter] }

/-- `lock->Release` in `SynchList::Remove`, and the return of the call. -/
def releaseGet (mail : Mail) : Machine :=
  let M := M.setBox box { M.boxes box with lock := none }
  if mail.mailHdr.length.toNat ≤ maxMailSize then
    { M.moveTo t .outside with
      history := { M.history with returned := M.history.returned ++ [(box, mail.letter)] } }
  else M.fail .receiveLength

/-! ### Steps -/

/-- What one machine does by itself. -/
inductive Step : Machine → Prop
  | send {t : ThreadId} (h : M.threads t = .outside) (ht : t ≠ postalWorker)
      (pktHdr : PacketHeader) (mailHdr : MailHeader) (data junk : Block) :
      Step (M.send m numBoxes t pktHdr mailHdr data junk)
  | acquireSend {t : ThreadId} {p : Parcel} {pktHdr : PacketHeader} {buffer : Block}
      (h : M.threads t = .sendAcquire p pktHdr buffer) (hl : M.sendLock = none) :
      Step (M.acquireSend t p pktHdr buffer)
  | pSent {t : ThreadId} (h : M.threads t = .sendP) : Step (M.pSent t)
  | testSent {t : ThreadId} (h : M.threads t = .sendWoken) : Step (M.testSent t)
  | releaseSend {t : ThreadId} (h : M.threads t = .sendRelease) : Step (M.releaseSend t)
  | sendDone (h : 0 < M.sendsDone) : Step M.sendDone
  | poll : Step (M.checkPktAvail m)
  | pAvailable (h : M.worker = .p) : Step M.pAvailable
  | testAvailable (h : M.worker = .woken) : Step M.testAvailable
  | receive (h : M.worker = .returned) : Step M.receive
  | deliver {pktHdr : PacketHeader} (h : M.worker = .received pktHdr) (junk : Block) :
      Step (M.deliver numBoxes pktHdr junk)
  | acquirePut {mail : Mail} (h : M.worker = .putAcquire mail)
      (hl : (M.boxes mail.mailHdr.toAddress).lock = none) : Step (M.acquirePut mail)
  | append {mail : Mail} (h : M.worker = .append mail) : Step (M.append mail)
  | signal {box : MailBoxAddress} {t : ThreadId} (h : M.worker = .signal box)
      (ht : t ∈ (M.boxes box).waiting) : Step (M.signal t box)
  | signalNone {box : MailBoxAddress} (h : M.worker = .signal box)
      (hw : (M.boxes box).waiting = []) : Step { M with worker := .release box }
  | releasePut {box : MailBoxAddress} (h : M.worker = .release box) : Step (M.releasePut box)
  | get {t : ThreadId} (h : M.threads t = .outside) (ht : t ≠ postalWorker)
      (box : MailBoxAddress) : Step (M.get numBoxes t box)
  | acquireGet {t : ThreadId} {box : MailBoxAddress} (h : M.threads t = .getAcquire box)
      (hl : (M.boxes box).lock = none) : Step (M.acquireGet t box)
  | testGet {t : ThreadId} {box : MailBoxAddress} (h : M.threads t = .getTest box) :
      Step (M.testGet t box)
  | releaseGet {t : ThreadId} {box : MailBoxAddress} {mail : Mail}
      (h : M.threads t = .getRelease box mail) : Step (M.releaseGet t box mail)
  | powerdown : Step { M with running := false }

end Machine

/-! ## The network -/

/-- The machine at each address. -/
abbrev State := NetworkAddress → Machine

/-- `Network::Send` at machine `m`.  The packet is dropped if `lost`, and the host refuses
it if no machine runs at its address. -/
def networkSend (s : State) (m : NetworkAddress) (t : ThreadId) (p : Parcel)
    (hdr : PacketHeader) (data : Block) (lost : Bool) (junk : Block) : State :=
  let M := (s m).networkSend t p
  if (s m).sendBusy = false ∧ 0 < hdr.length.toNat ∧ hdr.length.toNat ≤ maxPacketSize ∧
      hdr.fromAddress = m then
    if lost then Function.update s m M
    else if (s hdr.toAddress).running then
      let s := Function.update s m M
      Function.update s hdr.toAddress ((s hdr.toAddress).deposit
        (Packet.ofBlock (behind junk hdr hdr.length.toNat data)))
    else Function.update s m (M.fail .sendToSocket)
  else Function.update s m ((s m).fail .networkSend)

/-- One step of one running machine. -/
inductive Step (numBoxes : NetworkAddress → MailBoxAddress) (s : State) : State → Prop
  | machine {m : NetworkAddress} {M : Machine} (hrun : (s m).running = true)
      (h : (s m).Step m (numBoxes m) M) : Step numBoxes s (Function.update s m M)
  | networkSend {m : NetworkAddress} {t : ThreadId} {p : Parcel} {hdr : PacketHeader}
      {data : Block} (hrun : (s m).running = true)
      (h : (s m).threads t = .networkSend p hdr data) (lost : Bool) (junk : Block) :
      Step numBoxes s (networkSend s m t p hdr data lost junk)

/-- Any machines, each with the number of its mail boxes, and every order of their steps. -/
def system (numBoxes : NetworkAddress → MailBoxAddress) : System State where
  init s := ∀ m, (s m).Initial
  step := Step numBoxes

end Network
end Nachos
